import RedisCvlr.Keyspace.Steps

/-!
# The watch table along every run

The two copies of the watch relation, the bits of the clients and the arrays of the table, agree in
every state that a run reaches from a world in which nobody watches anything. No configuration and
no property of the clock is used.

Edits can only weaken a client: it loses watches and flags, and it turns dirty only by losing all
its watches (`Weakened`).
-/

set_option autoImplicit false
set_option relaxedAutoImplicit false

namespace RedisCvlr.Transactions

open RedisCvlr.Library RedisCvlr.Model RedisCvlr.Watch RedisCvlr.Keyspace

variable {K C : ℕ}

/-! ### What edits do to a client -/

/-- What touches can do to a client: watches and flags are dropped, the dirty bit may be set, and it
is set only together with the loss of every watch. -/
structure Weakened (before after : ClientState K) : Prop where
  watching_of : ∀ k, after.watching k = true → before.watching k = true
  flag_of : ∀ k, after.watchedExpired k = true → before.watchedExpired k = true
  dirty_mono : before.dirtyCas = true → after.dirtyCas = true
  clean_watching : after.dirtyCas = false → after.watching = before.watching
  dirtied : after.dirtyCas = true → before.dirtyCas = true ∨ ∀ k, after.watching k = false

theorem Weakened.refl (client : ClientState K) : Weakened client client :=
  ⟨fun _ h ↦ h, fun _ h ↦ h, fun h ↦ h, fun _ ↦ rfl, .inl⟩

theorem Weakened.trans {first second third : ClientState K} (h : Weakened first second)
    (h' : Weakened second third) : Weakened first third where
  watching_of k hk := h.watching_of k (h'.watching_of k hk)
  flag_of k hk := h.flag_of k (h'.flag_of k hk)
  dirty_mono hd := h'.dirty_mono (h.dirty_mono hd)
  clean_watching hclean := by
    have hmiddle : second.dirtyCas = false := by
      rw [← Bool.not_eq_true]
      intro hd
      rw [h'.dirty_mono hd] at hclean
      exact Bool.false_ne_true hclean.symm
    rw [h'.clean_watching hclean, h.clean_watching hmiddle]
  dirtied hd := by
    rcases h'.dirtied hd with hmiddle | hnone
    · rcases h.dirtied hmiddle with hold | hnone
      · exact .inl hold
      · refine .inr fun k ↦ ?_
        rw [← Bool.not_eq_true]
        intro hk
        have hearlier := h'.watching_of k hk
        rw [hnone k] at hearlier
        exact Bool.false_ne_true hearlier
    · exact .inr hnone

theorem weakened_dirtyBits (client : ClientState K) : Weakened client (dirtyBits client) where
  watching_of _ hk := absurd hk Bool.false_ne_true
  flag_of _ hk := absurd hk Bool.false_ne_true
  dirty_mono _ := rfl
  clean_watching hclean := absurd hclean.symm Bool.false_ne_true
  dirtied _ := .inr fun _ ↦ rfl

theorem weakened_clearBits (client : ClientState K) (k : Fin K) :
    Weakened client (clearBits client k) where
  watching_of _ hk := hk
  flag_of k' hk := by
    by_cases hkey : k' = k
    · subst hkey
      simp [clearBits] at hk
    · simpa [clearBits, hkey] using hk
  dirty_mono hd := hd
  clean_watching _ := rfl
  dirtied hd := .inl hd

/-! ### What edits do to the table -/

section Edits

variable {w : World K C}

theorem setSlot_wellFormed (h : WatchWellFormed w) (k : Fin K) (s : Slot) :
    WatchWellFormed (w.setSlot k s) :=
  wellFormed_of_same h rfl (fun _ ↦ rfl) fun _ _ hflag ↦ hflag

theorem withUnit_wellFormed (h : WatchWellFormed w) (repl : ReplLog K) (dirty nesting : ℕ) :
    WatchWellFormed (withUnit w repl dirty nesting) :=
  wellFormed_of_same h rfl (fun _ ↦ rfl) fun _ _ hflag ↦ hflag

theorem freshUnit_wellFormed (h : WatchWellFormed w) : WatchWellFormed (freshUnit w) :=
  withUnit_wellFormed h _ _ _

theorem applyEdit_wellFormed (h : WatchWellFormed w) (edit : Fin K × Edit) :
    WatchWellFormed (applyEdit w edit) := by
  obtain ⟨k, e⟩ := edit
  rw [applyEdit_eq]
  exact withUnit_wellFormed (touchWatchedKey_wellFormed (setSlot_wellFormed h k _) k false) _ _ _

theorem applyEdits_wellFormed (h : WatchWellFormed w) (edits : List (Fin K × Edit)) :
    WatchWellFormed (applyEdits w edits) := by
  induction edits generalizing w with
  | nil => exact h
  | cons edit rest ih => exact ih (applyEdit_wellFormed h edit)

theorem applyEdit_weakened (h : WatchWellFormed w) (edit : Fin K × Edit) (c : Fin C) :
    Weakened (w.clients c) ((applyEdit w edit).clients c) := by
  obtain ⟨k, e⟩ := edit
  rw [applyEdit_eq]
  change Weakened _ ((touchWatchedKey (w.setSlot k (e.slot (w.slots k))) k false).clients c)
  rcases clients_touchWatchedKey (setSlot_wellFormed h k (e.slot (w.slots k))) k false c with
    ⟨-, hdirty⟩ | hclear | hsame
  · rw [hdirty]
    exact weakened_dirtyBits (w.clients c)
  · rw [hclear]
    exact weakened_clearBits (w.clients c) k
  · rw [hsame]
    exact .refl (w.clients c)

theorem applyEdits_weakened (h : WatchWellFormed w) (edits : List (Fin K × Edit)) (c : Fin C) :
    Weakened (w.clients c) ((applyEdits w edits).clients c) := by
  induction edits generalizing w with
  | nil => exact .refl _
  | cons edit rest ih =>
    exact (applyEdit_weakened h edit c).trans (ih (applyEdit_wellFormed h edit))

end Edits

/-! ### Steps and runs -/

/-- Nobody watches anything. -/
structure NobodyWatches (w : World K C) : Prop where
  table : w.watched = WatchTable.new
  bits : ∀ c k, (w.clients c).watching k = false
  flags : ∀ c k, (w.clients c).watchedExpired k = false

section Steps

variable {w : World K C}

theorem NobodyWatches.wellFormed (h : NobodyWatches w) : WatchWellFormed w := by
  have htable : w.watched = tableOf fun _ ↦ [] := h.table
  refine WatchWellFormed.of_lists htable (fun _ ↦ List.nodup_nil) (fun k c ↦ ?_) fun c k hflag ↦ ?_
  · simp [h.bits c k]
  · rw [h.flags c k] at hflag
    exact absurd hflag Bool.false_ne_true

theorem next_wellFormed (h : WatchWellFormed w) (s : Step K C) : WatchWellFormed (w.next s) := by
  refine next_rule WatchWellFormed s (fun d _ ↦ ?_) (fun _ client k _ ↦ ?_)
    (fun _ client _ ↦ ?_) fun _ ↦ ?_
  · exact wellFormed_of_same h rfl (fun _ ↦ rfl) fun _ _ hflag ↦ hflag
  · exact watchKey_wellFormed (freshUnit_wellFormed h) client k
  · exact unwatchAll_wellFormed (freshUnit_wellFormed h) client
  · exact applyEdits_wellFormed (freshUnit_wellFormed h) _

theorem runSchedule_wellFormed (h : WatchWellFormed w) (schedule : List (Step K C)) :
    WatchWellFormed (runSchedule w schedule) :=
  Machine.run_preserves WatchWellFormed (fun _ s hw ↦ next_wellFormed hw s) schedule h

theorem dirtyCas_watchKey (w : World K C) (c client : Fin C) (k : Fin K) :
    ((watchKey w client k).clients c).dirtyCas = (w.clients c).dirtyCas := by
  rw [watchKey]
  split_ifs
  · rfl
  · by_cases hc : c = client
    · subst hc
      simp [World.setClient]
    · simp [World.setClient, hc]

theorem clients_unwatchAll (h : WatchWellFormed w) (c client : Fin C) :
    (unwatchAll w client).clients c =
      if c = client then forgetBits (w.clients c) else w.clients c := by
  rw [unwatchAll_eq h]
  by_cases hc : c = client
  · subst hc
    simp [forget, withWatch]
  · simp [forget, withWatch, hc]

/-- A client that a step turns dirty watches nothing after it. -/
theorem watching_of_dirtied (h : WatchWellFormed w) (s : Step K C) (c : Fin C)
    (hclean : (w.clients c).dirtyCas = false) :
    ((w.next s).clients c).dirtyCas = true → ∀ k, ((w.next s).clients c).watching k = false := by
  have hnot : (w.clients c).dirtyCas ≠ true := by simp [hclean]
  refine next_rule
    (fun w' ↦ (w'.clients c).dirtyCas = true → ∀ k, (w'.clients c).watching k = false) s
    (fun d _ ↦ ?_) (fun _ client k _ ↦ ?_) (fun _ client _ ↦ ?_) fun _ ↦ ?_
  · exact fun hdirty ↦ absurd hdirty hnot
  · intro hdirty
    rw [dirtyCas_watchKey] at hdirty
    exact absurd hdirty hnot
  · intro hdirty
    rw [clients_unwatchAll (freshUnit_wellFormed h)] at hdirty
    split_ifs at hdirty <;> exact absurd hdirty hnot
  · intro hdirty
    exact ((applyEdits_weakened (freshUnit_wellFormed h) _ c).dirtied hdirty).resolve_left hnot

/-- A WATCH is never lost: whatever the list was, the client is in it afterwards. -/
theorem mem_watchers_next_watch (h : WatchWellFormed w) (issuer c : Fin C) (k : Fin K) :
    c ∈ (w.next (.cmd issuer (.watch c k))).watchers k := by
  rw [(next_wellFormed h _).mem_watchers, next_watch, watchKey]
  split_ifs with hwatching
  · exact hwatching
  · simp [World.setClient]

/-- The watch table represents the watch relation in every state of every run that starts with
nobody watching: the arrays are duplicate-free prefixes that match the bits, the append of a new
watcher always finds room, and a client that a step turns dirty is in no watcher list. -/
theorem watchTable_represents (hstart : NobodyWatches w) (schedule : List (Step K C)) :
    WatchWellFormed (runSchedule w schedule) ∧
      (∀ c k, ((runSchedule w schedule).clients c).watching k = false →
        (runSchedule w schedule).watched.len k < C) ∧
      (∀ issuer c k, c ∈ ((runSchedule w schedule).next
        (.cmd issuer (.watch c k))).watchers k) ∧
      ∀ s c, ((runSchedule w schedule).clients c).dirtyCas = false →
        (((runSchedule w schedule).next s).clients c).dirtyCas = true →
        ∀ k i, ((runSchedule w schedule).next s).watched.order k i ≠ some c := by
  have hwf : WatchWellFormed (runSchedule w schedule) :=
    runSchedule_wellFormed hstart.wellFormed schedule
  refine ⟨hwf, fun c k hwatching ↦ ?_, fun issuer c k ↦ mem_watchers_next_watch hwf issuer c k,
    fun s c hclean hdirty k i hoccurs ↦ ?_⟩
  · have hroom := length_lt_of_not_watching hwf hwatching
    rwa [← (hwf.holds k).len_eq] at hroom
  · have hwatching := ((next_wellFormed hwf s).occurs_iff k c).mp ⟨i, hoccurs⟩
    rw [watching_of_dirtied hwf s c hclean hdirty k] at hwatching
    exact Bool.false_ne_true hwatching

/-- A client watches two keys of an empty world, one of which is then written. -/
theorem watchTable_represents_watch_set :
    WatchWellFormed (runSchedule (World.empty 0 : World keyCount clientCount)
      [.cmd 0 (.watch 0 0), .cmd 0 (.watch 0 1),
        .cmd 1 (.set 0 Str.empty .always .none false)]) :=
  (watchTable_represents ⟨rfl, fun _ _ ↦ rfl, fun _ _ ↦ rfl⟩ _).1

end Steps

end RedisCvlr.Transactions
