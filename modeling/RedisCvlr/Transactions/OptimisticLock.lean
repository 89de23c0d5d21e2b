import RedisCvlr.Transactions.Fence

/-!
# WATCH as an optimistic lock

Under the scope fence, a client that watched a key and is still clean knows the slot of that key.
`Locked` is what the clean bit certifies in every later state: the slot is the one that was watched,
or, when the key had already expired at the WATCH, that slot or its deletion. A step that breaks
this dirties the client (`Locked.next`).
-/

set_option autoImplicit false
set_option relaxedAutoImplicit false

namespace RedisCvlr.Transactions

open RedisCvlr.Library RedisCvlr.Model RedisCvlr.Watch RedisCvlr.Keyspace

variable {K C : ℕ}

/-- The key is physically present and logically expired. -/
def logicallyExpired (w : World K C) (k : Fin K) : Bool := (w.slots k).present && keyIsExpired w k

/-- What a clean client knows about a key that it watched alive: no flag, and the slot `s`. -/
structure LockedAlive (s : Slot) (w : World K C) (c : Fin C) (k : Fin K) : Prop where
  watching : (w.clients c).watching k = true
  unflagged : (w.clients c).watchedExpired k = false
  slot_eq : w.slots k = s

/-- What a clean client knows about a key that it watched expired: the expired slot `s`, or none. -/
structure LockedExpired (s : Slot) (w : World K C) (c : Fin C) (k : Fin K) : Prop where
  watching : (w.clients c).watching k = true
  slot_eq : w.slots k = s ∧ keyIsExpired w k = true ∨ w.slots k = Slot.absent

section Steps

variable {w : World K C} {c : Fin C} {k : Fin K}

/-- No step clears the dirty bit. -/
theorem dirtyCas_mono_next (h : WatchWellFormed w) (s : Step K C)
    (hdirty : (w.clients c).dirtyCas = true) : ((w.next s).clients c).dirtyCas = true := by
  refine next_rule (fun w' ↦ (w'.clients c).dirtyCas = true) s (fun _ _ ↦ hdirty)
    (fun _ client k _ ↦ ?_) (fun _ client _ ↦ ?_) fun _ ↦ ?_
  · rwa [dirtyCas_watchKey]
  · rw [clients_unwatchAll (freshUnit_wellFormed h)]
    split_ifs <;> exact hdirty
  · exact (applyEdits_weakened (freshUnit_wellFormed h) _ c).dirty_mono hdirty

/-- A new watch leaves the watched keys of every client, and their flags, alone. -/
theorem watchKey_kept (h : WatchWellFormed w) (client : Fin C) (k' : Fin K)
    (hwatching : (w.clients c).watching k = true) :
    ((watchKey w client k').clients c).watching k = true ∧
      ((watchKey w client k').clients c).watchedExpired k = (w.clients c).watchedExpired k := by
  cases hnew : (w.clients client).watching k' with
  | true => exact ⟨by rwa [watchKey, if_pos hnew], by rw [watchKey, if_pos hnew]⟩
  | false =>
    rw [watchKey_eq h hnew]
    by_cases hc : c = client
    · subst hc
      have hk : k ≠ k' := by
        rintro rfl
        rw [hwatching] at hnew
        exact Bool.noConfusion hnew
      simp [withWatch, watchBits, hk, hwatching]
    · simp [withWatch, hc, hwatching]

/-- A step other than an UNWATCH of the client leaves the client clean only if it keeps the watches
of the client and sets no flag on them. -/
theorem bits_kept_of_clean (h : WatchWellFormed w) {s : Step K C}
    (hunwatch : ∀ issuer, s ≠ .cmd issuer (.unwatch c))
    (hwatching : (w.clients c).watching k = true) :
    ((w.next s).clients c).dirtyCas = false →
      ((w.next s).clients c).watching k = true ∧
        (((w.next s).clients c).watchedExpired k = true →
          (w.clients c).watchedExpired k = true) := by
  have hfresh := freshUnit_wellFormed h
  refine next_rule (fun w' ↦ (w'.clients c).dirtyCas = false → (w'.clients c).watching k = true ∧
    ((w'.clients c).watchedExpired k = true → (w.clients c).watchedExpired k = true)) s
    (fun _ _ _ ↦ ⟨hwatching, id⟩) (fun _ client k' _ _ ↦ ?_) (fun issuer client hs _ ↦ ?_)
    fun _ hclean ↦ ?_
  · obtain ⟨hkept, hflag⟩ := watchKey_kept hfresh client k' hwatching
    exact ⟨hkept, fun hset ↦ hflag ▸ hset⟩
  · have hne : c ≠ client := by
      rintro rfl
      exact hunwatch issuer hs
    rw [clients_unwatchAll hfresh, if_neg hne]
    exact ⟨hwatching, id⟩
  · have hweakened := applyEdits_weakened hfresh (stepEdits w s) c
    rw [hweakened.clean_watching hclean]
    exact ⟨hwatching, hweakened.flag_of k⟩

/-- A step that leaves a watcher clean edits no unflagged key of it, and at most deletes a flagged
one. -/
theorem edits_of_clean (hfenced : Fenced w) {s : Step K C}
    (hwatching : (w.clients c).watching k = true)
    (hclean : ((w.next s).clients c).dirtyCas = false) :
    ((w.clients c).watchedExpired k = false → editsOn k (stepEdits w s) = []) ∧
      (editsOn k (stepEdits w s) = [] ∨
        (w.slots k).present = true ∧ editsOn k (stepEdits w s) = [.delete]) := by
  have hnot := dirtyCas_next hfenced.live hfenced.purging s c
  rw [hclean] at hnot
  simp only [Bool.false_eq_true, false_iff, not_or, not_exists, not_and] at hnot
  obtain ⟨hunflagged, hshort⟩ := hnot.2 k hwatching
  have hkept : (w.clients c).watchedExpired k = false → editsOn k (stepEdits w s) = [] :=
    fun hflag ↦ not_not.mp (hunflagged hflag)
  refine ⟨hkept, ?_⟩
  cases hflag : (w.clients c).watchedExpired k with
  | false => exact .inl (hkept hflag)
  | true =>
    have hpresent := hfenced.live.present c k hflag
    obtain hnil | hpurge | ⟨val, expireAt, hrewrite⟩ :=
      editsOn_of_flagged hfenced.live hfenced.purging s hflag
    · exact .inl hnil
    · exact .inr ⟨hpresent, hpurge⟩
    · exact absurd (by rw [hrewrite]; exact le_refl 2) hshort

theorem slot_of_no_edits {s : Step K C} (hnone : editsOn k (stepEdits w s) = []) :
    (w.next s).slots k = w.slots k := by
  rw [next_slots, hnone, List.foldl_nil]

theorem LockedAlive.next {slot : Slot} (hlocked : LockedAlive slot w c k) (hfenced : Fenced w)
    {s : Step K C} (hunwatch : ∀ issuer, s ≠ .cmd issuer (.unwatch c))
    (hclean : ((w.next s).clients c).dirtyCas = false) : LockedAlive slot (w.next s) c k := by
  obtain ⟨hwatching, hflag⟩ :=
    bits_kept_of_clean hfenced.live.wellFormed hunwatch hlocked.watching hclean
  refine ⟨hwatching, ?_, ?_⟩
  · rw [← Bool.not_eq_true]
    intro hset
    rw [hlocked.unflagged] at hflag
    exact Bool.false_ne_true (hflag hset)
  · rw [slot_of_no_edits ((edits_of_clean hfenced hlocked.watching hclean).1 hlocked.unflagged)]
    exact hlocked.slot_eq

theorem LockedExpired.next {slot : Slot} (hlocked : LockedExpired slot w c k) (hfenced : Fenced w)
    {s : Step K C} (hadmits : Admits w s) (hunwatch : ∀ issuer, s ≠ .cmd issuer (.unwatch c))
    (hclean : ((w.next s).clients c).dirtyCas = false) : LockedExpired slot (w.next s) c k := by
  refine ⟨(bits_kept_of_clean hfenced.live.wellFormed hunwatch hlocked.watching hclean).1, ?_⟩
  obtain hnil | ⟨hpresent, hpurge⟩ := (edits_of_clean hfenced hlocked.watching hclean).2
  · have hslot := slot_of_no_edits hnil
    refine hlocked.slot_eq.imp (fun hkept ↦ ⟨hslot.trans hkept.1, ?_⟩) fun hgone ↦ hslot.trans hgone
    have hexpired := hkept.2
    rw [keyIsExpired_eq] at hexpired ⊢
    rw [next_config, hslot]
    exact Config.expired_mono (clock_le_next w s hadmits) hexpired
  · refine .inr ?_
    rw [next_slots, hpurge]
    rfl

/-- A key that a client holds locked as expired is not visible. -/
theorem LockedExpired.invisible {slot : Slot} (hlocked : LockedExpired slot w c k) :
    w.snapshotVisible k = none := by
  rcases hlocked.slot_eq with ⟨-, hexpired⟩ | hgone
  · simp [World.snapshotVisible, hexpired]
  · simp [World.snapshotVisible, hgone, Slot.absent]

end Steps

/-! ### Runs -/

section Runs

variable {w : World K C} {c : Fin C} {k : Fin K} {later : List (Step K C)}

/-- A client that is clean at the end of a run was clean at its start. -/
theorem clean_of_run_clean (h : WatchWellFormed w)
    (hclean : ((runSchedule w later).clients c).dirtyCas = false) :
    (w.clients c).dirtyCas = false := by
  rw [← Bool.not_eq_true]
  intro hdirty
  have hend := Machine.run_preserves
    (fun w' : World K C ↦ WatchWellFormed w' ∧ (w'.clients c).dirtyCas = true)
    (fun w' s hinv ↦ ⟨next_wellFormed hinv.1 s, dirtyCas_mono_next hinv.1 s hinv.2⟩) later
    ⟨h, hdirty⟩
  rw [hend.2] at hclean
  exact Bool.noConfusion hclean

/-- What a clean client knows about a key stays true as long as it stays clean and does not
UNWATCH, in every state in between. -/
theorem locked_of_clean (L : World K C → Prop)
    (hstep : ∀ (w : World K C) (s : Step K C), Fenced w → Admits w s →
      (∀ issuer, s ≠ .cmd issuer (.unwatch c)) → ((w.next s).clients c).dirtyCas = false →
        L w → L (w.next s))
    (hfenced : Fenced w) (hruns : Runs w later)
    (hunwatch : ∀ issuer, Step.cmd issuer (.unwatch c) ∉ later)
    (hclean : ((runSchedule w later).clients c).dirtyCas = false) (hlocked : L w) :
    ∀ before, before <+: later → L (runSchedule w before) := by
  induction later generalizing w with
  | nil =>
    intro before hpre
    rw [List.prefix_nil.mp hpre]
    exact hlocked
  | cons s rest ih =>
    have hnext : Fenced (w.next s) := hfenced.next hruns.1
    have hfirst : ∀ issuer, s ≠ .cmd issuer (.unwatch c) := by
      rintro issuer rfl
      exact hunwatch issuer List.mem_cons_self
    have hlockedNext : L (w.next s) :=
      hstep w s hfenced hruns.1 hfirst (clean_of_run_clean hnext.live.wellFormed hclean) hlocked
    intro before hpre
    cases before with
    | nil => exact hlocked
    | cons s' before =>
      obtain ⟨rfl, htail⟩ := List.cons_prefix_cons.mp hpre
      exact ih hnext hruns.2 (fun issuer hmem ↦ hunwatch issuer (List.mem_cons_of_mem _ hmem))
        hclean hlockedNext before htail

end Runs

/-- A client that watches a key, runs no UNWATCH and is still clean after any further steps still
watches the key, and the key was not changed under it: a key that was not expired at the WATCH has
the same slot, and an expired one has the same slot or none and was never visible in between. -/
theorem watch_locks {w : World K C} (hreach : FenceReachable w) (issuer c : Fin C) (k : Fin K)
    (hwatching : (w.clients c).watching k = false) (later : List (Step K C))
    (hruns : Runs (w.next (.cmd issuer (.watch c k))) later)
    (hunwatch : ∀ issuer', Step.cmd issuer' (.unwatch c) ∉ later)
    (hclean : ((runSchedule (w.next (.cmd issuer (.watch c k))) later).clients c).dirtyCas =
      false) :
    ((runSchedule (w.next (.cmd issuer (.watch c k))) later).clients c).watching k = true ∧
      (logicallyExpired w k = false →
        (runSchedule (w.next (.cmd issuer (.watch c k))) later).slots k = w.slots k) ∧
      (logicallyExpired w k = true →
        ((runSchedule (w.next (.cmd issuer (.watch c k))) later).slots k = w.slots k ∨
          (runSchedule (w.next (.cmd issuer (.watch c k))) later).slots k = Slot.absent) ∧
        ∀ before, before <+: later →
          (runSchedule (w.next (.cmd issuer (.watch c k))) before).snapshotVisible k = none) := by
  have hfenced : Fenced (w.next (.cmd issuer (.watch c k))) := hreach.fenced.next trivial
  have hfresh := freshUnit_wellFormed hreach.fenced.live.wellFormed
  have hbits : ((w.next (.cmd issuer (.watch c k))).clients c) =
      watchBits (w.clients c) k (logicallyExpired w k) := by
    rw [next_watch, watchKey_eq hfresh hwatching]
    exact Function.update_self ..
  have hslot : (w.next (.cmd issuer (.watch c k))).slots k = w.slots k := by
    rw [next_watch, slots_of_frame (watchKey_frame _ c k), freshUnit_slots]
  cases hexpired : logicallyExpired w k with
  | false =>
    have hlocked : LockedAlive (w.slots k) (w.next (.cmd issuer (.watch c k))) c k :=
      ⟨by simp [hbits, watchBits], by simp [hbits, watchBits, hexpired], hslot⟩
    have hend := locked_of_clean (fun w' ↦ LockedAlive (w.slots k) w' c k)
      (fun _ _ hf _ hu hc hl ↦ hl.next hf hu hc) hfenced hruns hunwatch hclean hlocked later
      (List.prefix_refl later)
    exact ⟨hend.watching, fun _ ↦ hend.slot_eq, fun h ↦ absurd h Bool.false_ne_true⟩
  | true =>
    have hnow : keyIsExpired (w.next (.cmd issuer (.watch c k))) k = true := by
      rw [logicallyExpired, Bool.and_eq_true] at hexpired
      rw [keyIsExpired_eq, next_config, next_clock, hslot, ← keyIsExpired_eq]
      exact hexpired.2
    have hlocked : LockedExpired (w.slots k) (w.next (.cmd issuer (.watch c k))) c k :=
      ⟨by simp [hbits, watchBits], .inl ⟨hslot, hnow⟩⟩
    have hend := locked_of_clean (fun w' ↦ LockedExpired (w.slots k) w' c k)
      (fun _ _ hf ha hu hc hl ↦ hl.next hf ha hu hc) hfenced hruns hunwatch hclean hlocked
    refine ⟨(hend later (List.prefix_refl later)).watching,
      fun h ↦ absurd h.symm Bool.false_ne_true,
      fun _ ↦ ⟨(hend later (List.prefix_refl later)).slot_eq.imp_left And.left,
        fun before hpre ↦ (hend before hpre).invisible⟩⟩

/-- A key is watched before its time passes, and nothing touches it. -/
theorem watch_locks_untouched :
    ((runSchedule (World.empty 0 : World keyCount clientCount)
        [.cmd 1 (.set 0 Str.empty .always (.pxAt 10) false), .cmd 0 (.watch 0 0), .cmd 1 (.get 0),
          .clockTick 50, .cmd 1 .keys]).slots 0) = ⟨true, .str Str.empty, 10⟩ := by
  have hreach : FenceReachable (runSchedule (World.empty 0 : World keyCount clientCount)
      [.cmd 1 (.set 0 Str.empty .always (.pxAt 10) false)]) :=
    ⟨World.empty 0, [.cmd 1 (.set 0 Str.empty .always (.pxAt 10) false)],
      .inl ⟨0, by decide, rfl⟩, by decide, rfl⟩
  have hlocked := watch_locks hreach 0 0 0 (by decide)
    [.cmd 1 (.get 0), .clockTick 50, .cmd 1 .keys] (by decide) (by decide) (by decide)
  exact (hlocked.2.1 (by decide)).trans (by decide)

end RedisCvlr.Transactions
