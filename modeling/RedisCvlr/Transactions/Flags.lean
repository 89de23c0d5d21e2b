import RedisCvlr.Model.Nondet
import RedisCvlr.Transactions.Representation

/-!
# The expired-at-WATCH flags

A flag is left on a client that watched an expired key, and the early return of `touchWatchedKey`
fires when a flagged key is touched while present. `FlagsLive` is the invariant that decides whether
this can happen: a flagged key is present and still expired. A configuration in which every write
lookup purges an expired key (`Config.purging`) keeps it, because the purge touches the key while it
is absent, which clears its flags before anything is written. Every touch is then the common form
`notify`, and the early return never runs.

The second half computes the dirty bit of a client after a step exactly.
-/

set_option autoImplicit false
set_option relaxedAutoImplicit false

namespace RedisCvlr.Transactions

open RedisCvlr.Library RedisCvlr.Model RedisCvlr.Watch RedisCvlr.Keyspace

variable {K C : ℕ}

/-! ### Safe edits -/

/-- The touch of the edit cannot return early: the key is absent after the edit, or no client has a
flag on it. -/
def SafeEdit (w : World K C) (edit : Fin K × Edit) : Prop :=
  (edit.2.slot (w.slots edit.1)).present = false ∨
    ∀ c, (w.clients c).watchedExpired edit.1 = false

/-- Every edit of the list is safe when it is applied. -/
def SafeEdits : World K C → List (Fin K × Edit) → Prop
  | _, [] => True
  | w, edit :: rest => SafeEdit w edit ∧ SafeEdits (applyEdit w edit) rest

section Safe

variable {w : World K C} {k : Fin K} {e : Edit}

/-- A safe edit notifies the watchers of its key. -/
theorem applyEdit_of_safe (h : WatchWellFormed w) (hsafe : SafeEdit w (k, e)) :
    applyEdit w (k, e) =
      withUnit (notify (w.setSlot k (e.slot (w.slots k))) k) (w.repl.push (e.effect k))
        (w.dirty + 1) w.nesting := by
  have hsafe' : ((w.setSlot k (e.slot (w.slots k))).slots k).present = false ∨
      ∀ c, ((w.setSlot k (e.slot (w.slots k))).clients c).watchedExpired k = false := by
    rw [World.setSlot]
    simp only [Function.update_self]
    exact hsafe
  rw [applyEdit_eq, touchWatchedKey_eq_notify (setSlot_wellFormed h k _) hsafe']

theorem clients_applyEdit (h : WatchWellFormed w) (hsafe : SafeEdit w (k, e)) (c : Fin C) :
    (applyEdit w (k, e)).clients c =
      if dirties w k c then dirtyBits (w.clients c) else clearBits (w.clients c) k := by
  rw [applyEdit_of_safe h hsafe]
  exact clients_notify (setSlot_wellFormed h k _) k c

theorem earlyReturns_applyEdit (h : WatchWellFormed w) (hsafe : SafeEdit w (k, e)) :
    (applyEdit w (k, e)).earlyReturns = w.earlyReturns := by
  rw [applyEdit_of_safe h hsafe]
  rfl

theorem earlyReturns_applyEdits {edits : List (Fin K × Edit)} (h : WatchWellFormed w)
    (hsafe : SafeEdits w edits) : (applyEdits w edits).earlyReturns = w.earlyReturns := by
  induction edits generalizing w with
  | nil => rfl
  | cons edit rest ih =>
    rw [applyEdits_cons, ih (applyEdit_wellFormed h edit) hsafe.2,
      earlyReturns_applyEdit h hsafe.1]

/-- After a safe edit no flag is left on its key. -/
theorem unflagged_applyEdit (h : WatchWellFormed w) (hsafe : SafeEdit w (k, e)) (c : Fin C) :
    ((applyEdit w (k, e)).clients c).watchedExpired k = false := by
  rw [clients_applyEdit h hsafe]
  split_ifs
  · rfl
  · simp [clearBits]

/-- Deletions are safe. -/
theorem safeEdits_deletes (w : World K C) (ks : List (Fin K)) :
    SafeEdits w (ks.map fun k ↦ (k, .delete)) := by
  induction ks generalizing w with
  | nil => trivial
  | cons k rest ih => exact ⟨.inl rfl, ih _⟩

end Safe

/-! ### Live flags -/

/-- Every flag is on a key that is present and still expired. -/
structure FlagsLive (w : World K C) : Prop where
  wellFormed : WatchWellFormed w
  present : ∀ c k, (w.clients c).watchedExpired k = true → (w.slots k).present = true
  expired : ∀ c k, (w.clients c).watchedExpired k = true → keyIsExpired w k = true

section Live

variable {w : World K C}

theorem safeEdits_opEdits (hlive : FlagsLive w) (hpurging : (config w).purging = true)
    (k : Fin K) (op : KeyOp) : SafeEdits w (opEdits w k op) := by
  rw [opEdits, KeyOp.edits]
  cases hwrite : op.write? (config w) w.clock (w.slots k) with
  | none =>
    split_ifs
    · exact ⟨.inl rfl, trivial⟩
    · trivial
  | some e =>
    rw [KeyOp.writes_of_write? hwrite]
    split_ifs with hpurges
    · exact ⟨.inl rfl, .inr (unflagged_applyEdit hlive.wellFormed (.inl rfl)), trivial⟩
    · -- the key was not purged, so it is not expired and carries no flag
      refine ⟨.inr fun c ↦ ?_, trivial⟩
      rw [← Bool.not_eq_true]
      intro hflag
      have hexpired := hlive.expired c k hflag
      rw [keyIsExpired_eq] at hexpired
      exact hpurges (Config.purges_of_expired hpurging (hlive.present c k hflag) hexpired)

theorem safeEdits_stepEdits (hlive : FlagsLive w) (hpurging : (config w).purging = true)
    (s : Step K C) : SafeEdits w (stepEdits w s) := by
  cases s with
  | clockTick d => trivial
  | activeExpire =>
    rw [stepEdits, activeEdits]
    split_ifs
    · trivial
    · exact safeEdits_deletes w _
  | cmd c command =>
    rw [stepEdits]
    cases keyOp? command with
    | none => trivial
    | some target => exact safeEdits_opEdits hlive hpurging target.1 target.2

/-! ### Preservation -/

theorem FlagsLive.freshUnit (h : FlagsLive w) : FlagsLive (freshUnit w) :=
  ⟨freshUnit_wellFormed h.wellFormed, h.present, h.expired⟩

/-- An edit that leaves no flag on its key keeps the other flags live. -/
theorem FlagsLive.applyEdit (h : FlagsLive w) {edit : Fin K × Edit} (hsafe : SafeEdit w edit) :
    FlagsLive (applyEdit w edit) := by
  obtain ⟨k, e⟩ := edit
  have hkept : ∀ c k', ((Keyspace.applyEdit w (k, e)).clients c).watchedExpired k' = true →
      (w.clients c).watchedExpired k' = true ∧
        (Keyspace.applyEdit w (k, e)).slots k' = w.slots k' := by
    intro c k' hflag
    refine ⟨(applyEdit_weakened h.wellFormed (k, e) c).flag_of k' hflag, ?_⟩
    have hne : k' ≠ k := by
      rintro rfl
      rw [unflagged_applyEdit h.wellFormed hsafe] at hflag
      exact Bool.false_ne_true hflag
    rw [applyEdit_slots, Function.update_of_ne hne]
  refine ⟨applyEdit_wellFormed h.wellFormed _, fun c k' hflag ↦ ?_, fun c k' hflag ↦ ?_⟩
  · obtain ⟨hold, hslot⟩ := hkept c k' hflag
    rw [hslot]
    exact h.present c k' hold
  · obtain ⟨hold, hslot⟩ := hkept c k' hflag
    rw [keyIsExpired_eq, applyEdit_config, applyEdit_clock, hslot, ← keyIsExpired_eq]
    exact h.expired c k' hold

theorem FlagsLive.applyEdits (h : FlagsLive w) {edits : List (Fin K × Edit)}
    (hsafe : SafeEdits w edits) : FlagsLive (applyEdits w edits) := by
  induction edits generalizing w with
  | nil => exact h
  | cons edit rest ih => exact ih (h.applyEdit hsafe.1) hsafe.2

theorem FlagsLive.tick (h : FlagsLive w) {now : Ms} (hle : w.clock ≤ now) :
    FlagsLive { w with clock := now } := by
  refine ⟨wellFormed_of_same h.wellFormed rfl (fun _ ↦ rfl) fun _ _ hflag ↦ hflag, h.present,
    fun c k hflag ↦ ?_⟩
  have hexpired := h.expired c k hflag
  rw [keyIsExpired_eq] at hexpired ⊢
  exact Config.expired_mono hle hexpired

theorem FlagsLive.watchKey (h : FlagsLive w) (client : Fin C) (k : Fin K) :
    FlagsLive (watchKey w client k) := by
  have hwf := watchKey_wellFormed h.wellFormed client k
  cases hwatching : (w.clients client).watching k with
  | true => rwa [Model.watchKey, if_pos hwatching]
  | false =>
    have hflags : ∀ c k', ((Model.watchKey w client k).clients c).watchedExpired k' = true →
        (w.slots k').present = true ∧ keyIsExpired w k' = true := by
      intro c k' hflag
      rw [watchKey_eq h.wellFormed hwatching] at hflag
      by_cases hc : c = client
      · subst hc
        by_cases hk : k' = k
        · subst hk
          simpa [withWatch, watchBits] using hflag
        · have hold : (w.clients c).watchedExpired k' = true := by
            simpa [withWatch, watchBits, hk] using hflag
          exact ⟨h.present c k' hold, h.expired c k' hold⟩
      · have hold : (w.clients c).watchedExpired k' = true := by
          simpa [withWatch, hc] using hflag
        exact ⟨h.present c k' hold, h.expired c k' hold⟩
    refine ⟨hwf, fun c k' hflag ↦ ?_, fun c k' hflag ↦ ?_⟩
    · rw [slots_of_frame (watchKey_frame w client k)]
      exact (hflags c k' hflag).1
    · rw [keyIsExpired_eq, config_of_frame (watchKey_frame w client k),
        clock_of_frame (watchKey_frame w client k), slots_of_frame (watchKey_frame w client k),
        ← keyIsExpired_eq]
      exact (hflags c k' hflag).2

theorem FlagsLive.unwatchAll (h : FlagsLive w) (client : Fin C) :
    FlagsLive (unwatchAll w client) := by
  have hold : ∀ c k, ((Model.unwatchAll w client).clients c).watchedExpired k = true →
      (w.clients c).watchedExpired k = true := by
    intro c k hflag
    rw [clients_unwatchAll h.wellFormed] at hflag
    split_ifs at hflag
    · exact absurd hflag Bool.false_ne_true
    · exact hflag
  refine ⟨unwatchAll_wellFormed h.wellFormed client, fun c k hflag ↦ ?_, fun c k hflag ↦ ?_⟩
  · rw [slots_of_frame (unwatchAll_frame w client)]
    exact h.present c k (hold c k hflag)
  · rw [keyIsExpired_eq, config_of_frame (unwatchAll_frame w client),
      clock_of_frame (unwatchAll_frame w client), slots_of_frame (unwatchAll_frame w client),
      ← keyIsExpired_eq]
    exact h.expired c k (hold c k hflag)

/-- Under a purging configuration every step keeps the flags live. -/
theorem FlagsLive.next (h : FlagsLive w) (hpurging : (config w).purging = true)
    {s : Step K C} (hadmits : Admits w s) : FlagsLive (w.next s) := by
  refine next_rule FlagsLive s (fun d hs ↦ ?_) (fun _ client k _ ↦ ?_) (fun _ client _ ↦ ?_)
    fun _ ↦ ?_
  · subst hs
    refine h.tick ?_
    rw [wrapI64_eq hadmits.2]
    exact le_add_of_nonneg_right hadmits.1
  · exact h.freshUnit.watchKey client k
  · exact h.freshUnit.unwatchAll client
  · exact h.freshUnit.applyEdits (safeEdits_stepEdits h.freshUnit hpurging s)

/-- Under a purging configuration no step returns early from a touch. -/
theorem earlyReturns_next (h : FlagsLive w) (hpurging : (config w).purging = true)
    (s : Step K C) : (w.next s).earlyReturns = w.earlyReturns := by
  refine next_rule (fun w' ↦ w'.earlyReturns = w.earlyReturns) s (fun _ _ ↦ rfl)
    (fun _ client k _ ↦ ?_) (fun _ client _ ↦ ?_) fun _ ↦ ?_
  · rw [Model.watchKey]
    split_ifs <;> rfl
  · rw [unwatchAll_eq h.freshUnit.wellFormed]
    rfl
  · exact earlyReturns_applyEdits h.freshUnit.wellFormed
      (safeEdits_stepEdits h.freshUnit hpurging s)

/-! ### The dirty bit, exactly -/

/-- A client is dirty after safe edits exactly when it was dirty, or one of its keys was edited
while unflagged, or edited twice: the first edit of a flagged key only clears the flag. -/
theorem dirtyCas_applyEdits {edits : List (Fin K × Edit)} (h : WatchWellFormed w)
    (hsafe : SafeEdits w edits) (c : Fin C) :
    ((applyEdits w edits).clients c).dirtyCas = true ↔
      (w.clients c).dirtyCas = true ∨ ∃ k, (w.clients c).watching k = true ∧
        (((w.clients c).watchedExpired k = false ∧ editsOn k edits ≠ []) ∨
          2 ≤ (editsOn k edits).length) := by
  induction edits generalizing w with
  | nil => simp
  | cons edit rest ih =>
    obtain ⟨k, e⟩ := edit
    rw [applyEdits_cons, ih (applyEdit_wellFormed h (k, e)) hsafe.2, clients_applyEdit h hsafe.1]
    cases hdirties : dirties w k c with
    | true =>
      have hbits : (w.clients c).watching k = true ∧ (w.clients c).watchedExpired k = false := by
        simpa [dirties] using hdirties
      refine ⟨fun _ ↦ .inr ⟨k, hbits.1, .inl ⟨hbits.2, ?_⟩⟩, fun _ ↦ .inl rfl⟩
      rw [editsOn_cons_self]
      exact List.cons_ne_nil _ _
    | false =>
      rw [if_neg Bool.false_ne_true]
      refine or_congr Iff.rfl (exists_congr fun k' ↦ and_congr_right fun hwatching ↦ ?_)
      by_cases hk : k' = k
      · -- the client watches the key and was not dirtied, so it had a flag on it
        subst hk
        have hflag : (w.clients c).watchedExpired k' = true := by
          simpa [dirties, show (w.clients c).watching k' = true from hwatching] using hdirties
        have hcleared : (clearBits (w.clients c) k').watchedExpired k' = false := by
          simp [clearBits]
        rw [editsOn_cons_self, hflag, hcleared, List.length_cons, ← List.length_pos_iff]
        simp only [true_and, Bool.true_eq_false, false_and, false_or]
        omega
      · rw [editsOn_cons_of_ne (Ne.symm hk)]
        simp [clearBits, hk]

/-- A step under a purging configuration edits a flagged key not at all, by a purge only, or by a
purge followed by a write of a value. -/
theorem editsOn_of_flagged (hlive : FlagsLive w) (hpurging : (config w).purging = true)
    (s : Step K C) {c : Fin C} {k : Fin K} (hflag : (w.clients c).watchedExpired k = true) :
    editsOn k (stepEdits w s) = [] ∨ editsOn k (stepEdits w s) = [.delete] ∨
      ∃ val expireAt, editsOn k (stepEdits w s) = [.delete, .put val expireAt] := by
  have hpresent := hlive.present c k hflag
  have hexpired := hlive.expired c k hflag
  rw [keyIsExpired_eq] at hexpired
  refine editsOn_rule w (fun edits ↦ edits = [] ∨ edits = [.delete] ∨
    ∃ val expireAt, edits = [.delete, .put val expireAt]) k s (.inl rfl)
    (fun _ _ ↦ .inr (.inl rfl)) fun _ _ op _ _ ↦ ?_
  rw [KeyOp.edits]
  cases hwrite : op.write? (config w) w.clock (w.slots k) with
  | none =>
    split_ifs
    · exact .inr (.inl rfl)
    · exact .inl rfl
  | some e =>
    have hpurges := Config.purges_of_expired hpurging hpresent hexpired
    obtain ⟨val, expireAt, rfl⟩ := KeyOp.put_of_write? hpurges hwrite
    rw [KeyOp.writes_of_write? hwrite, if_pos hpurges]
    exact .inr (.inr ⟨val, expireAt, rfl⟩)

/-- The dirty bit after a step, from the edits of the step. -/
theorem dirtyCas_next (hlive : FlagsLive w) (hpurging : (config w).purging = true) (s : Step K C)
    (c : Fin C) :
    ((w.next s).clients c).dirtyCas = true ↔
      (w.clients c).dirtyCas = true ∨ ∃ k, (w.clients c).watching k = true ∧
        (((w.clients c).watchedExpired k = false ∧ editsOn k (stepEdits w s) ≠ []) ∨
          2 ≤ (editsOn k (stepEdits w s)).length) := by
  refine next_rule (fun w' ↦ (w'.clients c).dirtyCas = true ↔ _) s (fun d hs ↦ ?_)
    (fun _ client k hs ↦ ?_) (fun _ client hs ↦ ?_) fun _ ↦ ?_
  · subst hs
    simp [stepEdits]
  · subst hs
    rw [dirtyCas_watchKey]
    simp [stepEdits, keyOp?]
  · subst hs
    rw [clients_unwatchAll hlive.freshUnit.wellFormed]
    split_ifs <;> simp [stepEdits, keyOp?, forgetBits]
  · exact dirtyCas_applyEdits hlive.freshUnit.wellFormed
      (safeEdits_stepEdits hlive.freshUnit hpurging s) c

end Live

/-! ### Runs -/

section Runs

variable {w : World K C} {schedule : List (Step K C)}

theorem NobodyWatches.flagsLive (h : NobodyWatches w) : FlagsLive w := by
  refine ⟨h.wellFormed, fun c k hflag ↦ ?_, fun c k hflag ↦ ?_⟩ <;>
    · rw [h.flags c k] at hflag
      exact absurd hflag Bool.false_ne_true

/-- Along a run under a purging configuration the flags stay live and no touch returns early. -/
theorem FlagsLive.run (h : FlagsLive w) (hpurging : (config w).purging = true)
    (hruns : Runs w schedule) :
    FlagsLive (runSchedule w schedule) ∧
      (runSchedule w schedule).earlyReturns = w.earlyReturns := by
  have hrun := Machine.run_invariant
    (fun w' : World K C ↦ config w' = config w ∧ FlagsLive w' ∧ w'.earlyReturns = w.earlyReturns)
    (fun w' s hadmits hinv ↦ by
      obtain ⟨hconfig, hlive, hreturns⟩ := hinv
      rw [← hconfig] at hpurging
      exact ⟨(next_config w' s).trans hconfig, hlive.next hpurging hadmits,
        (earlyReturns_next hlive hpurging s).trans hreturns⟩)
    ⟨rfl, h, rfl⟩ hruns
  exact hrun.2

end Runs

end RedisCvlr.Transactions
