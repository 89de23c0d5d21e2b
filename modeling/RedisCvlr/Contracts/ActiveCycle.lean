import RedisCvlr.Transactions.Flags

/-!
# The exact effect of the active expire cycle

The cycle deletes the due keys one after the other, and every deletion touches the watchers of its
key, which edits the watcher lists and the flags of keys that the cycle has not visited yet. The
outcome does not depend on that: `clients_deletes` and `watchers_deletes` give the state of every
client and every watcher list after any duplicate-free list of deletions, from the clients at its
start.
-/

set_option autoImplicit false
set_option relaxedAutoImplicit false

namespace RedisCvlr.Contracts

open RedisCvlr.Model RedisCvlr.Watch RedisCvlr.Keyspace RedisCvlr.Transactions

variable {K C : ℕ}

/-! ### Deletions of several keys -/

/-- A client without its expired flags on the listed keys. -/
def clearAllBits (client : ClientState K) (ks : List (Fin K)) : ClientState K :=
  { client with watchedExpired := fun k ↦ !ks.contains k && client.watchedExpired k }

theorem clearAllBits_eq (client : ClientState K) (ks : List (Fin K)) :
    clearAllBits client ks = { client with
      watchedExpired := fun k ↦ if k ∈ ks then false else client.watchedExpired k } := by
  rw [clearAllBits]
  congr 1
  funext k
  by_cases hk : k ∈ ks <;> simp [hk]

/-- The deletion of some listed key invalidates the client: it watches the key without a flag. -/
def dirtiedBy (w : World K C) (ks : List (Fin K)) (c : Fin C) : Bool :=
  ks.any fun k ↦ dirties w k c

section Deletions

variable {w : World K C}

@[simp] theorem dirtiedBy_cons (w : World K C) (k : Fin K) (ks : List (Fin K)) (c : Fin C) :
    dirtiedBy w (k :: ks) c = (dirties w k c || dirtiedBy w ks c) := rfl

/-- A deletion filters the clients it invalidates out of every watcher list. -/
theorem watchers_delete (h : WatchWellFormed w) (k k' : Fin K) :
    (applyEdit w (k, .delete)).watchers k' = (w.watchers k').filter fun c ↦ !dirties w k c := by
  have hslot := setSlot_wellFormed h k Slot.absent
  rw [applyEdit_of_safe h (.inl rfl)]
  exact watchers_invalidate hslot (dirties w k) k'

/-- After a deletion of another key, the watchers of a key are invalidated by its own deletion as
before, unless that deletion has taken their watches. -/
theorem dirties_delete (h : WatchWellFormed w) {k k' : Fin K} (hne : k' ≠ k) (c : Fin C) :
    dirties (applyEdit w (k, .delete)) k' c = (dirties w k' c && !dirties w k c) := by
  rw [dirties, clients_applyEdit h (.inl rfl)]
  split_ifs with hdirties
  · rw [hdirties, Bool.not_true, Bool.and_false]
    rfl
  · rw [Bool.not_eq_true] at hdirties
    rw [hdirties, Bool.not_false, Bool.and_true]
    simp [clearBits, dirties, hne]

/-- What is left to do after the first of several deletions. -/
theorem dirtiedBy_delete (h : WatchWellFormed w) {k : Fin K} {ks : List (Fin K)} (hnotin : k ∉ ks)
    (c : Fin C) :
    dirtiedBy (applyEdit w (k, .delete)) ks c = (dirtiedBy w ks c && !dirties w k c) := by
  induction ks with
  | nil => rfl
  | cons k' rest ih =>
    rw [List.mem_cons, not_or] at hnotin
    rw [dirtiedBy_cons, dirtiedBy_cons, ih hnotin.2, dirties_delete h (Ne.symm hnotin.1),
      Bool.and_or_distrib_right]

/-- Every client after the deletions of a list of keys. -/
theorem clients_deletes (h : WatchWellFormed w) {ks : List (Fin K)} (hnodup : ks.Nodup)
    (c : Fin C) :
    (applyEdits w (ks.map fun k ↦ (k, .delete))).clients c =
      if dirtiedBy w ks c then dirtyBits (w.clients c) else clearAllBits (w.clients c) ks := by
  induction ks generalizing w with
  | nil => simp [dirtiedBy, clearAllBits]
  | cons k rest ih =>
    obtain ⟨hnotin, hrest⟩ := List.nodup_cons.mp hnodup
    rw [List.map_cons, applyEdits_cons, ih (applyEdit_wellFormed h _) hrest,
      dirtiedBy_delete h hnotin, clients_applyEdit h (.inl rfl), dirtiedBy_cons]
    cases hhead : dirties w k c with
    | true => simp [clearAllBits, dirtyBits, forgetBits]
    | false =>
      cases hlater : dirtiedBy w rest c with
      | true => simp [dirtyBits, forgetBits, clearBits]
      | false =>
        simp only [Bool.not_false, Bool.and_true, Bool.or_false, Bool.false_eq_true, if_false,
          clearAllBits, clearBits, ClientState.mk.injEq, true_and, and_true]
        funext k'
        by_cases hk : k' = k <;> simp [hk]

/-- Every watcher list after the deletions of a list of keys. -/
theorem watchers_deletes (h : WatchWellFormed w) {ks : List (Fin K)} (hnodup : ks.Nodup)
    (k : Fin K) :
    (applyEdits w (ks.map fun k ↦ (k, .delete))).watchers k =
      (w.watchers k).filter fun c ↦ !dirtiedBy w ks c := by
  induction ks generalizing w with
  | nil => simp [dirtiedBy]
  | cons k' rest ih =>
    obtain ⟨hnotin, hrest⟩ := List.nodup_cons.mp hnodup
    rw [List.map_cons, applyEdits_cons, ih (applyEdit_wellFormed h _) hrest, watchers_delete h,
      List.filter_filter]
    congr 1
    funext c
    rw [dirtiedBy_delete h hnotin, dirtiedBy_cons]
    cases dirties w k' c <;> simp

end Deletions

/-! ### The cycle -/

/-- The present keys with a time that is not in the future, in increasing order. -/
def dueKeys (w : World K C) : List (Fin K) :=
  (List.finRange K).filter fun k ↦
    (w.slots k).present && (w.slots k).hasTtl && decide ((w.slots k).expireAt ≤ w.clock)

/-- The client watches a due key without an expired flag. -/
def DirtiedByCycle (w : World K C) (c : Fin C) : Prop :=
  ∃ k ∈ dueKeys w, (w.clients c).watching k = true ∧ (w.clients c).watchedExpired k = false

instance (w : World K C) (c : Fin C) : Decidable (DirtiedByCycle w c) :=
  inferInstanceAs (Decidable (∃ k ∈ dueKeys w, _))

/-- What the active expire cycle does when it runs. -/
structure ActiveCycleContract (w after : World K C) : Prop where
  slots_eq : ∀ k, after.slots k = if k ∈ dueKeys w then Slot.absent else w.slots k
  due_sorted : (dueKeys w).Pairwise (· < ·)
  log_eq : after.repl.entries = w.repl.entries ++ (dueKeys w).map .del
  dirtied_eq : ∀ c, DirtiedByCycle w c → after.clients c =
    { w.clients c with
      dirtyCas := true
      watching := fun _ ↦ false
      watchedExpired := fun _ ↦ false }
  spared_eq : ∀ c, ¬DirtiedByCycle w c → after.clients c =
    { w.clients c with
      watchedExpired := fun k ↦ if k ∈ dueKeys w then false else (w.clients c).watchedExpired k }
  watchers_eq : ∀ k, after.watchers k = (w.watchers k).filter fun c ↦ !decide (DirtiedByCycle w c)
  again_eq : activeExpireCycle after = after
  lookups_eq : ∀ k, (lookupKeyRead after k).1 = after ∧ (lookupKeyWrite after k).1 = after

section Cycle

variable {w : World K C}

theorem mem_dueKeys {k : Fin K} : k ∈ dueKeys w ↔ isDue w k = true := by
  rw [isDue_eq]
  exact List.mem_filter.trans (and_iff_right (List.mem_finRange k))

theorem nodup_dueKeys (w : World K C) : (dueKeys w).Nodup := (List.nodup_finRange K).filter _

/-- The edits of a running cycle delete the due keys. -/
theorem activeEdits_eq (hruns : ¬(w.role = .readOnlyReplica ∨ w.expirePaused = true)) :
    activeEdits w = (dueKeys w).map fun k ↦ (k, .delete) := by
  have hon : ¬((w.role == .readOnlyReplica || w.expirePaused) = true) := by simpa using hruns
  have hdue : (List.finRange K).filter (isDue w) = dueKeys w :=
    List.filter_congr fun k _ ↦ isDue_eq w k
  rw [activeEdits, if_neg hon, hdue]

theorem dirtiedBy_dueKeys (w : World K C) (c : Fin C) :
    dirtiedBy w (dueKeys w) c = decide (DirtiedByCycle w c) := by
  rw [Bool.eq_iff_iff, decide_eq_true_iff]
  simp [dirtiedBy, dirties, DirtiedByCycle]

/-- What a lookup deletes is due. -/
theorem isDue_of_purges {force : Bool} {k : Fin K}
    (hpurges : (config w).purges force w.clock (w.slots k) = true) : isDue w k = true := by
  simp only [Config.purges, Config.expired, Bool.and_eq_true, decide_eq_true_eq] at hpurges
  rw [isDue_eq]
  simp [hpurges, le_of_lt hpurges.1.1.1.2.2]

/-- When no key is due, no lookup deletes anything. -/
theorem afterLookup_of_no_due (hnone : ∀ k, isDue w k = false) (k : Fin K) (force : Bool) :
    afterLookup w k force = w := by
  apply if_neg
  intro hpurges
  exact Bool.false_ne_true ((hnone k).symm.trans (isDue_of_purges hpurges))

/-- The active expire cycle does nothing on a replica or while expiry is paused. Otherwise it
deletes exactly the due keys, logs one DEL for each in key order, and invalidates exactly the
clients that watch one of them without an expired flag; every other client keeps its watches and
loses its flags on the deleted keys only. A second cycle at the same clock does nothing, and no
lookup at that clock deletes anything. -/
theorem active_cycle_exact (w : World K C) (h : WatchWellFormed w)
    (hroom : w.repl.len + K ≤ replCap) :
    ((w.role = .readOnlyReplica ∨ w.expirePaused = true) → activeExpireCycle w = w) ∧
      (¬(w.role = .readOnlyReplica ∨ w.expirePaused = true) →
        ActiveCycleContract w (activeExpireCycle w)) := by
  refine ⟨fun hoff ↦ ?_, fun hruns ↦ ?_⟩
  · exact if_pos (by simpa using hoff)
  have hworld : activeExpireCycle w =
      applyEdits w ((dueKeys w).map fun k ↦ (k, .delete)) := by
    rw [activeExpireCycle_eq, activeEdits_eq hruns]
  have hslots : ∀ k, (activeExpireCycle w).slots k =
      if k ∈ dueKeys w then Slot.absent else w.slots k := by
    intro k
    rw [hworld, applyEdits_slots, editsOn_deletes (nodup_dueKeys w)]
    split_ifs <;> rfl
  have hlen : w.repl.len + ((dueKeys w).map fun k ↦ (k, Edit.delete)).length ≤ replCap := by
    rw [List.length_map]
    exact (Nat.add_le_add_left ((List.length_filter_le _ _).trans_eq List.length_finRange) _).trans
      hroom
  -- the cycle leaves no due key behind: a slot it kept was not due, and the clock is the same
  have hnone : ∀ k, isDue (activeExpireCycle w) k = false := by
    intro k
    by_cases hdue : k ∈ dueKeys w
    · rw [isDue, hslots, if_pos hdue]
      rfl
    · have hkept : (activeExpireCycle w).slots k = w.slots k := by rw [hslots, if_neg hdue]
      have hclock : (activeExpireCycle w).clock = w.clock := by rw [hworld, applyEdits_clock]
      rw [isDue_eq, hkept, hclock, ← isDue_eq, ← Bool.not_eq_true]
      exact mt mem_dueKeys.mpr hdue
  constructor
  · exact hslots
  · exact (List.pairwise_lt_finRange K).filter _
  · rw [hworld, (entries_applyEdits w _ hlen).1, List.map_map]
    rfl
  · intro c hdirtied
    rw [hworld, clients_deletes h (nodup_dueKeys w), dirtiedBy_dueKeys, if_pos (by simpa)]
    rfl
  · intro c hspared
    rw [hworld, clients_deletes h (nodup_dueKeys w), dirtiedBy_dueKeys, if_neg (by simpa),
      clearAllBits_eq]
  · intro k
    simp only [hworld, watchers_deletes h (nodup_dueKeys w), dirtiedBy_dueKeys]
  · have hempty : activeEdits (activeExpireCycle w) = [] := by
      rw [activeEdits]
      split_ifs
      · rfl
      · rw [List.filter_eq_nil_iff.mpr fun k _ ↦ by simp [hnone k], List.map_nil]
    rw [activeExpireCycle_eq (activeExpireCycle w), hempty, applyEdits_nil]
  · intro k
    rw [lookupKeyRead_eq, lookupKeyWrite_eq]
    exact ⟨afterLookup_of_no_due hnone k false, afterLookup_of_no_due hnone k true⟩

/-- A key that is due at this instant, watched by one client. -/
theorem active_cycle_exact_watched :
    let w : World keyCount clientCount := runSchedule (World.empty 0)
      [.cmd 1 (.set 0 Str.empty .always (.pxAt 3) false), .cmd 0 (.watch 0 0), .clockTick 3]
    (activeExpireCycle w).slots 0 = Slot.absent ∧
      ((activeExpireCycle w).clients 0).dirtyCas = true ∧
      (activeExpireCycle w).repl.entries = w.repl.entries ++ [.del 0] := by
  intro w
  have hstart : NobodyWatches (World.empty 0 : World keyCount clientCount) :=
    ⟨rfl, fun _ _ ↦ rfl, fun _ _ ↦ rfl⟩
  have hcycle := (active_cycle_exact w (runSchedule_wellFormed hstart.wellFormed _)
    (by decide)).2 (by decide)
  have hdue : dueKeys w = [0] := by decide
  refine ⟨?_, ?_, ?_⟩
  · rw [hcycle.slots_eq, hdue]
    rfl
  · rw [hcycle.dirtied_eq 0 (by decide)]
  · rw [hcycle.log_eq, hdue]
    rfl

end Cycle

end RedisCvlr.Contracts
