import Mathlib.Order.WithBot
import RedisCvlr.Keyspace.Steps

/-!
# The contracts of SET and EXPIRE

Both commands look their key up, test a condition against what the caller sees, treat a time that
has already elapsed as a deletion, and write otherwise. `SetContract` and `ExpireContract` say what
comes out in every configuration, in terms of the state before the command only: the reply, the slot
of the key, the other slots and the growth of the log.
-/

set_option autoImplicit false
set_option relaxedAutoImplicit false

namespace RedisCvlr.Contracts

open RedisCvlr.Model RedisCvlr.Watch RedisCvlr.Keyspace

variable {K C : ℕ}

/-! ### What the caller sees -/

/-- The key is there for the caller: it is present, and either its time has not passed or the caller
is the replication link of a replica or of a cluster node. -/
def visible (w : World K C) (k : Fin K) : Bool :=
  (w.slots k).present && (!keyIsExpired w k ||
    w.caller == .masterLink && (w.role == .readOnlyReplica || w.clusterEnabled))

/-- The write lookup of a command deletes the key: it is present but not there for the caller, and
expiry is not paused. -/
def deletedByLookup (w : World K C) (k : Fin K) : Bool :=
  (w.slots k).present && !visible w k && !w.expirePaused

section Lookup

variable (w : World K C) (k : Fin K)

theorem visible_eq : visible w k = (config w).sees w.clock (w.slots k) := by
  rw [visible, keyIsExpired_eq, Bool.and_comm (w.caller == .masterLink)]
  rfl

theorem present_of_visible {w : World K C} {k : Fin K} (hvis : visible w k = true) :
    (w.slots k).present = true :=
  (Bool.and_eq_true_iff.mp hvis).1

theorem deletedByLookup_eq :
    deletedByLookup w k = (config w).purges true w.clock (w.slots k) := by
  rw [deletedByLookup, visible_eq, Config.sees, Config.purges]
  cases (w.slots k).present <;> cases (config w).expired w.clock (w.slots k) <;>
    cases (config w).fromMaster <;> rfl

/-- The slot of the key as a write lookup leaves it. -/
theorem slotAfterLookup_eq :
    (config w).slotAfterLookup true w.clock (w.slots k) =
      if deletedByLookup w k then Slot.absent else w.slots k := by
  rw [deletedByLookup_eq]
  rfl

end Lookup

/-! ### Commands about one key -/

section OneKey

variable (w : World K C) (c : Fin C) {command : Cmd K C} {k : Fin K} {op : KeyOp}

/-- The slot of its key after a command. -/
theorem slot_execCmd (hop : keyOp? command = some (k, op)) :
    (execCmd w c command).1.slots k =
      match op.write? (config w) w.clock (w.slots k) with
      | some e => e.slot ((config w).slotAfterLookup op.writes w.clock (w.slots k))
      | none => (config w).slotAfterLookup op.writes w.clock (w.slots k) := by
  rw [execCmd_eq_outcome w c hop, applyEdits_slots, opEdits, editsOn_map, if_pos rfl]
  exact foldl_edits op

/-- A command changes no other slot. -/
theorem slot_execCmd_of_ne (hop : keyOp? command = some (k, op)) {k' : Fin K} (hne : k' ≠ k) :
    (execCmd w c command).1.slots k' = w.slots k' := by
  rw [execCmd_eq_outcome w c hop, applyEdits_slots, opEdits, editsOn_map, if_neg hne.symm]
  rfl

/-- The log after a command: the deletion by its lookups, then its write. -/
theorem entries_execCmd (hop : keyOp? command = some (k, op)) (hroom : w.repl.len + 2 ≤ replCap) :
    (execCmd w c command).1.repl.entries =
      w.repl.entries ++ (op.edits (config w) w.clock (w.slots k)).map (Edit.effect k) := by
  have hfits := (Nat.add_le_add_left (length_opEdits_le w k op) w.repl.len).trans hroom
  rw [execCmd_eq_outcome w c hop, (entries_applyEdits w (opEdits w k op) hfits).1, opEdits,
    List.map_map]
  rfl

end OneKey

/-! ### SET -/

/-- The condition of a SET against what the caller sees. -/
def SetHolds (cond : SetCond) (vis : Bool) : Prop :=
  cond = .always ∨ (cond = .nx ∧ vis = false) ∨ (cond = .xx ∧ vis = true)

/-- The TTL argument of a SET is a time that has elapsed on a master. -/
def SetElapses (w : World K C) (ttl : TtlArg) : Prop :=
  ∃ time, ttl = .pxAt time ∧ w.role = .master ∧ time ≤ w.clock

/-- The expire time that a SET asks for: none, the old one if the caller sees the key, or the
given one. -/
def requestedExpire (ttl : TtlArg) (vis : Bool) (old : Ms) : Ms :=
  match ttl with
  | .none => noExpire
  | .keep => if vis then old else noExpire
  | .pxAt time => time

/-- What a SET does. -/
structure SetContract (w : World K C) (k : Fin K) (val : Str) (cond : SetCond) (ttl : TtlArg)
    (get : Bool) (after : World K C × Reply K) : Prop where
  reply_old : get = true → visible w k = true →
    ∀ s, (w.slots k).value = .str s → after.2 = .str s
  reply_missing : get = true → visible w k = false → after.2 = .nil
  reply_ok : get = false → SetHolds cond (visible w k) → after.2 = .ok
  reply_refused : get = false → ¬SetHolds cond (visible w k) → after.2 = .nil
  slot_refused : ¬SetHolds cond (visible w k) →
    after.1.slots k = if deletedByLookup w k then Slot.absent else w.slots k
  slot_elapsed : SetHolds cond (visible w k) → SetElapses w ttl →
    (after.1.slots k).present = false ∧
      after.1.slots k = if (w.slots k).present then Slot.absent else w.slots k
  slot_stored : SetHolds cond (visible w k) → ¬SetElapses w ttl →
    after.1.slots k = ⟨true, .str val, requestedExpire ttl (visible w k) (w.slots k).expireAt⟩
  slot_others : ∀ k', k' ≠ k → after.1.slots k' = w.slots k'
  log_refused : ¬SetHolds cond (visible w k) →
    after.1.repl.entries = w.repl.entries ++ if deletedByLookup w k then [.del k] else []
  log_elapsed : SetHolds cond (visible w k) → SetElapses w ttl →
    after.1.repl.entries = w.repl.entries ++ if (w.slots k).present then [.del k] else []
  log_stored : SetHolds cond (visible w k) → ¬SetElapses w ttl →
    after.1.repl.entries = w.repl.entries ++ (if deletedByLookup w k then [.del k] else []) ++
      [.set k val (requestedExpire ttl (visible w k) (w.slots k).expireAt)]

section Set

variable {w : World K C} {k : Fin K}

theorem setAllowed_iff (cond : SetCond) (vis : Bool) :
    setAllowed cond vis = true ↔ SetHolds cond vis := by
  cases cond <;> cases vis <;> simp [setAllowed, SetHolds]

theorem ttlElapsed_iff (w : World K C) (ttl : TtlArg) :
    KeyOp.ttlElapsed (config w) w.clock ttl = true ↔ SetElapses w ttl := by
  cases ttl <;> simp [KeyOp.ttlElapsed, KeyOp.elapsed, SetElapses, and_comm]

theorem requestedExpire_eq (ttl : TtlArg) (vis : Bool) (old : Ms) :
    requestedExpire ttl vis old = installedExpire ttl vis old := by
  cases ttl <;> rfl

/-- The write of a SET whose condition fails. -/
theorem set_write_refused {val : Str} {cond : SetCond} {ttl : TtlArg} {get : Bool}
    (hrefused : ¬SetHolds cond (visible w k)) :
    (KeyOp.set val cond ttl get).write? (config w) w.clock (w.slots k) = none := by
  rw [← setAllowed_iff, visible_eq] at hrefused
  exact if_neg hrefused

/-- The write of a SET with an elapsed time: the key is deleted unless a lookup has done it. -/
theorem set_write_elapsed {val : Str} {cond : SetCond} {ttl : TtlArg} {get : Bool}
    (hholds : SetHolds cond (visible w k)) (helapses : SetElapses w ttl) :
    (KeyOp.set val cond ttl get).write? (config w) w.clock (w.slots k) =
      if (w.slots k).present && !deletedByLookup w k then some .delete else none := by
  rw [← setAllowed_iff, visible_eq] at hholds
  rw [← ttlElapsed_iff] at helapses
  rw [KeyOp.write?, if_pos hholds, if_pos helapses, deletedByLookup_eq]

/-- The write of a SET that stores its value. -/
theorem set_write_stored {val : Str} {cond : SetCond} {ttl : TtlArg} {get : Bool}
    (hholds : SetHolds cond (visible w k)) (helapses : ¬SetElapses w ttl) :
    (KeyOp.set val cond ttl get).write? (config w) w.clock (w.slots k) =
      some (.put val (requestedExpire ttl (visible w k) (w.slots k).expireAt)) := by
  rw [← setAllowed_iff, visible_eq] at hholds
  rw [← ttlElapsed_iff] at helapses
  rw [KeyOp.write?, if_pos hholds, if_neg helapses, requestedExpire_eq, visible_eq]

/-- Every SET meets its contract, in every configuration. -/
theorem set_contract (w : World K C) (c : Fin C) (k : Fin K) (val : Str) (cond : SetCond)
    (ttl : TtlArg) (get : Bool) (hroom : w.repl.len + 2 ≤ replCap) :
    SetContract w k val cond ttl get (execCmd w c (.set k val cond ttl get)) := by
  have hop : keyOp? (.set k val cond ttl get : Cmd K C) = some (k, .set val cond ttl get) := rfl
  have hreply : (execCmd w c (.set k val cond ttl get)).2 =
      (KeyOp.set val cond ttl get).reply (config w) w.clock (w.slots k) := by
    rw [execCmd_eq_outcome w c hop]
  have hslot := slot_execCmd w c hop
  have hlog := entries_execCmd w c hop hroom
  rw [KeyOp.edits, KeyOp.writes, ← deletedByLookup_eq] at hlog
  rw [KeyOp.writes, slotAfterLookup_eq] at hslot
  simp only [KeyOp.reply, ← visible_eq] at hreply
  constructor
  · intro hget hvis s hvalue
    rw [hreply, if_pos hget, if_pos hvis, hvalue]
    rfl
  · intro hget hvis
    rw [hreply, if_pos hget, hvis, if_neg Bool.false_ne_true]
    rfl
  · intro hget hholds
    rw [← setAllowed_iff] at hholds
    rw [hreply, hget, if_neg Bool.false_ne_true, if_pos hholds]
  · intro hget hrefused
    rw [← setAllowed_iff] at hrefused
    rw [hreply, hget, if_neg Bool.false_ne_true, if_neg hrefused]
  · intro hrefused
    rw [hslot, set_write_refused hrefused]
  · intro hholds helapses
    rw [hslot, set_write_elapsed hholds helapses]
    cases hpresent : (w.slots k).present <;> cases hdeleted : deletedByLookup w k <;>
      simp_all [deletedByLookup, Edit.slot, Slot.absent]
  · intro hholds helapses
    rw [hslot, set_write_stored hholds helapses]
    rfl
  · intro k' hne
    exact slot_execCmd_of_ne w c hop hne
  · intro hrefused
    rw [hlog, set_write_refused hrefused]
    cases deletedByLookup w k <;> rfl
  · intro hholds helapses
    rw [hlog, set_write_elapsed hholds helapses]
    cases hpresent : (w.slots k).present <;> cases hdeleted : deletedByLookup w k <;>
      simp_all [deletedByLookup, Edit.effect]
  · intro hholds helapses
    rw [hlog, set_write_stored hholds helapses]
    cases deletedByLookup w k <;> simp [Edit.effect]

/-- On a paused master a SET with NX and an elapsed time deletes the expired key that its lookup
spared, and the old value is not in the reply. -/
theorem set_contract_paused :
    let w : World keyCount clientCount :=
      { (World.empty 5).setSlot 0 ⟨true, .str Str.empty, 3⟩ with expirePaused := true }
    ((execCmd w 0 (.set 0 Str.empty .nx (.pxAt 4) true)).1.slots 0).present = false ∧
      (execCmd w 0 (.set 0 Str.empty .nx (.pxAt 4) true)).1.repl.entries = [.del 0] ∧
      (execCmd w 0 (.set 0 Str.empty .nx (.pxAt 4) true)).2 = .nil := by
  intro w
  have hcontract := set_contract w 0 0 Str.empty .nx (.pxAt 4) true (by decide)
  have hholds : SetHolds .nx (visible w 0) := .inr (.inl ⟨rfl, by decide⟩)
  have helapses : SetElapses w (.pxAt 4) := ⟨4, rfl, rfl, by decide⟩
  exact ⟨(hcontract.slot_elapsed hholds helapses).1, hcontract.log_elapsed hholds helapses,
    hcontract.reply_missing rfl (by decide)⟩

end Set

/-! ### EXPIRE -/

/-- The current expire time of a slot, where no TTL counts as infinite. -/
def currentExpire (s : Slot) : WithTop ℤ := if s.expireAt = noExpire then ⊤ else (s.expireAt : ℤ)

/-- The condition of an EXPIRE against the current expire time. Infinity is above every time. -/
def ExpireHolds (cond : ExpireCond) (current : WithTop ℤ) (time : Ms) : Prop :=
  match cond with
  | .none => True
  | .nx => current = ⊤
  | .xx => current ≠ ⊤
  | .gt => ∃ finite : ℤ, current = WithTop.some finite ∧ finite < time
  | .lt => ∀ finite : ℤ, current = WithTop.some finite → time < finite

/-- What an EXPIRE does. -/
structure ExpireContract (w : World K C) (k : Fin K) (time : Ms) (cond : ExpireCond)
    (after : World K C × Reply K) : Prop where
  reply_one : after.2 = .int 1 ↔
    visible w k = true ∧ ExpireHolds cond (currentExpire (w.slots k)) time
  reply_zero : ¬(visible w k = true ∧ ExpireHolds cond (currentExpire (w.slots k)) time) →
    after.2 = .int 0
  world_refused : visible w k = true → ¬ExpireHolds cond (currentExpire (w.slots k)) time →
    after.1 = w
  slot_missing : visible w k = false →
    after.1.slots k = if deletedByLookup w k then Slot.absent else w.slots k
  slot_elapsed : after.2 = .int 1 → w.role = .master → time ≤ w.clock →
    after.1.slots k = Slot.absent
  slot_retimed : after.2 = .int 1 → ¬(w.role = .master ∧ time ≤ w.clock) →
    after.1.slots k = { w.slots k with expireAt := time }
  slot_others : ∀ k', k' ≠ k → after.1.slots k' = w.slots k'
  log_missing : visible w k = false →
    after.1.repl.entries = w.repl.entries ++ if deletedByLookup w k then [.del k] else []
  log_elapsed : after.2 = .int 1 → w.role = .master → time ≤ w.clock →
    after.1.repl.entries = w.repl.entries ++ [.del k]
  log_retimed : after.2 = .int 1 → ¬(w.role = .master ∧ time ≤ w.clock) →
    after.1.repl.entries = w.repl.entries ++ [.pExpireAt k time]

section Expire

variable {w : World K C} {k : Fin K}

theorem expireCondFails_iff (cond : ExpireCond) (s : Slot) (time : Ms) :
    expireCondFails cond s.expireAt time = false ↔ ExpireHolds cond (currentExpire s) time := by
  unfold currentExpire
  by_cases hnone : s.expireAt = noExpire <;>
    cases cond <;> simp [expireCondFails, ExpireHolds, hnone]

theorem elapsed_iff (w : World K C) (time : Ms) :
    KeyOp.elapsed (config w) w.clock time = true ↔ w.role = .master ∧ time ≤ w.clock := by
  simp [KeyOp.elapsed, and_comm]

/-- The caller sees the key and the condition holds, as the code tests it. -/
theorem expire_allowed_iff (cond : ExpireCond) (time : Ms) :
    ((config w).sees w.clock (w.slots k) && !expireCondFails cond (w.slots k).expireAt time) =
        true ↔
      visible w k = true ∧ ExpireHolds cond (currentExpire (w.slots k)) time := by
  rw [Bool.and_eq_true, Bool.not_eq_true', expireCondFails_iff, visible_eq]

/-- An EXPIRE that is refused writes nothing. -/
theorem expire_write_refused {time : Ms} {cond : ExpireCond}
    (hrefused : ¬(visible w k = true ∧ ExpireHolds cond (currentExpire (w.slots k)) time)) :
    (KeyOp.expire time cond).write? (config w) w.clock (w.slots k) = none := by
  rw [← expire_allowed_iff] at hrefused
  exact if_neg hrefused

/-- An EXPIRE that is allowed deletes the key or changes its time. -/
theorem expire_write_allowed {time : Ms} {cond : ExpireCond}
    (hallowed : visible w k = true ∧ ExpireHolds cond (currentExpire (w.slots k)) time) :
    (KeyOp.expire time cond).write? (config w) w.clock (w.slots k) =
      some (if KeyOp.elapsed (config w) w.clock time then .delete else .retime time) := by
  rw [← expire_allowed_iff] at hallowed
  rw [KeyOp.write?, if_pos hallowed]
  split_ifs <;> rfl

theorem deletedByLookup_of_visible (hvis : visible w k = true) : deletedByLookup w k = false := by
  rw [deletedByLookup, hvis, Bool.not_true, Bool.and_false, Bool.false_and]

/-- Every EXPIRE meets its contract, in every configuration, for past and future times. -/
theorem expire_contract (w : World K C) (c : Fin C) (k : Fin K) (time : Ms) (cond : ExpireCond)
    (hroom : w.repl.len + 2 ≤ replCap) :
    ExpireContract w k time cond (execCmd w c (.expire k time cond)) := by
  have hop : keyOp? (.expire k time cond : Cmd K C) = some (k, .expire time cond) := rfl
  have hexec := execCmd_eq_outcome w c hop
  have hreply : (execCmd w c (.expire k time cond)).2 =
      (KeyOp.expire time cond).reply (config w) w.clock (w.slots k) := by
    rw [hexec]
  rw [KeyOp.reply] at hreply
  have hzero : ¬(visible w k = true ∧ ExpireHolds cond (currentExpire (w.slots k)) time) →
      (execCmd w c (.expire k time cond)).2 = .int 0 := by
    intro hrefused
    rw [hreply, if_neg (mt (expire_allowed_iff cond time).mp hrefused)]
  have hone : (execCmd w c (.expire k time cond)).2 = .int 1 ↔
      visible w k = true ∧ ExpireHolds cond (currentExpire (w.slots k)) time := by
    constructor
    · intro hreplied
      by_contra hrefused
      rw [hzero hrefused] at hreplied
      exact absurd (Reply.int.inj hreplied) zero_ne_one
    · intro hallowed
      rw [hreply, if_pos ((expire_allowed_iff cond time).mpr hallowed)]
  have hslot := slot_execCmd w c hop
  have hlog := entries_execCmd w c hop hroom
  rw [KeyOp.edits, KeyOp.writes, ← deletedByLookup_eq] at hlog
  rw [KeyOp.writes, slotAfterLookup_eq] at hslot
  constructor
  · exact hone
  · exact hzero
  · intro hvis hfails
    rw [hexec]
    simp only
    rw [opEdits, KeyOp.edits, expire_write_refused fun hallowed ↦ hfails hallowed.2,
      KeyOp.writes, ← deletedByLookup_eq, deletedByLookup_of_visible hvis]
    rfl
  · intro hmissing
    rw [hslot, expire_write_refused (by simp [hmissing])]
  · intro hreplied hmaster hpast
    rw [hslot, expire_write_allowed (hone.mp hreplied),
      if_pos ((elapsed_iff w time).mpr ⟨hmaster, hpast⟩)]
    rfl
  · intro hreplied hfuture
    rw [← elapsed_iff] at hfuture
    rw [hslot, expire_write_allowed (hone.mp hreplied), if_neg hfuture,
      deletedByLookup_of_visible (hone.mp hreplied).1]
    rfl
  · intro k' hne
    exact slot_execCmd_of_ne w c hop hne
  · intro hmissing
    rw [hlog, expire_write_refused (by simp [hmissing])]
    cases deletedByLookup w k <;> rfl
  · intro hreplied hmaster hpast
    rw [hlog, expire_write_allowed (hone.mp hreplied),
      if_pos ((elapsed_iff w time).mpr ⟨hmaster, hpast⟩),
      deletedByLookup_of_visible (hone.mp hreplied).1]
    rfl
  · intro hreplied hfuture
    rw [← elapsed_iff] at hfuture
    rw [hlog, expire_write_allowed (hone.mp hreplied), if_neg hfuture,
      deletedByLookup_of_visible (hone.mp hreplied).1]
    rfl

/-- A past time leaves a live key alone under GT, whose condition fails, and deletes it under LT. -/
theorem expire_contract_past :
    let w : World keyCount clientCount := (World.empty 5).setSlot 0 ⟨true, .str Str.empty, 6⟩
    (execCmd w 0 (.expire 0 4 .gt)).1 = w ∧
      (execCmd w 0 (.expire 0 4 .lt)).1.slots 0 = Slot.absent ∧
      (execCmd w 0 (.expire 0 4 .lt)).1.repl.entries = [.del 0] := by
  intro w
  have hcurrent : currentExpire (w.slots 0) = ((6 : ℤ) : WithTop ℤ) := if_neg (by decide)
  have hgt := expire_contract w 0 0 4 .gt (by decide)
  have hlt := expire_contract w 0 0 4 .lt (by decide)
  have hbelow : ExpireHolds .lt (currentExpire (w.slots 0)) 4 := by
    rw [hcurrent]
    intro finite hfinite
    obtain rfl := WithTop.coe_injective hfinite
    decide
  have hone := hlt.reply_one.mpr ⟨by decide, hbelow⟩
  refine ⟨hgt.world_refused (by decide) ?_, hlt.slot_elapsed hone rfl (by decide),
    hlt.log_elapsed hone rfl (by decide)⟩
  rw [hcurrent]
  rintro ⟨finite, hfinite, habove⟩
  obtain rfl := WithTop.coe_injective hfinite
  exact absurd habove (by decide)

end Expire

end RedisCvlr.Contracts
