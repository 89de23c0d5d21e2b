import RedisCvlr.Transactions.Fence

/-!
# Standalone masters

Most rules pin their drawn world to a standalone master, the configuration of the fence. What a
lookup, a command and the active cycle do to the slots has a simple form there.
-/

set_option autoImplicit false
set_option relaxedAutoImplicit false

namespace RedisCvlr.Specs

open RedisCvlr.Library RedisCvlr.Model RedisCvlr.Watch RedisCvlr.Keyspace
  RedisCvlr.Transactions

variable {K C : ℕ} {w : World K C} {now : Ms} {s : Slot}

theorem expired_standalone (now : Ms) (s : Slot) :
    fenceConfig.expired now s = (s.hasTtl && decide (now > s.expireAt)) := rfl

theorem sees_standalone (now : Ms) (s : Slot) :
    fenceConfig.sees now s = (s.present && !fenceConfig.expired now s) := by
  rw [Config.sees, show fenceConfig.fromMaster = false from rfl, Bool.or_false]

theorem purges_standalone (force : Bool) (now : Ms) (s : Slot) :
    fenceConfig.purges force now s = (s.present && fenceConfig.expired now s) := by
  rw [Config.purges, show fenceConfig.fromMaster = false from rfl]
  simp [fenceConfig]

/-- On a standalone master a lookup finds the slot or leaves none. -/
theorem slotAfterLookup_standalone (hpresent : s.present = false → s = Slot.absent)
    (force : Bool) (now : Ms) : fenceConfig.slotAfterLookup force now s =
      if fenceConfig.sees now s then s else Slot.absent := by
  rw [Config.slotAfterLookup, purges_standalone, sees_standalone]
  cases hs : s.present with
  | false => simp [hpresent hs]
  | true => cases fenceConfig.expired now s <;> rfl

/-- The slots after a command about one key. -/
theorem slots_execCmd (w : World K C) (c : Fin C) {command : Cmd K C} {k : Fin K} {op : KeyOp}
    (hop : keyOp? command = some (k, op)) (j : Fin K) :
    (execCmd w c command).1.slots j =
      if j = k then
        match op.write? (config w) w.clock (w.slots k) with
        | some e => e.slot ((config w).slotAfterLookup op.writes w.clock (w.slots k))
        | none => (config w).slotAfterLookup op.writes w.clock (w.slots k)
      else w.slots j := by
  rw [execCmd_slots, next_slots, stepEdits_of_keyOp w c hop, editsOn_opEdits]
  by_cases hj : j = k
  · subst hj
    rw [if_pos rfl, if_pos rfl]
    exact foldl_edits op
  · rw [if_neg hj, if_neg (Ne.symm hj), List.foldl_nil]

/-- The slots after the active cycle of a standalone master. -/
theorem slots_activeExpireCycle (hconfig : config w = fenceConfig) (k : Fin K) :
    (activeExpireCycle w).slots k = if isDue w k then Slot.absent else w.slots k := by
  have hrole : w.role = .master := congrArg Config.role hconfig
  have hpaused : w.expirePaused = false := congrArg Config.expirePaused hconfig
  rw [activeExpireCycle_eq, applyEdits_slots, editsOn_activeEdits, hrole, hpaused]
  cases isDue w k <;> rfl

end RedisCvlr.Specs
