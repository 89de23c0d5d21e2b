import RedisCvlr.Keyspace.Times

/-!
# Clocks that a command does not tell apart

A command compares the clock with the time of the slot it looks up and with the time that it asks
for, and PTTL subtracts it. Two worlds that differ in their clocks only, and whose clocks compare
alike with those times, execute a command alike: the slots after it are the same, and so is every
reply but that of PTTL.
-/

set_option autoImplicit false
set_option relaxedAutoImplicit false

namespace RedisCvlr.Keyspace

open RedisCvlr.Library RedisCvlr.Model RedisCvlr.Watch

variable {K C : ℕ}

/-! ### One operation -/

/-- Two clocks that an operation on a slot does not tell apart: the slot, if present, is expired at
both or at neither, and so is the time that the operation asks for. -/
structure KeyOp.SameTime (op : KeyOp) (cfg : Config) (now now' : Ms) (s : Slot) : Prop where
  expired_eq : s.present = true → cfg.expired now' s = cfg.expired now s
  elapsed_eq : ∀ time ∈ op.time?, KeyOp.elapsed cfg now' time = KeyOp.elapsed cfg now time

section Operation

variable {op : KeyOp} {cfg : Config} {now now' : Ms} {s : Slot}

theorem Config.sees_congr (hexpired : s.present = true → cfg.expired now' s = cfg.expired now s) :
    cfg.sees now' s = cfg.sees now s := by
  rw [Config.sees, Config.sees]
  cases hpresent : s.present with
  | false => rfl
  | true => rw [hexpired hpresent]

theorem Config.purges_congr (force : Bool)
    (hexpired : s.present = true → cfg.expired now' s = cfg.expired now s) :
    cfg.purges force now' s = cfg.purges force now s := by
  rw [Config.purges, Config.purges]
  cases hpresent : s.present with
  | false => rfl
  | true => rw [hexpired hpresent]

theorem KeyOp.SameTime.edits_eq (h : op.SameTime cfg now now' s) :
    op.edits cfg now' s = op.edits cfg now s := by
  have hsees := Config.sees_congr h.expired_eq
  have hwrite : op.write? cfg now' s = op.write? cfg now s := by
    cases op with
    | set val cond ttl getOld =>
      have httl : KeyOp.ttlElapsed cfg now' ttl = KeyOp.ttlElapsed cfg now ttl := by
        cases ttl with
        | none => rfl
        | keep => rfl
        | pxAt time => exact h.elapsed_eq time rfl
      simp only [KeyOp.write?, hsees, httl, Config.purges_congr true h.expired_eq]
    | expire time cond => simp only [KeyOp.write?, hsees, h.elapsed_eq time rfl]
    | del => simp only [KeyOp.write?, hsees]
    | persist => simp only [KeyOp.write?, hsees]
    | get => rfl
    | existsKey => rfl
    | type => rfl
    | pttl => rfl
  rw [KeyOp.edits, KeyOp.edits, hwrite, Config.purges_congr _ h.expired_eq]

/-- Only PTTL replies with a difference from the clock. -/
theorem KeyOp.SameTime.reply_eq (h : op.SameTime cfg now now' s) (hop : op ≠ .pttl) :
    (op.reply cfg now' s : Reply K) = op.reply cfg now s := by
  have hsees := Config.sees_congr h.expired_eq
  cases op with
  | pttl => exact absurd rfl hop
  | set val cond ttl getOld => simp only [KeyOp.reply, hsees]
  | expire time cond => simp only [KeyOp.reply, hsees]
  | del => simp only [KeyOp.reply, hsees]
  | persist => simp only [KeyOp.reply, hsees]
  | get => simp only [KeyOp.reply, hsees]
  | existsKey => simp only [KeyOp.reply, hsees]
  | type => simp only [KeyOp.reply, hsees]

end Operation

/-! ### One command -/

theorem eq_pttl_of_keyOp {command : Cmd K C} {k : Fin K} (hop : keyOp? command = some (k, .pttl)) :
    command = .pttl k := by
  cases command <;> simp only [keyOp?, Option.some.injEq, Prod.mk.injEq, reduceCtorEq, and_false,
    and_true] at hop
  rw [hop]

/-- Two worlds with the same slots and configuration whose clocks no slot tells apart. -/
structure SameButClock (w w' : World K C) : Prop where
  slots_eq : w'.slots = w.slots
  config_eq : config w' = config w
  expired_eq : ∀ k, (w.slots k).present = true →
    (config w).expired w'.clock (w.slots k) = (config w).expired w.clock (w.slots k)

/-- The clocks of two worlds compare alike with the time that a command asks for. -/
def SameRequest (w w' : World K C) (c : Fin C) (command : Cmd K C) : Prop :=
  ∀ target ∈ requestedTime? (.cmd c command),
    KeyOp.elapsed (config w) w'.clock target.2 = KeyOp.elapsed (config w) w.clock target.2

section Command

variable {w w' : World K C} {c : Fin C} {command : Cmd K C}

theorem SameButClock.sameTime (h : SameButClock w w') (hrequest : SameRequest w w' c command)
    {k : Fin K} {op : KeyOp} (hop : keyOp? command = some (k, op)) :
    op.SameTime (config w) w.clock w'.clock (w.slots k) where
  expired_eq := h.expired_eq k
  elapsed_eq time htime := by
    refine hrequest (k, time) ?_
    rw [requestedTime?, hop]
    exact Option.mem_map_of_mem _ htime

theorem SameButClock.slots_execCmd (h : SameButClock w w') (hrequest : SameRequest w w' c command) :
    (execCmd w' c command).1.slots = (execCmd w c command).1.slots := by
  funext k
  rw [execCmd_slots, execCmd_slots, next_slots, next_slots, h.slots_eq]
  cases hop : keyOp? command with
  | none => rw [stepEdits_of_keyless w' c hop, stepEdits_of_keyless w c hop]
  | some target =>
    obtain ⟨k', op⟩ := target
    rw [stepEdits_of_keyOp w' c hop, stepEdits_of_keyOp w c hop, opEdits, opEdits, h.config_eq,
      h.slots_eq, (h.sameTime hrequest hop).edits_eq]

/-- A reply other than that of PTTL is the same. -/
theorem SameButClock.reply_execCmd (h : SameButClock w w') (hrequest : SameRequest w w' c command)
    (hpttl : ∀ k, command ≠ .pttl k) : (execCmd w' c command).2 = (execCmd w c command).2 := by
  cases hop : keyOp? command with
  | some target =>
    obtain ⟨k, op⟩ := target
    have hne : op ≠ .pttl := by
      rintro rfl
      exact hpttl k (eq_pttl_of_keyOp hop)
    rw [execCmd_eq_outcome w' c hop, execCmd_eq_outcome w c hop, h.config_eq, h.slots_eq]
    exact (h.sameTime hrequest hop).reply_eq hne
  | none =>
    obtain rfl | rfl | ⟨client, k, rfl⟩ | ⟨client, rfl⟩ := of_keyOp_eq_none hop
    · refine congrArg Reply.keySet (funext fun k ↦ ?_)
      rw [keyIsExpired_eq, keyIsExpired_eq, h.config_eq, h.slots_eq]
      cases hpresent : (w.slots k).present with
      | false => rfl
      | true => rw [h.expired_eq k hpresent]
    · show cmdDbsize w' = cmdDbsize w
      rw [cmdDbsize_eq, cmdDbsize_eq, h.slots_eq]
    · rfl
    · rfl

end Command

end RedisCvlr.Keyspace
