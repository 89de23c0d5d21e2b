import RedisCvlr.Keyspace.Clocks
import RedisCvlr.Keyspace.Mapping
import RedisCvlr.Library.Stutter

/-!
# Moving the clock

Expire times are absolute, and the sentinel `NO_EXPIRE` is a time like any other. Moving the clock
and every other time by the same amount changes no reply and moves every time that is stored or
propagated, as long as no time is negative before or after the move and no clock wraps: what a run
does depends on differences of times only.

`shift` is the move on each kind of data. Each definition that reads a time is followed through the
move (`KeyOp.edits_shift`, `KeyOp.reply_shift`), then a step (`next_shift`), and `run_shifted`
follows whole runs.
-/

set_option autoImplicit false
set_option relaxedAutoImplicit false

namespace RedisCvlr.Keyspace

open RedisCvlr.Library RedisCvlr.Model RedisCvlr.Watch

variable {K C : ℕ}

/-! ### The move -/

/-- A time after the move; no time stays no time. -/
def shiftMs (d time : Ms) : Ms := if time = noExpire then noExpire else time + d

/-- A slot after the move. -/
def Slot.shift (d : Ms) (s : Slot) : Slot := { s with expireAt := shiftMs d s.expireAt }

/-- An edit after the move. -/
def Edit.shift (d : Ms) : Edit → Edit
  | .delete => .delete
  | .put val expireAt => .put val (shiftMs d expireAt)
  | .retime time => .retime (shiftMs d time)
  | .persist => .persist

/-- A TTL argument after the move. -/
def shiftTtl (d : Ms) : TtlArg → TtlArg
  | .none => .none
  | .keep => .keep
  | .pxAt time => .pxAt (shiftMs d time)

/-- An operation after the move. -/
def KeyOp.shift (d : Ms) : KeyOp → KeyOp
  | .set val cond ttl getOld => .set val cond (shiftTtl d ttl) getOld
  | .expire time cond => .expire (shiftMs d time) cond
  | op => op

/-- A command after the move. -/
def shiftCmd (d : Ms) : Cmd K C → Cmd K C
  | .set key val cond ttl get => .set key val cond (shiftTtl d ttl) get
  | .expire key time cond => .expire key (shiftMs d time) cond
  | command => command

/-- A step after the move; the length of a tick is not a time. -/
def shiftStep (d : Ms) : Step K C → Step K C
  | .cmd c command => .cmd c (shiftCmd d command)
  | .activeExpire => .activeExpire
  | .clockTick t => .clockTick t

/-- An effect after the move. -/
def shiftEffect (d : Ms) : Effect K → Effect K
  | .set key val pxat => .set key val (shiftMs d pxat)
  | .pExpireAt key time => .pExpireAt key (shiftMs d time)
  | effect => effect

/-- What a step shows after the move. -/
def shiftOutput (d : Ms) (output : Option (Reply K) × List (Effect K)) :
    Option (Reply K) × List (Effect K) :=
  (output.1, output.2.map (shiftEffect d))

/-- A world after the move. -/
def shiftWorld (d : Ms) (w : World K C) : World K C :=
  { w with
    slots := fun k ↦ Slot.shift d (w.slots k)
    clock := w.clock + d
    repl := ⟨fun i ↦ (w.repl.ops i).map (shiftEffect d), w.repl.len⟩ }

/-- A time that is not negative before or after the move. -/
def Movable (d time : Ms) : Prop := 0 ≤ time ∧ 0 ≤ time + d

instance (d time : Ms) : Decidable (Movable d time) := inferInstanceAs (Decidable (_ ∧ _))

/-- What a slot carries is no time, or a time that can be moved. -/
def MovableSlot (d : Ms) (s : Slot) : Prop := s.expireAt = noExpire ∨ Movable d s.expireAt

section Times

variable {d time time' now : Ms}

theorem shiftMs_of_movable (h : Movable d time) : shiftMs d time = time + d := by
  apply if_neg
  rintro rfl
  exact absurd h.1 (by decide)

@[simp] theorem shiftMs_noExpire : shiftMs d noExpire = noExpire := if_pos rfl

/-- A moved time is the sentinel only if it was. -/
theorem shiftMs_eq_noExpire (h : time = noExpire ∨ Movable d time) :
    shiftMs d time = noExpire ↔ time = noExpire := by
  rcases h with rfl | hmovable
  · exact iff_of_true shiftMs_noExpire rfl
  · rw [shiftMs_of_movable hmovable]
    refine iff_of_false ?_ ?_
    · intro heq
      exact absurd (heq ▸ hmovable.2) (by decide)
    · rintro rfl
      exact absurd hmovable.1 (by decide)

theorem shiftMs_le_iff (h : Movable d time) : shiftMs d time ≤ now + d ↔ time ≤ now := by
  rw [shiftMs_of_movable h, Int.add_le_add_iff_right]

theorem lt_shiftMs_iff (h : Movable d time) : shiftMs d time < now + d ↔ time < now := by
  rw [shiftMs_of_movable h, Int.add_lt_add_iff_right]

theorem shiftMs_le_shiftMs (h : Movable d time) (h' : Movable d time') :
    shiftMs d time ≤ shiftMs d time' ↔ time ≤ time' := by
  rw [shiftMs_of_movable h', shiftMs_le_iff h]

theorem shiftMs_sub (h : Movable d time) : shiftMs d time - (now + d) = time - now := by
  rw [shiftMs_of_movable h, Int.add_sub_add_right]

end Times

/-! ### One slot -/

section Slots

variable {d now : Ms} {cfg : Config} {s : Slot}

@[simp] theorem Slot.shift_present : (Slot.shift d s).present = s.present := rfl

@[simp] theorem Slot.shift_value : (Slot.shift d s).value = s.value := rfl

@[simp] theorem Slot.shift_absent : Slot.shift d Slot.absent = Slot.absent := by
  rw [Slot.shift, Slot.absent, shiftMs_noExpire]

theorem Slot.shift_hasTtl (h : MovableSlot d s) : (Slot.shift d s).hasTtl = s.hasTtl := by
  have hsame : ((Slot.shift d s).expireAt != noExpire) = (s.expireAt != noExpire) := by
    rw [Bool.eq_iff_iff, bne_iff_ne, bne_iff_ne]
    exact not_congr (shiftMs_eq_noExpire h)
  exact hsame

theorem expired_shift (h : MovableSlot d s) :
    cfg.expired (now + d) (Slot.shift d s) = cfg.expired now s := by
  rw [Config.expired, Config.expired, Slot.shift_hasTtl h]
  rcases h with hnone | hmovable
  · have httl : s.hasTtl = false := by rw [Slot.hasTtl, hnone, bne_self_eq_false]
    rw [httl, Bool.and_false]
    rfl
  · exact congrArg _ (decide_eq_decide.mpr (lt_shiftMs_iff hmovable))

theorem due_shift (h : MovableSlot d s) :
    (s.hasTtl && decide (now + d ≥ (Slot.shift d s).expireAt)) =
      (s.hasTtl && decide (now ≥ s.expireAt)) := by
  rcases h with hnone | hmovable
  · have httl : s.hasTtl = false := by rw [Slot.hasTtl, hnone, bne_self_eq_false]
    rw [httl, Bool.false_and, Bool.false_and]
  · exact congrArg _ (decide_eq_decide.mpr (shiftMs_le_iff hmovable))

theorem sees_shift (h : s.present = true → MovableSlot d s) :
    cfg.sees (now + d) (Slot.shift d s) = cfg.sees now s := by
  rw [Config.sees, Config.sees, Slot.shift_present]
  cases hpresent : s.present with
  | false => rfl
  | true => rw [expired_shift (h hpresent)]

theorem purges_shift (force : Bool) (h : s.present = true → MovableSlot d s) :
    cfg.purges force (now + d) (Slot.shift d s) = cfg.purges force now s := by
  rw [Config.purges, Config.purges, Slot.shift_present]
  cases hpresent : s.present with
  | false => rfl
  | true => rw [expired_shift (h hpresent)]

theorem elapsed_shift {time : Ms} (h : Movable d time) :
    KeyOp.elapsed cfg (now + d) (shiftMs d time) = KeyOp.elapsed cfg now time := by
  rw [KeyOp.elapsed, KeyOp.elapsed, decide_eq_decide.mpr (shiftMs_le_iff h)]

theorem slot_shift (e : Edit) : (e.shift d).slot (Slot.shift d s) = Slot.shift d (e.slot s) := by
  cases e with
  | delete => exact Slot.shift_absent.symm
  | put val expireAt => rfl
  | retime time => rfl
  | persist =>
    show Slot.mk _ _ noExpire = Slot.mk _ _ (shiftMs d noExpire)
    rw [shiftMs_noExpire]
    rfl

end Slots

/-! ### One operation -/

section Operations

variable {d now : Ms} {cfg : Config} {s : Slot} {op : KeyOp}

@[simp] theorem KeyOp.shift_writes : (op.shift d).writes = op.writes := by
  cases op <;> rfl

theorem ttlElapsed_shift {ttl : TtlArg} (h : ∀ time, ttl = .pxAt time → Movable d time) :
    KeyOp.ttlElapsed cfg (now + d) (shiftTtl d ttl) = KeyOp.ttlElapsed cfg now ttl := by
  cases ttl with
  | none => rfl
  | keep => rfl
  | pxAt time => exact elapsed_shift (h time rfl)

theorem installedExpire_shift (ttl : TtlArg) (keyExists : Bool) (prev : Ms) :
    installedExpire (shiftTtl d ttl) keyExists (shiftMs d prev) =
      shiftMs d (installedExpire ttl keyExists prev) := by
  cases ttl with
  | none => exact shiftMs_noExpire.symm
  | keep =>
    cases keyExists with
    | true => rfl
    | false => exact shiftMs_noExpire.symm
  | pxAt time => rfl

theorem expireCondFails_shift (cond : ExpireCond) {current time : Ms}
    (hcurrent : current = noExpire ∨ Movable d current) (htime : Movable d time) :
    expireCondFails cond (shiftMs d current) (shiftMs d time) =
      expireCondFails cond current time := by
  have hnone : (shiftMs d current == noExpire) = (current == noExpire) := by
    rw [Bool.eq_iff_iff, beq_iff_eq, beq_iff_eq]
    exact shiftMs_eq_noExpire hcurrent
  rcases hcurrent with rfl | hmovable
  · cases cond <;> simp [expireCondFails]
  · have hle := shiftMs_le_shiftMs htime hmovable
    have hge := shiftMs_le_shiftMs hmovable htime
    cases cond <;> simp only [expireCondFails, bne, hnone, hle, ge_iff_le, hge]

theorem KeyOp.write?_shift (hslot : s.present = true → MovableSlot d s)
    (hop : ∀ time ∈ op.time?, Movable d time) :
    (op.shift d).write? cfg (now + d) (Slot.shift d s) =
      (op.write? cfg now s).map (Edit.shift d) := by
  cases op with
  | set val cond ttl getOld =>
    have helapsed : KeyOp.ttlElapsed cfg (now + d) (shiftTtl d ttl) =
        KeyOp.ttlElapsed cfg now ttl := by
      refine ttlElapsed_shift fun time httl ↦ ?_
      subst httl
      exact hop time rfl
    simp only [KeyOp.shift, KeyOp.write?, sees_shift hslot, purges_shift true hslot, helapsed,
      Slot.shift_present]
    split_ifs
    · rfl
    · rfl
    · exact congrArg some (congrArg _ (installedExpire_shift ttl _ s.expireAt))
    · rfl
  | del =>
    simp only [KeyOp.shift, KeyOp.write?, sees_shift hslot]
    split_ifs <;> rfl
  | expire time cond =>
    have htime : Movable d time := hop time rfl
    simp only [KeyOp.shift, KeyOp.write?, sees_shift hslot, elapsed_shift htime]
    cases hsees : cfg.sees now s with
    | false => rfl
    | true =>
      have hfails := expireCondFails_shift cond (hslot (Config.present_of_sees hsees)) htime
      simp only [Slot.shift, hfails, Bool.true_and]
      split_ifs <;> rfl
  | persist =>
    simp only [KeyOp.shift, KeyOp.write?, sees_shift hslot]
    cases hsees : cfg.sees now s with
    | false => rfl
    | true =>
      rw [Slot.shift_hasTtl (hslot (Config.present_of_sees hsees))]
      split_ifs <;> rfl
  | get => rfl
  | existsKey => rfl
  | type => rfl
  | pttl => rfl

/-- The edits of a moved operation are the moved edits. -/
theorem KeyOp.edits_shift (hslot : s.present = true → MovableSlot d s)
    (hop : ∀ time ∈ op.time?, Movable d time) :
    (op.shift d).edits cfg (now + d) (Slot.shift d s) =
      (op.edits cfg now s).map (Edit.shift d) := by
  rw [KeyOp.edits, KeyOp.edits, KeyOp.write?_shift hslot hop, KeyOp.shift_writes,
    purges_shift _ hslot, List.map_append, Option.toList_map]
  split_ifs <;> rfl

/-- The reply to a moved operation is the same. -/
theorem KeyOp.reply_shift (hslot : s.present = true → MovableSlot d s)
    (hop : ∀ time ∈ op.time?, Movable d time) :
    ((op.shift d).reply cfg (now + d) (Slot.shift d s) : Reply K) = op.reply cfg now s := by
  cases op with
  | set val cond ttl getOld => simp only [KeyOp.shift, KeyOp.reply, sees_shift hslot,
      Slot.shift_value]
  | get => simp only [KeyOp.shift, KeyOp.reply, sees_shift hslot, Slot.shift_value]
  | del => simp only [KeyOp.shift, KeyOp.reply, sees_shift hslot]
  | existsKey => simp only [KeyOp.shift, KeyOp.reply, sees_shift hslot]
  | type => simp only [KeyOp.shift, KeyOp.reply, sees_shift hslot, Slot.shift_value]
  | expire time cond =>
    simp only [KeyOp.shift, KeyOp.reply, sees_shift hslot]
    cases hsees : cfg.sees now s with
    | false => rfl
    | true =>
      have hfails := expireCondFails_shift cond (hslot (Config.present_of_sees hsees))
        (hop time rfl)
      simp only [Slot.shift, hfails]
  | persist =>
    simp only [KeyOp.shift, KeyOp.reply, sees_shift hslot]
    cases hsees : cfg.sees now s with
    | false => rfl
    | true => rw [Slot.shift_hasTtl (hslot (Config.present_of_sees hsees))]
  | pttl =>
    simp only [KeyOp.shift, KeyOp.reply, sees_shift hslot]
    cases hsees : cfg.sees now s with
    | false => rfl
    | true =>
      have hmovable := hslot (Config.present_of_sees hsees)
      rw [Slot.shift_hasTtl hmovable]
      cases httl : s.hasTtl with
      | false => rfl
      | true =>
        have htime := hmovable.resolve_left (by simpa [Slot.hasTtl] using httl)
        simp only [if_true, Slot.shift, shiftMs_sub htime]

end Operations

/-! ### Steps -/

/-- The move as a map of worlds. -/
def shiftMap (d : Ms) : Mapping K where
  slot := Slot.shift d
  edit := Edit.shift d
  effect := shiftEffect d
  clock now := now + d
  slot_present _ := Slot.shift_present
  edit_delete := rfl
  edit_slot e _ := slot_shift e
  edit_effect _ e := by cases e <;> rfl

/-- Every stored time can be moved. -/
abbrev StoresMovable (d : Ms) (w : World K C) : Prop := StoresTimes (Movable d) w

/-- The time that a step asks for can be moved. -/
def AsksMovable (d : Ms) (s : Step K C) : Prop := ∀ target ∈ requestedTime? s, Movable d target.2

instance (d : Ms) (s : Step K C) : Decidable (AsksMovable d s) :=
  inferInstanceAs (Decidable (∀ target ∈ requestedTime? s, Movable d target.2))

section Steps

variable {d : Ms} {w : World K C} {c : Fin C} {command : Cmd K C} {s : Step K C}

theorem keyOp?_shiftCmd (d : Ms) (command : Cmd K C) :
    keyOp? (shiftCmd d command) = (keyOp? command).map fun target ↦
      (target.1, target.2.shift d) := by
  cases command <;> rfl

theorem shiftCmd_of_keyless (hkeyless : keyOp? command = none) :
    shiftCmd d command = command := by
  obtain rfl | rfl | ⟨client, k, rfl⟩ | ⟨client, rfl⟩ := of_keyOp_eq_none hkeyless <;> rfl

theorem AsksMovable.of_keyOp (h : AsksMovable d (.cmd c command)) {k : Fin K} {op : KeyOp}
    (hop : keyOp? command = some (k, op)) : ∀ time ∈ op.time?, Movable d time := by
  intro time htime
  refine h (k, time) ?_
  rw [requestedTime?, hop]
  exact Option.mem_map_of_mem _ htime

theorem keyIsExpired_shift (hstored : StoresMovable d w) (k : Fin K)
    (hpresent : (w.slots k).present = true) :
    keyIsExpired (shiftWorld d w) k = keyIsExpired w k := by
  rw [keyIsExpired_eq, keyIsExpired_eq]
  exact expired_shift (hstored k hpresent)

theorem isDue_shift (hstored : StoresMovable d w) (k : Fin K) :
    isDue (shiftWorld d w) k = isDue w k := by
  rw [isDue_eq, isDue_eq]
  show ((Slot.shift d (w.slots k)).present && (Slot.shift d (w.slots k)).hasTtl &&
    decide (w.clock + d ≥ (Slot.shift d (w.slots k)).expireAt)) = _
  rw [Slot.shift_present]
  cases hpresent : (w.slots k).present with
  | false => rfl
  | true =>
    rw [Bool.true_and, Bool.true_and, Slot.shift_hasTtl (hstored k hpresent)]
    exact due_shift (hstored k hpresent)

/-- A moved command leads to the moved world. -/
theorem execCmd_shift (hstored : StoresMovable d w) (hasks : AsksMovable d (.cmd c command)) :
    (execCmd (shiftWorld d w) c (shiftCmd d command)).1 =
      shiftWorld d (execCmd w c command).1 :=
  Mapping.execCmd_map (M := shiftMap d) (keyOp?_shiftCmd d command) shiftCmd_of_keyless
    (fun k _ hop ↦ KeyOp.edits_shift (hstored k) (hasks.of_keyOp hop))
    (keyIsExpired_shift hstored)

/-- A moved step leads to the moved world. -/
theorem next_shift (hstored : StoresMovable d w) (hasks : AsksMovable d s)
    (hadmits : Admits w s) (hadmits' : Admits (shiftWorld d w) (shiftStep d s)) :
    (shiftWorld d w).next (shiftStep d s) = shiftWorld d (w.next s) := by
  cases s with
  | clockTick t =>
    have hclock : wrapI64 (w.clock + d + t) = wrapI64 (w.clock + t) + d := by
      have hin : IsI64 (w.clock + t) := hadmits.2
      have hin' : IsI64 (w.clock + d + t) := hadmits'.2
      rw [wrapI64_eq hin, wrapI64_eq hin', Int.add_right_comm]
    exact congrArg (fun now ↦ { shiftWorld d w with clock := now }) hclock
  | activeExpire => exact Mapping.next_activeExpire (M := shiftMap d) (isDue_shift hstored)
  | cmd c command =>
    exact Mapping.next_cmd (M := shiftMap d) (keyOp?_shiftCmd d command) shiftCmd_of_keyless
      (fun k _ hop ↦ KeyOp.edits_shift (hstored k) (hasks.of_keyOp hop))
      (keyIsExpired_shift hstored)

/-- A moved command gets the same reply. -/
theorem execCmd_reply_shift (hstored : StoresMovable d w)
    (hasks : AsksMovable d (.cmd c command)) :
    (execCmd (shiftWorld d w) c (shiftCmd d command)).2 = (execCmd w c command).2 := by
  have hshifted := keyOp?_shiftCmd d command
  cases hop : keyOp? command with
  | some target =>
    obtain ⟨k, op⟩ := target
    rw [hop] at hshifted
    rw [execCmd_eq_outcome w c hop, execCmd_eq_outcome _ c hshifted]
    exact KeyOp.reply_shift (hstored k) (hasks.of_keyOp hop)
  | none =>
    rw [shiftCmd_of_keyless hop]
    exact Mapping.reply_keyless (M := shiftMap d) hop (keyIsExpired_shift hstored)

/-- A moved step shows the same reply and the moved effects. -/
theorem stepOutput_shift (hstored : StoresMovable d w) (hasks : AsksMovable d s)
    (hadmits : Admits w s) (hadmits' : Admits (shiftWorld d w) (shiftStep d s)) :
    stepOutput (shiftWorld d w) (shiftStep d s) = shiftOutput d (stepOutput w s) := by
  have hemitted : emitted (shiftWorld d w) (shiftStep d s) =
      (emitted w s).map (shiftEffect d) := by
    have hnext : (shiftWorld d { w with repl := ReplLog.new }).next (shiftStep d s) =
        shiftWorld d (World.next { w with repl := ReplLog.new } s) :=
      next_shift hstored hasks hadmits hadmits'
    exact Mapping.emitted_map (M := shiftMap d) hnext
  refine Prod.ext ?_ hemitted
  cases s with
  | clockTick t => rfl
  | activeExpire => rfl
  | cmd c command =>
    show (step _ (.cmd c (shiftCmd d command))).2 = (step w (.cmd c command)).2
    rw [step_reply, step_reply, execCmd_reply_shift hstored hasks]

end Steps

/-! ### Runs -/

section Runs

/-- Moving the clock, the stored times and the times of the commands by the same amount changes no
reply of a run, moves the times that it propagates, and leads to the moved world. -/
theorem run_shifted {d : Ms} {w : World K C} (hstored : StoresMovable d w)
    {schedule : List (Step K C)} (hasks : ∀ s ∈ schedule, AsksMovable d s)
    (hruns : Runs w schedule) (hruns' : Runs (shiftWorld d w) (schedule.map (shiftStep d))) :
    Machine.observe World.next stepOutput (shiftWorld d w) (schedule.map (shiftStep d)) =
        (Machine.observe World.next stepOutput w schedule).map (shiftOutput d) ∧
      runSchedule (shiftWorld d w) (schedule.map (shiftStep d)) =
        shiftWorld d (runSchedule w schedule) := by
  induction schedule generalizing w with
  | nil => exact ⟨rfl, rfl⟩
  | cons s rest ih =>
    rw [List.forall_mem_cons] at hasks
    have hnext := next_shift hstored hasks.1 hruns.1 hruns'.1
    have hstored' : StoresMovable d (w.next s) :=
      hstored.next fun k time hasked _ ↦ hasks.1 (k, time) hasked
    obtain ⟨houtputs, hend⟩ := ih hstored' hasks.2 hruns.2 (hnext ▸ hruns'.2)
    rw [← hnext] at houtputs hend
    exact ⟨congrArg₂ List.cons (stepOutput_shift hstored hasks.1 hruns.1 hruns'.1) houtputs, hend⟩

/-- A key with a time, watched, seen and then gone, 500 milliseconds later. -/
def timedSchedule : List (Step keyCount clientCount) :=
  [.cmd 0 (.set 0 Str.empty .always (.pxAt 1010) false), .cmd 1 (.watch 1 0), .cmd 1 (.pttl 0),
    .clockTick 11, .cmd 1 (.get 0), .cmd 0 (.expire 0 5 .none), .activeExpire]

theorem run_shifted_timed :
    let w : World keyCount clientCount := World.empty 1000
    Machine.observe World.next stepOutput (shiftWorld 500 w) (timedSchedule.map (shiftStep 500)) =
        (Machine.observe World.next stepOutput w timedSchedule).map (shiftOutput 500) ∧
      runSchedule (shiftWorld 500 w) (timedSchedule.map (shiftStep 500)) =
        shiftWorld 500 (runSchedule w timedSchedule) := by
  intro w
  exact run_shifted (fun _ hpresent ↦ absurd hpresent Bool.false_ne_true) (by decide) (by decide)
    (by decide)

end Runs

end RedisCvlr.Keyspace
