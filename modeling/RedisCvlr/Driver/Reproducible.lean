import RedisCvlr.Driver.Harness
import RedisCvlr.Keyspace.Translation

/-!
# A seed is a test case

The test asks the server for the time before it draws a schedule, so the same seed gives another
schedule in every run of the test. The two schedules differ by a move of their times only, and the
model replies alike to both and ends in the same snapshot (`seed_reproducible`): what a seed tests
does not depend on when it is run.
-/

set_option autoImplicit false
set_option relaxedAutoImplicit false

namespace RedisCvlr.Driver

open RedisCvlr.Library RedisCvlr.Model RedisCvlr.Keyspace

variable {K C : ℕ}

/-- A base from which no drawn time is negative or leaves `i64`. -/
def Roomy (base : Ms) : Prop := 10001 ≤ base ∧ base + 600000 < 2 ^ 63

instance (base : Ms) : Decidable (Roomy base) := inferInstanceAs (Decidable (_ ∧ _))

/-- A base from which no clock of a schedule of this length leaves `i64`. -/
def TicksFit (len : ℕ) (base : Ms) : Prop := base + tickMs * len < 2 ^ 63

instance (len : ℕ) (base : Ms) : Decidable (TicksFit len base) :=
  inferInstanceAs (Decidable (base + tickMs * len < 2 ^ 63))

/-- A step of a schedule after the move. -/
def shiftDiffStep (d : Ms) : DiffStep K C → DiffStep K C
  | .cmd command => .cmd (shiftCmd d command)
  | .tick => .tick

/-! ### Drawn schedules -/

section Draws

theorem movable_offset {base d off : ℤ} (hbase : 10001 ≤ base) (hbase' : 10001 ≤ base + d)
    (hoff : IsOffset off) : Movable d (base + off) := by
  have hboth : 0 ≤ base + off ∧ 0 ≤ base + off + d := by
    rcases hoff with rfl | rfl | rfl <;> omega
  exact hboth

theorem isI64_offset {base off : ℤ} (hlow : 10001 ≤ base) (hhigh : base + 600000 < 2 ^ 63)
    (hoff : IsOffset off) : IsI64 (base + off) := by
  rcases hoff with rfl | rfl | rfl <;> constructor <;> omega

variable {base d : Ms}

/-- A drawn time moves with the base. -/
theorem wrapI64_offset_shift (h : Roomy base) (h' : Roomy (base + d)) {off : Ms}
    (hoff : IsOffset off) :
    wrapI64 (base + d + off) = shiftMs d (wrapI64 (base + off)) := by
  rw [wrapI64_eq (isI64_offset h.1 h.2 hoff), wrapI64_eq (isI64_offset h'.1 h'.2 hoff),
    shiftMs_of_movable (movable_offset h.1 h'.1 hoff), Int.add_right_comm]

theorem drawDiffTtl_shift (h : Roomy base) (h' : Roomy (base + d)) :
    drawDiffTtl (base + d) = shiftTtl d <$> drawDiffTtl base := by
  rw [drawDiffTtl, drawDiffTtl, map_bind]
  refine bind_congr_of_draws draws_drawTtlOffset fun off hoff ↦ ?_
  cases off with
  | none =>
    rw [map_bind]
    refine bind_congr fun n ↦ ?_
    split_ifs <;> rfl
  | some off =>
    show (pure (.pxAt (wrapI64 (base + d + off))) : Rule TtlArg) =
      pure (.pxAt (shiftMs d (wrapI64 (base + off))))
    rw [wrapI64_offset_shift h h' (hoff off rfl)]

theorem drawDiffCmd_shift [NeZero K] (h : Roomy base) (h' : Roomy (base + d)) :
    (drawDiffCmd (base + d) : Rule (Cmd K C)) = shiftCmd d <$> drawDiffCmd base := by
  rw [drawDiffCmd, drawDiffCmd, map_bind]
  refine bind_congr fun k ↦ ?_
  rw [map_bind]
  refine bind_congr fun n ↦ ?_
  have hset : (do
      let val ← drawStr
      let cond ← drawSetCond
      let ttl ← drawDiffTtl (base + d)
      let get ← nondetRange 2
      return .set k val cond ttl (get == 0) : Rule (Cmd K C)) = shiftCmd d <$> (do
        let val ← drawStr
        let cond ← drawSetCond
        let ttl ← drawDiffTtl base
        let get ← nondetRange 2
        return .set k val cond ttl (get == 0)) := by
    simp only [map_bind, drawDiffTtl_shift h h', bind_map_left]
    rfl
  split
  · exact hset
  · exact hset
  · rfl
  · rfl
  · rfl
  · rfl
  · rw [map_bind]
    refine bind_congr_of_draws draws_drawTtlOffset fun off hoff ↦ ?_
    rw [map_bind]
    refine bind_congr fun cond ↦ ?_
    have hoff' : IsOffset (off.getD far) := by
      cases off with
      | none => exact .inr (.inr rfl)
      | some off => exact hoff off rfl
    rw [wrapI64_offset_shift h h' hoff']
    rfl
  · rfl
  · rfl
  · rfl
  · rfl

/-- A schedule that is drawn at another base is the moved schedule, by induction on its length. -/
theorem drawSchedule_shift [NeZero K] (h : Roomy base) (h' : Roomy (base + d)) (len : ℕ) :
    (drawSchedule (base + d) len : Rule (List (DiffStep K C))) =
      List.map (shiftDiffStep d) <$> drawSchedule base len := by
  have hstep : (drawDiffStep (base + d) : Rule (DiffStep K C)) =
      shiftDiffStep d <$> drawDiffStep base := by
    rw [drawDiffStep, drawDiffStep, map_bind]
    refine bind_congr fun n ↦ ?_
    split_ifs
    · rfl
    · rw [drawDiffCmd_shift h h', map_bind, bind_map_left]
      rfl
  induction len with
  | zero => rfl
  | succ len ih =>
    rw [drawSchedule, drawSchedule, map_bind, hstep, bind_map_left, ih]
    simp only [map_bind, bind_map_left]
    rfl

end Draws

/-! ### Runs of the model -/

section Runs

variable {d : Ms} {w : World K C}

/-- A moved world has the same snapshot. -/
theorem modelSnapshot_shift (hstored : StoresMovable d w) :
    modelSnapshot (shiftWorld d w) = modelSnapshot w := by
  have hvisible : visibleKeys (shiftWorld d w) = visibleKeys w := by
    refine List.filter_congr fun k _ ↦ ?_
    show ((w.slots k).present && !keyIsExpired (shiftWorld d w) k) = _
    cases hpresent : (w.slots k).present with
    | false => rfl
    | true => rw [keyIsExpired_shift hstored k hpresent]
  have hentries : (visibleKeys w).map (modelEntry (shiftWorld d w)) =
      (visibleKeys w).map (modelEntry w) := by
    refine List.map_congr_left fun k hk ↦ ?_
    have httl : ((shiftWorld d w).slots k).hasTtl = (w.slots k).hasTtl :=
      Slot.shift_hasTtl (hstored k (mem_visibleKeys.mp hk).1)
    rw [modelEntry, modelEntry, httl]
    rfl
  rw [modelSnapshot, modelSnapshot, hvisible, hentries]
  rfl

theorem tick_inside {base clock : ℤ} {ticks more len : ℕ} (hclock : clock = base + 60 * ticks)
    (hlow : 10001 ≤ base) (hfits : base + 60 * (len : ℤ) < 2 ^ 63)
    (hticks : ticks + (more + 1) ≤ len) : IsI64 (clock + 60) := by
  constructor <;> omega

/-- The clock of a run after some ticks. -/
def AtTick (base : Ms) (ticks : ℕ) (w : World K C) : Prop := w.clock = base + tickMs * ticks

theorem AtTick.tick [NeZero C] {base : Ms} {ticks more len : ℕ} (h : AtTick base ticks w)
    (hbase : Roomy base) (hfits : TicksFit len base) (hticks : ticks + (more + 1) ≤ len) :
    (modelStep w .tick).1.clock = w.clock + tickMs ∧
      AtTick base (ticks + 1) (modelStep w .tick).1 := by
  have hclock : (modelStep w .tick).1.clock = w.clock + tickMs :=
    wrapI64_eq (tick_inside h hbase.1 hfits hticks)
  refine ⟨hclock, hclock.trans ?_⟩
  rw [h]
  exact Int.add_assoc base (tickMs * ticks) tickMs

/-- The model replies alike to a moved schedule and ends in the moved world, by induction on the
schedule. -/
theorem modelRun_shift [NeZero C] {base : Ms} {len : ℕ} (hbase : Roomy base)
    (hbase' : Roomy (base + d)) (hfits : TicksFit len base) (hfits' : TicksFit len (base + d))
    {schedule : List (DiffStep K C)} {ticks : ℕ} {w : World K C} (hstored : StoresMovable d w)
    (hclock : AtTick base ticks w)
    (hasks : ∀ command, .cmd command ∈ schedule → ∀ c, AsksMovable d (.cmd c command))
    (hticks : ticks + schedule.count .tick ≤ len) :
    (modelRun (shiftWorld d w) (schedule.map (shiftDiffStep d))).2.map Observation.reply =
        (modelRun w schedule).2.map Observation.reply ∧
      (modelRun (shiftWorld d w) (schedule.map (shiftDiffStep d))).1 =
        shiftWorld d (modelRun w schedule).1 ∧
      StoresMovable d (modelRun w schedule).1 := by
  induction schedule generalizing ticks w with
  | nil => exact ⟨rfl, rfl, hstored⟩
  | cons s rest ih =>
    have hrest : ∀ command, .cmd command ∈ rest → ∀ c, AsksMovable d (.cmd c command) :=
      fun command hmem ↦ hasks command (List.mem_cons_of_mem _ hmem)
    cases s with
    | tick =>
      rw [List.count_cons_self] at hticks
      have hclock' : AtTick (base + d) ticks (shiftWorld d w) := by
        show w.clock + d = base + d + tickMs * ticks
        rw [hclock, Int.add_right_comm]
      obtain ⟨hnext, hat⟩ := hclock.tick hbase hfits hticks
      obtain ⟨hnext', -⟩ := hclock'.tick hbase' hfits' hticks
      have hmoved : (modelStep (shiftWorld d w) .tick).1 =
          shiftWorld d (modelStep w .tick).1 := by
        have hnow : (modelStep (shiftWorld d w) .tick).1.clock =
            (modelStep w .tick).1.clock + d := by
          rw [hnext, hnext']
          exact Int.add_right_comm w.clock d tickMs
        exact congrArg (fun now ↦ { shiftWorld d w with clock := now }) hnow
      obtain ⟨hreplies, hend⟩ := ih (w := (modelStep w .tick).1) hstored hat hrest (by omega)
      rw [← hmoved] at hreplies hend
      exact ⟨congrArg (none :: ·) hreplies, hend⟩
    | cmd command =>
      rw [List.count_cons_of_ne (by simp)] at hticks
      have hcommand := hasks command List.mem_cons_self 0
      have hat : AtTick base ticks (execCmd w 0 command).1 :=
        (execCmd_clock w 0 command).trans hclock
      have hstored' : StoresMovable d (execCmd w 0 command).1 :=
        hstored.execCmd fun k time hasked _ ↦ hcommand (k, time) hasked
      obtain ⟨hreplies, hend⟩ := ih hstored' hat hrest hticks
      rw [← execCmd_shift hstored hcommand] at hreplies hend
      refine ⟨?_, hend⟩
      exact congrArg₂ List.cons (congrArg some (execCmd_reply_shift hstored hcommand)) hreplies

theorem asksMovable_of_near {base : Ms} (hbase : Roomy base) (hbase' : Roomy (base + d))
    {command : Cmd K C} (hnear : AsksNearBase base command) (c : Fin C) :
    AsksMovable d (.cmd c command) := by
  intro target htarget
  obtain ⟨off, hoff, htime⟩ := hnear c target htarget
  rw [htime, wrapI64_eq (isI64_offset hbase.1 hbase.2 hoff)]
  exact movable_offset hbase.1 hbase'.1 hoff

theorem atTick_zero (base : ℤ) : base = base + 60 * (0 : ℕ) := by
  omega

theorem exists_move (base base' : ℤ) : ∃ d, base' = base + d :=
  ⟨base' - base, by omega⟩

theorem move_eq (base d : ℤ) : base + d - base = d := by
  omega

/-- At another base a seed draws the moved schedule, the model replies alike and it ends in the same
snapshot. -/
theorem seed_reproducible (seed : UInt64) {base base' : Ms} {len : ℕ} (hbase : Roomy base)
    (hbase' : Roomy base') (hfits : TicksFit len base) (hfits' : TicksFit len base') :
    let schedule := scheduleOf seed base len
    let schedule' := scheduleOf seed base' len
    let run := modelRun (World.empty base) schedule
    let run' := modelRun (World.empty base') schedule'
    schedule' = schedule.map (shiftDiffStep (base' - base)) ∧
      run'.2.map Observation.reply = run.2.map Observation.reply ∧
      modelSnapshot run'.1 = modelSnapshot run.1 := by
  intro schedule schedule' run run'
  obtain ⟨d, rfl⟩ : ∃ d : Ms, base' = base + d := exists_move base base'
  rw [move_eq base d]
  have hmoved : schedule' = schedule.map (shiftDiffStep d) := by
    show (drawSchedule (base + d) len).value _ = _
    rw [drawSchedule_shift hbase hbase' len, Program.value_map]
    rfl
  have hstart : shiftWorld d (World.empty base : World keyCount clientCount) =
      World.empty (base + d) := by
    have hslots : (fun _ ↦ Slot.shift d Slot.absent : Fin keyCount → Slot) =
        fun _ ↦ Slot.absent := funext fun _ ↦ Slot.shift_absent
    exact congrArg (fun slots ↦ { World.empty (base + d) with slots := slots }) hslots
  have hasks : ∀ command, .cmd command ∈ schedule → ∀ c, AsksMovable d (.cmd c command) := by
    intro command hmem c
    have hdrawn := drawn_of_mem_scheduleOf seed base len command hmem
    exact asksMovable_of_near hbase hbase' (asksNearBase_of_drawn hdrawn) c
  have hcount : 0 + schedule.count .tick ≤ len := by
    rw [Nat.zero_add]
    exact count_scheduleOf_le seed base len
  have hempty : StoresMovable d (World.empty base : World keyCount clientCount) :=
    fun _ hpresent ↦ absurd hpresent Bool.false_ne_true
  obtain ⟨hreplies, hend, hstored⟩ :=
    modelRun_shift hbase hbase' hfits hfits' hempty (atTick_zero base) hasks hcount
  rw [hstart] at hreplies hend
  refine ⟨hmoved, ?_, ?_⟩
  · show (modelRun _ schedule').2.map _ = _
    rw [hmoved, hreplies]
  · show modelSnapshot (modelRun _ schedule').1 = _
    rw [hmoved, hend]
    exact modelSnapshot_shift hstored

/-- A seed that is run again a day later. -/
theorem seed_reproducible_nextDay :
    let run := modelRun (World.empty 20000) (scheduleOf 7 20000 12)
    let run' := modelRun (World.empty 86420000) (scheduleOf 7 86420000 12)
    scheduleOf 7 86420000 12 = (scheduleOf 7 20000 12).map (shiftDiffStep (86420000 - 20000)) ∧
      run'.2.map Observation.reply = run.2.map Observation.reply ∧
      modelSnapshot run'.1 = modelSnapshot run.1 :=
  seed_reproducible 7 (by decide) (by decide) (by decide) (by decide)

end Runs

end RedisCvlr.Driver
