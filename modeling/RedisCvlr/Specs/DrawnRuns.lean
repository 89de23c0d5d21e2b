import RedisCvlr.Specs.KeyspaceRules

/-!
# Runs of drawn steps

`draw_clock` keeps the clock far from the bounds of `i64`, so that the arithmetic on times cannot
overflow. `drawn_run_exact` proves this for whole runs: in a run of drawn steps from a drawn world
no tick wraps, every stored time stays in the range of the draws, and so every remaining time that
PTTL computes is the exact difference.
-/

set_option autoImplicit false
set_option relaxedAutoImplicit false

namespace RedisCvlr.Specs

open RedisCvlr.Library RedisCvlr.Model RedisCvlr.Watch RedisCvlr.Keyspace

variable {K C : ℕ}

/-- `draw_step`. -/
def drawStep [NeZero K] [NeZero C] : Rule (Step K C) := do
  let c ← drawClient
  match (← nondetRange 6) with
  | 0 => return .activeExpire
  | 1 => return .clockTick (asMs (← nondetRange 1000))
  | _ => return .cmd c (← drawCmd c)

/-- The steps in the range of `drawStep`. -/
def DrawnStep [NeZero K] [NeZero C] (s : Step K C) : Prop := ∃ stream, drawStep.value stream = s

/-- A tick that is short and not negative, or a step that asks for a time in the range of the draws,
if for any. -/
def Bounded : Step K C → Prop
  | .clockTick d => 0 ≤ d ∧ d < 1000
  | .activeExpire => True
  | .cmd _ command => AsksDrawn command

/-- A time in the range of the draws. -/
def InRange (time : Ms) : Prop := 0 ≤ time ∧ time < 2000000

section Steps

variable {w : World K C} {s : Step K C}

theorem draws_drawStep [NeZero K] [NeZero C] : Draws Bounded (drawStep : Rule (Step K C)) := by
  refine draws_bind draws_drawClient fun c _ ↦ ?_
  refine draws_bind (draws_nondetRange (by decide)) fun n _ ↦ ?_
  split
  · exact draws_pure trivial
  · refine draws_bind (draws_nondetRange (by decide)) fun d hd ↦ draws_pure ?_
    exact ⟨Int.natCast_nonneg _, Int.ofNat_lt.mpr hd⟩
  · exact draws_bind (draws_drawCmd c) fun command hcommand ↦ draws_pure hcommand

theorem bounded_of_drawn [NeZero K] [NeZero C] (h : DrawnStep s) : Bounded s := by
  obtain ⟨stream, rfl⟩ := h
  exact (draws_drawStep (K := K) (C := C) stream).1

theorem storesTimes_of_drawn (h : DrawnWorld w) : StoresTimes InRange w := by
  intro k hpresent
  rcases h.slots k with habsent | ⟨-, htime⟩
  · rw [habsent] at hpresent
    exact absurd hpresent Bool.false_ne_true
  · exact htime

theorem tick_bounds {clock d : ℤ} {n m : ℕ} (hclock : 0 ≤ clock ∧ clock < 1000000 + 1000 * n)
    (hd : 0 ≤ d ∧ d < 1000) (hn : n + (m + 1) ≤ 1000000000000000) :
    IsI64 (clock + d) ∧ 0 ≤ clock + d ∧ clock + d < 1000000 + 1000 * (n + 1 : ℕ) := by
  unfold IsI64
  omega

theorem clock_bounds_mono {clock : ℤ} {n : ℕ} (h : 0 ≤ clock ∧ clock < 1000000 + 1000 * n) :
    0 ≤ clock ∧ clock < 1000000 + 1000 * (n + 1 : ℕ) := by
  omega

/-- A bounded step is admitted and keeps the stored times in range, and the clock moves by less than
a second. -/
theorem Bounded.next (h : Bounded s) (hstored : StoresTimes InRange w) {n m : ℕ}
    (hclock : 0 ≤ w.clock ∧ w.clock < 1000000 + 1000 * n) (hn : n + (m + 1) ≤ 1000000000000000) :
    Admits w s ∧ StoresTimes InRange (w.next s) ∧
      (0 ≤ (w.next s).clock ∧ (w.next s).clock < 1000000 + 1000 * (n + 1 : ℕ)) := by
  cases s with
  | clockTick d =>
    obtain ⟨hi64, hbounds⟩ := tick_bounds hclock h hn
    have hclock' : (w.next (.clockTick d)).clock = w.clock + d := wrapI64_eq hi64
    exact ⟨⟨h.1, hi64⟩, hstored, hclock' ▸ hbounds⟩
  | activeExpire =>
    refine ⟨trivial, hstored.next fun k time hasked ↦ absurd hasked (by simp [requestedTime?]), ?_⟩
    rw [next_clock]
    exact clock_bounds_mono hclock
  | cmd c command =>
    refine ⟨trivial, hstored.next fun k time hasked _ ↦ h c (k, time) hasked, ?_⟩
    rw [next_clock]
    exact clock_bounds_mono hclock

end Steps

section Runs

variable {w : World K C}

theorem bounded_run {schedule : List (Step K C)} (hsteps : ∀ s ∈ schedule, Bounded s)
    (hstored : StoresTimes InRange w) {n : ℕ}
    (hclock : 0 ≤ w.clock ∧ w.clock < 1000000 + 1000 * n)
    (hlen : n + schedule.length ≤ 1000000000000000) :
    Runs w schedule ∧ StoresTimes InRange (runSchedule w schedule) ∧
      (0 ≤ (runSchedule w schedule).clock ∧
        (runSchedule w schedule).clock < 1000000 + 1000 * (n + schedule.length : ℕ)) := by
  induction schedule generalizing w n with
  | nil => exact ⟨trivial, hstored, hclock⟩
  | cons s rest ih =>
    rw [List.forall_mem_cons] at hsteps
    rw [List.length_cons] at hlen ⊢
    obtain ⟨hadmits, hstored', hclock'⟩ := hsteps.1.next hstored hclock hlen
    have hlen' : n + 1 + rest.length ≤ 1000000000000000 := by omega
    obtain ⟨hruns, hend, hbounds⟩ := ih hsteps.2 hstored' hclock' hlen'
    rw [Nat.add_right_comm] at hbounds
    exact ⟨⟨hadmits, hruns⟩, hend, hbounds⟩

theorem isI64_remaining {time clock : ℤ} {n : ℕ} (htime : 0 ≤ time ∧ time < 2000000)
    (hclock : 0 ≤ clock ∧ clock < 1000000 + 1000 * n) (hn : n ≤ 1000000000000000) :
    IsI64 (time - clock) := by
  unfold IsI64
  omega

/-- In a run of drawn steps from a drawn world no tick overflows, every stored time stays in the
range of the draws, and PTTL replies the exact remaining time of a key that the caller sees. -/
theorem drawn_run_exact [NeZero K] [NeZero C] (hw : DrawnWorld w) {schedule : List (Step K C)}
    (hsteps : ∀ s ∈ schedule, DrawnStep s) (hlen : schedule.length ≤ 1000000000000000) :
    let last := runSchedule w schedule
    Runs w schedule ∧ StoresTimes InRange last ∧
      ∀ c k, (config last).sees last.clock (last.slots k) = true → (last.slots k).hasTtl = true →
        (execCmd last c (.pttl k)).2 = .int ((last.slots k).expireAt - last.clock) := by
  intro last
  have hstart : 0 ≤ w.clock ∧ w.clock < 1000000 + 1000 * (0 : ℕ) := hw.clock
  obtain ⟨hruns, hstored, hclock⟩ := bounded_run (fun s hs ↦ bounded_of_drawn (hsteps s hs))
    (storesTimes_of_drawn hw) hstart (by omega)
  refine ⟨hruns, hstored, fun c k hsees httl ↦ ?_⟩
  have htime : InRange (last.slots k).expireAt := by
    refine (hstored k (Config.present_of_sees hsees)).resolve_left ?_
    simpa [Slot.hasTtl] using httl
  rw [Nat.zero_add] at hclock
  rw [execCmd_eq_outcome last c rfl, KeyOp.reply, hsees, httl]
  exact congrArg Reply.int (wrapI64_eq (isI64_remaining htime hclock hlen))

/-- A world with a key that expires at 1000, a SET of another key with a time, and a tick. Then PTTL
replies the remaining times of both. -/
theorem drawn_run_exact_timed :
    let stream : List UInt64 → Stream' UInt64 := fun xs ↦ Stream'.appendStream' xs (Stream'.const 1)
    let w : World keyCount clientCount :=
      World.nondetWorld.value (stream [500, 0, 0, 0, 1, 1, 1000])
    let schedule : List (Step keyCount clientCount) :=
      [drawStep.value (stream [0, 2, 1, 0, 3, 0, 2, 2000, 1]), drawStep.value (stream [0, 1, 300])]
    let last := runSchedule w schedule
    Runs w schedule ∧ StoresTimes InRange last ∧
      (execCmd last 0 (.pttl 0)).2 = .int 200 ∧ (execCmd last 1 (.pttl 1)).2 = .int 1200 := by
  intro stream w schedule last
  have hsteps : ∀ s ∈ schedule, DrawnStep s := by
    rw [List.forall_mem_cons, List.forall_mem_singleton]
    exact ⟨⟨_, rfl⟩, ⟨_, rfl⟩⟩
  obtain ⟨hruns, hstored, hexact⟩ :=
    drawn_run_exact (draws_nondetWorld _).1 hsteps (show schedule.length ≤ _ by decide)
  refine ⟨hruns, hstored, ?_, ?_⟩
  · exact (hexact 0 0 (by decide) (by decide)).trans (by decide)
  · exact (hexact 1 1 (by decide) (by decide)).trans (by decide)

end Runs

end RedisCvlr.Specs
