import Mathlib.Data.Bool.Basic
import Mathlib.Data.List.Basic
import RedisCvlr.Driver.Concrete

/-!
# The verdicts of the concrete driver

An execution is the sequence of its assumes and asserts. A counterexample is a failed assert before
which no assume has failed. The driver keeps two sticky flags instead: the one for a failed assert
is set exactly by a counterexample, but at the end of an execution an assume that has failed, at
whatever point, hides it. So `exercise` reports the seeds whose execution is a counterexample and
fails no assume at all, and `exercise_reports_iff` says when that verdict is the right one.
-/

set_option autoImplicit false
set_option relaxedAutoImplicit false

namespace RedisCvlr.Driver

open RedisCvlr.Library

/-! ### Executions -/

/-- Some assert fails and no assume before it does. -/
def IsCounterexample (events : List Event) : Prop :=
  ∃ before after, events = before ++ .assert false :: after ∧ .assume false ∉ before

/-- The events of the execution of a seed. -/
def execution (f : UInt64 → Body) (seed : UInt64) : List Event :=
  (f seed).events (nondetStream seed)

/-! ### Counterexamples -/

section Counterexamples

variable {c : Bool} {events : List Event}

theorem not_isCounterexample_nil : ¬IsCounterexample [] := by
  rintro ⟨before, after, hevents, -⟩
  exact absurd hevents.symm (List.append_ne_nil_of_right_ne_nil _ (List.cons_ne_nil _ _))

theorem isCounterexample_cons {e : Event} : IsCounterexample (e :: events) ↔
    e = .assert false ∨ (e ≠ .assume false ∧ IsCounterexample events) := by
  constructor
  · rintro ⟨before, after, hevents, hbefore⟩
    cases before with
    | nil => exact .inl (List.cons.inj hevents).1
    | cons first before =>
      obtain ⟨rfl, htail⟩ := List.cons.inj hevents
      rw [List.mem_cons, not_or] at hbefore
      exact .inr ⟨Ne.symm hbefore.1, before, after, htail, hbefore.2⟩
  · rintro (rfl | ⟨hne, before, after, rfl, hbefore⟩)
    · exact ⟨[], events, rfl, List.not_mem_nil⟩
    · refine ⟨e :: before, after, rfl, ?_⟩
      rw [List.mem_cons, not_or]
      exact ⟨Ne.symm hne, hbefore⟩

end Counterexamples

/-! ### The flags of a run -/

section Flags

@[simp] theorem cvtAssume_rejected (c : Bool) (s : DriverState) :
    (cvtAssume c s).rejected = (!c || s.rejected) := by
  cases c <;> rfl

@[simp] theorem cvtAssume_failed (c : Bool) (s : DriverState) :
    (cvtAssume c s).failed = s.failed := by
  cases c <;> rfl

@[simp] theorem cvtAssume_stream (c : Bool) (s : DriverState) :
    (cvtAssume c s).stream = s.stream := by
  cases c <;> rfl

@[simp] theorem cvtAssert_rejected (c : Bool) (s : DriverState) :
    (cvtAssert c s).rejected = s.rejected := by
  unfold cvtAssert
  split_ifs <;> rfl

@[simp] theorem cvtAssert_failed (c : Bool) (s : DriverState) :
    (cvtAssert c s).failed = (s.failed || (!c && !s.rejected)) := by
  unfold cvtAssert
  split_ifs with hfails
  · rw [hfails, Bool.or_true]
  · rw [Bool.eq_false_of_not_eq_true hfails, Bool.or_false]

@[simp] theorem cvtAssert_stream (c : Bool) (s : DriverState) :
    (cvtAssert c s).stream = s.stream := by
  unfold cvtAssert
  split_ifs <;> rfl

/-- A run is rejected when an assume fails, by induction on the body. -/
theorem run_rejected (body : Body) (s : DriverState) : (body.run s).rejected = true ↔
    s.rejected = true ∨ .assume false ∈ body.events (drawn s) := by
  induction body generalizing s with
  | done a => exact ⟨.inl, fun h ↦ h.resolve_right List.not_mem_nil⟩
  | draw next ih =>
    rw [Body.run, ih, Program.events, head_drawn, tail_drawn]
    rfl
  | assume c next ih =>
    rw [Body.run, ih, drawn_congr (cvtAssume_stream c s), Program.events,
      List.mem_cons, cvtAssume_rejected]
    cases c <;> simp
  | assert c next ih =>
    rw [Body.run, ih, drawn_congr (cvtAssert_stream c s), Program.events,
      List.mem_cons, cvtAssert_rejected]
    simp

/-- A run that has not been rejected fails when it is a counterexample. -/
theorem run_failed (body : Body) (s : DriverState) : (body.run s).failed = true ↔
    s.failed = true ∨
      (s.rejected = false ∧ IsCounterexample (body.events (drawn s))) := by
  induction body generalizing s with
  | done a => exact ⟨.inl, fun h ↦ h.resolve_right fun hfalse ↦ not_isCounterexample_nil hfalse.2⟩
  | draw next ih =>
    rw [Body.run, ih, Program.events, head_drawn, tail_drawn]
    rfl
  | assume c next ih =>
    rw [Body.run, ih, drawn_congr (cvtAssume_stream c s), Program.events,
      isCounterexample_cons, cvtAssume_rejected, cvtAssume_failed]
    cases c <;> simp
  | assert c next ih =>
    rw [Body.run, ih, drawn_congr (cvtAssert_stream c s), Program.events,
      isCounterexample_cons, cvtAssert_rejected, cvtAssert_failed]
    cases c <;> cases s.rejected <;> simp

end Flags

/-! ### The loop over the seeds -/

section Exercise

variable {f : UInt64 → Body} {seed n : UInt64}

/-- The loop reports the execution of a seed. -/
def reported (f : UInt64 → Body) (seed : UInt64) : Bool :=
  let o := endExecution ((f seed).run (beginExecution seed))
  !o.rejected && o.failed

/-- The loop reports the counterexamples in which no assume fails, before the assert or after it. -/
theorem reported_iff : reported f seed = true ↔
    IsCounterexample (execution f seed) ∧ .assume false ∉ execution f seed := by
  have hrejected := run_rejected (f seed) (beginExecution seed)
  have hfailed := run_failed (f seed) (beginExecution seed)
  simp only [beginExecution, Bool.false_eq_true, false_or, true_and] at hrejected hfailed
  rw [reported, Bool.and_eq_true, Bool.not_eq_true', ← Bool.not_eq_true, and_comm]
  exact and_congr hfailed (not_congr hrejected)

/-- One round keeps a reported seed while there is room. -/
theorem failures_exerciseOne (tally : Tally) (seed : UInt64) :
    (exerciseOne f tally seed).failures =
      if reported f seed && decide (tally.failures.length < 8) then tally.failures ++ [seed]
      else tally.failures := by
  unfold exerciseOne reported
  rcases endExecution ((f seed).run (beginExecution seed)) with ⟨rejected, failed, draws⟩
  cases rejected with
  | true => rfl
  | false =>
    cases failed with
    | false => rfl
    | true => by_cases hroom : tally.failures.length < 8 <;> simp [hroom]

/-- The failures are the first eight reported seeds, by induction on the seeds. -/
theorem failures_foldl (seeds : List UInt64) (tally : Tally) (hfits : tally.failures.length ≤ 8) :
    (seeds.foldl (exerciseOne f) tally).failures =
      (tally.failures ++ seeds.filter (reported f)).take 8 := by
  induction seeds generalizing tally with
  | nil => rw [List.foldl_nil, List.filter_nil, List.append_nil, List.take_of_length_le hfits]
  | cons seed seeds ih =>
    rw [List.foldl_cons, List.filter_cons]
    have hone := failures_exerciseOne (f := f) tally seed
    cases hreported : reported f seed with
    | false =>
      rw [hreported, Bool.false_and, if_neg Bool.false_ne_true] at hone
      rw [ih _ (hone ▸ hfits), hone, if_neg Bool.false_ne_true]
    | true =>
      rw [hreported, Bool.true_and] at hone
      rw [if_pos rfl]
      by_cases hroom : tally.failures.length < 8
      · rw [if_pos (decide_eq_true hroom)] at hone
        have hgrown : (exerciseOne f tally seed).failures.length ≤ 8 := by
          rw [hone, List.length_append, List.length_singleton]
          exact hroom
        rw [ih _ hgrown, hone, List.append_assoc, List.singleton_append]
      · -- eight seeds are kept already, and the new one is cut off
        have hfull : tally.failures.length = 8 := Nat.le_antisymm hfits (Nat.le_of_not_lt hroom)
        rw [if_neg (by simpa using hroom)] at hone
        rw [ih _ (hone ▸ hfits), hone, List.take_left' hfull, List.take_left' hfull]

/-- The seeds that `exercise` returns. -/
theorem exercise_failures (f : UInt64 → Body) (n : UInt64) :
    (exercise f n).2.2 = ((seeds n).filter (reported f)).take 8 :=
  failures_foldl (seeds n) ⟨0, []⟩ (Nat.zero_le 8)

theorem exercise_failures_ne_nil :
    (exercise f n).2.2 ≠ [] ↔ ∃ seed ∈ seeds n, reported f seed = true := by
  rw [exercise_failures, Ne, List.take_eq_nil_iff, List.filter_eq_nil_iff]
  simp

/-- Every seed that `exercise` returns is the seed of a counterexample. It returns a seed exactly
when there is a counterexample, if and only if some execution that is a counterexample fails no
assume, as long as there is one at all. -/
theorem exercise_reports_iff (f : UInt64 → Body) (n : UInt64) :
    (∀ seed ∈ (exercise f n).2.2, seed ∈ seeds n ∧ IsCounterexample (execution f seed)) ∧
    (((exercise f n).2.2 ≠ [] ↔ ∃ seed ∈ seeds n, IsCounterexample (execution f seed)) ↔
      ((∃ seed ∈ seeds n, IsCounterexample (execution f seed)) →
        ∃ seed ∈ seeds n, IsCounterexample (execution f seed) ∧
          .assume false ∉ execution f seed)) := by
  rw [exercise_failures_ne_nil]
  simp only [reported_iff]
  refine ⟨fun seed hseed ↦ ?_, fun hexact hsome ↦ hexact.mpr hsome, fun hunmasked ↦
    ⟨fun ⟨seed, hseed, hcex, _⟩ ↦ ⟨seed, hseed, hcex⟩, hunmasked⟩⟩
  rw [exercise_failures] at hseed
  obtain ⟨hmem, hreported⟩ := List.mem_filter.mp (List.mem_of_mem_take hseed)
  exact ⟨hmem, (reported_iff.mp hreported).1⟩

/-- A failed assert that is followed by a failed assume is not reported. -/
theorem exercise_masks_counterexample :
    let f : UInt64 → Body := fun _ ↦ .assert false (.assume false (.done ()))
    IsCounterexample (execution f 1) ∧ (exercise f 1).2.2 = [] ∧
      ¬∀ (f : UInt64 → Body) (n : UInt64), (exercise f n).2.2 ≠ [] ↔
        ∃ seed ∈ seeds n, IsCounterexample (execution f seed) := by
  intro f
  have hcex : IsCounterexample (execution f 1) := ⟨[], [.assume false], rfl, List.not_mem_nil⟩
  have hsilent : (exercise f 1).2.2 = [] := by decide
  exact ⟨hcex, hsilent, fun hall ↦ (hall f 1).mpr ⟨1, by decide, hcex⟩ hsilent⟩

end Exercise

end RedisCvlr.Driver
