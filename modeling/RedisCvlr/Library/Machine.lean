import Mathlib.Data.List.Induction
import Mathlib.Data.List.Infix
import Mathlib.Tactic.Common

/-!
# Runs of a deterministic labelled machine

A machine is a step function on states and labels together with a guard that says which labels a
state admits. `run` folds the step over a schedule, `Admissible` says that every label of a schedule
is admitted where it is taken, and `Reachable` collects the states of the admissible runs from a set
of starting states.

The rules for proofs about runs are `run_invariant`, the induction on the schedule, its form
`run_preserves` without a guard, `Reachable.invariant`, and `run_provenance`, which finds the step
of a run that made a fact true.
-/

set_option autoImplicit false
set_option relaxedAutoImplicit false

namespace RedisCvlr.Library.Machine

variable {σ ℓ : Type*}

/-- The state after a schedule. -/
def run (step : σ → ℓ → σ) (s : σ) (schedule : List ℓ) : σ := schedule.foldl step s

/-- Every label of the schedule is admitted by the state in which it is taken. -/
def Admissible (step : σ → ℓ → σ) (guard : σ → ℓ → Prop) : σ → List ℓ → Prop
  | _, [] => True
  | s, label :: rest => guard s label ∧ Admissible step guard (step s label) rest

instance Admissible.decidable (step : σ → ℓ → σ) (guard : σ → ℓ → Prop)
    [∀ s label, Decidable (guard s label)] :
    ∀ s schedule, Decidable (Admissible step guard s schedule)
  | _, [] => inferInstanceAs (Decidable True)
  | s, label :: rest =>
    have := decidable step guard (step s label) rest
    inferInstanceAs (Decidable (guard s label ∧ _))

/-- The states of the admissible runs from the starting states. -/
def Reachable (step : σ → ℓ → σ) (guard : σ → ℓ → Prop) (start : σ → Prop) (s : σ) : Prop :=
  ∃ origin schedule, start origin ∧ Admissible step guard origin schedule ∧
    run step origin schedule = s

variable {step : σ → ℓ → σ} {guard : σ → ℓ → Prop} {start : σ → Prop}

@[simp] theorem run_nil (s : σ) : run step s [] = s := rfl

@[simp] theorem run_cons (s : σ) (label : ℓ) (rest : List ℓ) :
    run step s (label :: rest) = run step (step s label) rest := rfl

theorem run_append (s : σ) (first second : List ℓ) :
    run step s (first ++ second) = run step (run step s first) second :=
  List.foldl_append

theorem admissible_append {s : σ} {first second : List ℓ} :
    Admissible step guard s (first ++ second) ↔
      Admissible step guard s first ∧ Admissible step guard (run step s first) second := by
  induction first generalizing s with
  | nil => simp [Admissible]
  | cons label rest ih => simp [Admissible, ih, and_assoc]

/-- A run that a guard admits is admitted by every weaker guard. -/
theorem admissible_mono {weaker : σ → ℓ → Prop}
    (hweaker : ∀ s label, guard s label → weaker s label) {s : σ} {schedule : List ℓ}
    (hadmissible : Admissible step guard s schedule) : Admissible step weaker s schedule := by
  induction schedule generalizing s with
  | nil => trivial
  | cons label rest ih => exact ⟨hweaker s label hadmissible.1, ih hadmissible.2⟩

/-- An invariant that every admitted step preserves holds at the end of every admissible run. -/
theorem run_invariant (I : σ → Prop) (hstep : ∀ s label, guard s label → I s → I (step s label))
    {s : σ} {schedule : List ℓ} (hs : I s) (hadmissible : Admissible step guard s schedule) :
    I (run step s schedule) := by
  induction schedule generalizing s with
  | nil => exact hs
  | cons label rest ih => exact ih (hstep s label hadmissible.1 hs) hadmissible.2

/-- An invariant that every step preserves, admitted or not, holds at the end of every run. -/
theorem run_preserves (I : σ → Prop) (hstep : ∀ s label, I s → I (step s label)) {s : σ}
    (schedule : List ℓ) (hs : I s) : I (run step s schedule) := by
  induction schedule generalizing s with
  | nil => exact hs
  | cons label rest ih => exact ih (hstep s label hs)

/-- An invariant that holds of the starting states and that every admitted step preserves holds of
every reachable state. -/
theorem Reachable.invariant (I : σ → Prop) (hstart : ∀ s, start s → I s)
    (hstep : ∀ s label, guard s label → I s → I (step s label)) {s : σ}
    (hs : Reachable step guard start s) : I s := by
  obtain ⟨origin, schedule, horigin, hadmissible, rfl⟩ := hs
  exact run_invariant I hstep (hstart origin horigin) hadmissible

/-- A fact that a step does not make true, unless it gives birth to it, was true at the start of the
run or was born in it and has been true since. -/
theorem run_provenance (fact : σ → Prop) (born : σ → ℓ → Prop) (origin : σ)
    (hstep : ∀ before label, fact (step (run step origin before) label) →
      fact (run step origin before) ∨ born (run step origin before) label)
    (schedule : List ℓ) (hfact : fact (run step origin schedule)) :
    fact origin ∨ ∃ before label after, schedule = before ++ label :: after ∧
      born (run step origin before) label ∧
      ∀ later, later <+: after → fact (run step origin (before ++ label :: later)) := by
  induction schedule using List.reverseRecOn with
  | nil => exact .inl hfact
  | append_singleton earlier last ih =>
    have hlast : run step origin (earlier ++ [last]) = step (run step origin earlier) last :=
      run_append origin earlier [last]
    have hfact' := hfact
    rw [hlast] at hfact'
    rcases hstep earlier last hfact' with hold | hborn
    · refine (ih hold).imp_right ?_
      rintro ⟨before, label, after, rfl, hborn, hkept⟩
      refine ⟨before, label, after ++ [last], by simp, hborn, fun later hlater ↦ ?_⟩
      rcases List.prefix_concat_iff.mp hlater with rfl | hprefix
      · have hwhole :
            before ++ label :: (after ++ [last]) = (before ++ label :: after) ++ [last] := by
          simp
        rwa [hwhole]
      · exact hkept later hprefix
    · refine .inr ⟨earlier, last, [], rfl, hborn, fun later hlater ↦ ?_⟩
      rwa [List.prefix_nil.mp hlater]

end RedisCvlr.Library.Machine
