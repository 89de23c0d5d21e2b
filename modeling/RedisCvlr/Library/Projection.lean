import RedisCvlr.Library.Stutter

/-!
# Projections of runs

One machine is projected to another by a partial map of labels and a relation of states. A label
that is kept is matched by a step with the same output, and a label that is dropped leaves the
related state as it is (`Projects`). Then a run of the first machine shows at the kept labels what
the projected run shows, and ends in a related state (`Projects.run`). When every label of the
second machine is the projection of some label, runs can be lifted as well (`Projects.lift`). When
every label of the first is kept and the second follows it, the two runs show the same
(`observe_followed`).
-/

set_option autoImplicit false
set_option relaxedAutoImplicit false

namespace RedisCvlr.Library.Machine

variable {σ τ ℓ κ ω : Type*}

/-- The outputs of a run at the labels that a projection keeps. -/
def observeKept (step : σ → ℓ → σ) (out : σ → ℓ → ω) (project : ℓ → Option κ) :
    σ → List ℓ → List ω
  | _, [] => []
  | s, label :: rest =>
    match project label with
    | some _ => out s label :: observeKept step out project (step s label) rest
    | none => observeKept step out project (step s label) rest

/-- A projection of a machine with a guard to another one, along a relation of states. -/
structure Projects (step : σ → ℓ → σ) (out : σ → ℓ → ω) (guard : σ → ℓ → Prop)
    (step' : τ → κ → τ) (out' : τ → κ → ω) (guard' : τ → κ → Prop) (project : ℓ → Option κ)
    (R : σ → τ → Prop) : Prop where
  kept : ∀ {s t label label'}, project label = some label' → guard s label → R s t →
    out s label = out' t label' ∧ R (step s label) (step' t label')
  dropped : ∀ {s t label}, project label = none → guard s label → R s t → R (step s label) t
  admits : ∀ {s t label label'}, project label = some label' → R s t →
    (guard s label ↔ guard' t label')

variable {step : σ → ℓ → σ} {out : σ → ℓ → ω} {guard : σ → ℓ → Prop} {step' : τ → κ → τ}
  {out' : τ → κ → ω} {guard' : τ → κ → Prop} {project : ℓ → Option κ} {R : σ → τ → Prop}

/-- A run and its projection show the same at the kept labels and end in related states, and the
projection is admitted, by induction on the schedule. -/
theorem Projects.run (h : Projects step out guard step' out' guard' project R) {s : σ} {t : τ}
    {schedule : List ℓ} (hst : R s t) (hadmissible : Admissible step guard s schedule) :
    observeKept step out project s schedule =
        observe step' out' t (schedule.filterMap project) ∧
      Admissible step' guard' t (schedule.filterMap project) ∧
      R (Machine.run step s schedule) (Machine.run step' t (schedule.filterMap project)) := by
  induction schedule generalizing s t with
  | nil => exact ⟨rfl, trivial, hst⟩
  | cons label rest ih =>
    cases hproject : project label with
    | none =>
      rw [List.filterMap_cons_none hproject, observeKept, hproject]
      exact ih (h.dropped hproject hadmissible.1 hst) hadmissible.2
    | some label' =>
      obtain ⟨hout, hnext⟩ := h.kept hproject hadmissible.1 hst
      obtain ⟨hobserved, hrest, hend⟩ := ih hnext hadmissible.2
      rw [List.filterMap_cons_some hproject, observeKept, hproject]
      exact ⟨congrArg₂ List.cons hout hobserved,
        ⟨(h.admits hproject hst).mp hadmissible.1, hrest⟩, hend⟩

/-- An admitted run of the second machine is the projection of an admitted run of the first. -/
theorem Projects.lift (h : Projects step out guard step' out' guard' project R) {lift : κ → ℓ}
    (hlift : ∀ label, project (lift label) = some label) {s : σ} {t : τ} {schedule : List κ}
    (hst : R s t) (hadmissible : Admissible step' guard' t schedule) :
    Admissible step guard s (schedule.map lift) ∧
      R (Machine.run step s (schedule.map lift)) (Machine.run step' t schedule) := by
  induction schedule generalizing s t with
  | nil => exact ⟨trivial, hst⟩
  | cons label rest ih =>
    have hguard := (h.admits (hlift label) hst).mpr hadmissible.1
    obtain ⟨hrest, hend⟩ := ih (h.kept (hlift label) hguard hst).2 hadmissible.2
    exact ⟨⟨hguard, hrest⟩, hend⟩

/-- A run that another machine follows label by label shows what that machine shows, and ends in a
related state. -/
theorem observe_followed (follow : ℓ → κ) (R : σ → τ → Prop)
    (hstep : ∀ s t label, guard s label → R s t →
      out s label = out' t (follow label) ∧ R (step s label) (step' t (follow label)))
    {s : σ} {t : τ} {schedule : List ℓ} (hst : R s t)
    (hadmissible : Admissible step guard s schedule) :
    observe step out s schedule = observe step' out' t (schedule.map follow) ∧
      R (Machine.run step s schedule) (Machine.run step' t (schedule.map follow)) := by
  induction schedule generalizing s t with
  | nil => exact ⟨rfl, hst⟩
  | cons label rest ih =>
    obtain ⟨hout, hnext⟩ := hstep s t label hadmissible.1 hst
    obtain ⟨hobserved, hend⟩ := ih hnext hadmissible.2
    exact ⟨congrArg₂ List.cons hout hobserved, hend⟩

end RedisCvlr.Library.Machine
