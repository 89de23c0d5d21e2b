import RedisCvlr.Library.Machine

/-!
# Hidden steps

Two runs of one machine, where the second takes extra labels that the first does not. A relation
that the common labels preserve with equal outputs, and that an extra label of the second run keeps,
makes the two runs observably equal at every common label (`observe_extra`).
-/

set_option autoImplicit false
set_option relaxedAutoImplicit false

namespace RedisCvlr.Library.Machine

variable {σ ℓ ω : Type*}

/-- A label of the second run: common to both runs, or extra. -/
inductive Mark (ℓ : Type*)
  | common (label : ℓ)
  | extra (label : ℓ)

/-- The labels of the first run. -/
def commonLabels : List (Mark ℓ) → List ℓ
  | [] => []
  | .common label :: rest => label :: commonLabels rest
  | .extra _ :: rest => commonLabels rest

/-- The labels of the second run. -/
def allLabels : List (Mark ℓ) → List ℓ
  | [] => []
  | .common label :: rest => label :: allLabels rest
  | .extra label :: rest => label :: allLabels rest

/-- The outputs of a run. -/
def observe (step : σ → ℓ → σ) (out : σ → ℓ → ω) : σ → List ℓ → List ω
  | _, [] => []
  | s, label :: rest => out s label :: observe step out (step s label) rest

/-- The outputs of the second run at its common labels. -/
def observeCommon (step : σ → ℓ → σ) (out : σ → ℓ → ω) : σ → List (Mark ℓ) → List ω
  | _, [] => []
  | s, .common label :: rest => out s label :: observeCommon step out (step s label) rest
  | s, .extra label :: rest => observeCommon step out (step s label) rest

/-- Every extra label is hidden in the state in which the second run takes it. -/
def ExtrasHidden (step : σ → ℓ → σ) (hidden : σ → ℓ → Prop) : σ → List (Mark ℓ) → Prop
  | _, [] => True
  | s, .common label :: rest => ExtrasHidden step hidden (step s label) rest
  | s, .extra label :: rest => hidden s label ∧ ExtrasHidden step hidden (step s label) rest

variable {step : σ → ℓ → σ} {out : σ → ℓ → ω} {guard hidden : σ → ℓ → Prop}

/-- A run with hidden extra labels gives the outputs of the run without them, and ends in a related
state. -/
theorem observe_extra (R : σ → σ → Prop)
    (hcommon : ∀ s t label, guard t label → R s t →
      out t label = out s label ∧ R (step s label) (step t label))
    (hextra : ∀ s t label, hidden t label → R s t → R s (step t label))
    {s t : σ} {marks : List (Mark ℓ)} (hst : R s t)
    (hadmissible : Admissible step guard t (allLabels marks))
    (hhidden : ExtrasHidden step hidden t marks) :
    observeCommon step out t marks = observe step out s (commonLabels marks) ∧
      R (run step s (commonLabels marks)) (run step t (allLabels marks)) := by
  induction marks generalizing s t with
  | nil => exact ⟨rfl, hst⟩
  | cons mark rest ih =>
    cases mark with
    | common label =>
      obtain ⟨hout, hnext⟩ := hcommon s t label hadmissible.1 hst
      obtain ⟨hrest, hend⟩ := ih hnext hadmissible.2 hhidden
      refine ⟨?_, hend⟩
      show out t label :: _ = out s label :: _
      rw [hout, hrest]
    | extra label => exact ih (hextra s t label hhidden.1 hst) hadmissible.2 hhidden.2

end RedisCvlr.Library.Machine
