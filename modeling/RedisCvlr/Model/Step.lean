import RedisCvlr.Model.Cmd

/-!
# Steps

The steps of `src/model/step.rs`: one command or one active expire cycle is an execution unit, and
time passes only between units.
-/

set_option autoImplicit false
set_option relaxedAutoImplicit false

namespace RedisCvlr.Model

variable {K C : ℕ}

/-- One atomic step of a schedule. -/
inductive Step (K C : ℕ)
  | cmd (client : Fin C) (command : Cmd K C)
  | activeExpire
  | clockTick (d : Ms)
  deriving DecidableEq

/-- `enter_execution_unit`: the outermost unit resets the dirty counter. -/
def enterExecutionUnit (w : World K C) : World K C :=
  let w := { w with nesting := w.nesting + 1 }
  if w.nesting == 1 then { w with dirty := 0 } else w

/-- `exit_execution_unit`. -/
def exitExecutionUnit (w : World K C) : World K C :=
  if w.nesting > 0 then { w with nesting := w.nesting - 1 } else w

/-- `step`: runs one step, inside an execution unit unless time passes. -/
def step (w : World K C) : Step K C → World K C × Option (Reply K)
  | .cmd c command =>
    let (w, r) := execCmd (enterExecutionUnit w) c command
    (exitExecutionUnit w, some r)
  | .activeExpire => (exitExecutionUnit (activeExpireCycle (enterExecutionUnit w)), none)
  | .clockTick d => ({ w with clock := wrapI64 (w.clock + d) }, none)

/-- The world after a step. -/
def World.next (w : World K C) (s : Step K C) : World K C := (step w s).1

end RedisCvlr.Model
