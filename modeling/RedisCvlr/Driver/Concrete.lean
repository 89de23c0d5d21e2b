import RedisCvlr.Library.Programs

/-!
# The concrete driver

The `CVT_*` functions of `src/driver/concrete.rs` over an explicit state, which is that of the
thread-local cells, and the loop of `exercise`. A rule body is known to the driver by its calls
only, so it is a program that draws, assumes and asserts. The calls to `CVT_satisfy`, `CVT_sanity`
and the trace functions do nothing and are left out.
-/

set_option autoImplicit false
set_option relaxedAutoImplicit false

namespace RedisCvlr.Driver

open RedisCvlr.Library

/-! ### The thread-local state -/

/-- `STREAM`, `REJECTED`, `FAILED` and `DRAWS`. -/
structure DriverState where
  stream : UInt64
  rejected : Bool
  failed : Bool
  draws : UInt64
  deriving DecidableEq

/-- The three xorshift steps of `next_u64`. -/
def xorShifts (x : UInt64) : UInt64 :=
  let x := x ^^^ x >>> 12
  let x := x ^^^ x <<< 25
  x ^^^ x >>> 27

/-- `next_u64`. -/
def nextU64 (s : DriverState) : UInt64 × DriverState :=
  let x := if s.stream == 0 then 0x9E3779B97F4A7C15 else s.stream
  let x := xorShifts x
  (x * 0x2545F4914F6CDD1D, { s with stream := x })

/-- `begin`, whose result does not depend on the state before. -/
def beginExecution (seed : UInt64) : DriverState where
  stream := seed ||| 1
  rejected := false
  failed := false
  draws := 0

/-- `Outcome`. -/
structure Outcome where
  rejected : Bool
  failed : Bool
  draws : UInt64
  deriving DecidableEq

/-- `end`. -/
def endExecution (s : DriverState) : Outcome := ⟨s.rejected, s.failed, s.draws⟩

/-- `CVT_nondet_u64`. -/
def cvtNondetU64 (s : DriverState) : UInt64 × DriverState :=
  nextU64 { s with draws := s.draws + 1 }

/-- `CVT_assume`. -/
def cvtAssume (c : Bool) (s : DriverState) : DriverState :=
  if !c then { s with rejected := true } else s

/-- `CVT_assert`: an assert on a rejected path proves nothing. -/
def cvtAssert (c : Bool) (s : DriverState) : DriverState :=
  if !c && !s.rejected then { s with failed := true } else s

/-- The values that successive calls of `CVT_nondet_u64` return. -/
def drawn (s : DriverState) : Stream' UInt64 := Stream'.corec' cvtNondetU64 s

/-- The values that an execution draws. -/
def nondetStream (seed : UInt64) : Stream' UInt64 := drawn (beginExecution seed)

theorem head_drawn (s : DriverState) : (drawn s).head = (cvtNondetU64 s).1 := rfl

theorem tail_drawn (s : DriverState) : (drawn s).tail = drawn (cvtNondetU64 s).2 := by
  rw [drawn, Stream'.corec'_eq, Stream'.tail_cons]
  rfl

/-- What is drawn depends on the stream cell only. -/
theorem drawn_congr {s s' : DriverState} (hstream : s.stream = s'.stream) : drawn s = drawn s' := by
  have hnext : ∀ {s s' : DriverState}, s.stream = s'.stream →
      (cvtNondetU64 s).1 = (cvtNondetU64 s').1 ∧
        (cvtNondetU64 s).2.stream = (cvtNondetU64 s').2.stream := by
    intro s s' hstream
    simp only [cvtNondetU64, nextU64, hstream, and_self]
  refine Stream'.ext fun i ↦ ?_
  induction i generalizing s s' with
  | zero => exact (hnext hstream).1
  | succ i ih =>
    rw [Stream'.get_succ, Stream'.get_succ, tail_drawn, tail_drawn]
    exact ih (hnext hstream).2

/-! ### Rule bodies -/

/-- What a rule body does: it returns, or calls a function of the driver and goes on. -/
abbrev Body := Program UInt64 Unit

/-- The state after a body has run. -/
def Body.run : Body → DriverState → DriverState
  | .done _, s => s
  | .draw next, s => Body.run (next (cvtNondetU64 s).1) (cvtNondetU64 s).2
  | .assume c next, s => Body.run next (cvtAssume c s)
  | .assert c next, s => Body.run next (cvtAssert c s)

/-- The seeds `1..=n`. -/
def seeds (n : UInt64) : List UInt64 := (List.range n.toNat).map fun i ↦ UInt64.ofNat (i + 1)

/-- What `exercise` counts. -/
structure Tally where
  rejected : UInt64
  failures : List UInt64
  deriving DecidableEq

/-- One round of the loop of `exercise`. At most eight failing seeds are kept. -/
def exerciseOne (f : UInt64 → Body) (tally : Tally) (seed : UInt64) : Tally :=
  let o := endExecution ((f seed).run (beginExecution seed))
  if o.rejected then { tally with rejected := tally.rejected + 1 }
  else if o.failed then
    if tally.failures.length < 8 then { tally with failures := tally.failures ++ [seed] } else tally
  else tally

/-- `exercise`, without the name that it ignores, where `f seed` is what the body does in the
execution with the given seed. -/
def exercise (f : UInt64 → Body) (n : UInt64) : UInt64 × UInt64 × List UInt64 :=
  let tally := (seeds n).foldl (exerciseOne f) ⟨0, []⟩
  (n, tally.rejected, tally.failures)

end RedisCvlr.Driver
