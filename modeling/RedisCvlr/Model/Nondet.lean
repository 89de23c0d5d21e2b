import RedisCvlr.Library.Programs
import RedisCvlr.Model.Cmd

/-!
# Drawn worlds

The draws of `src/model/state.rs` and `src/model/step.rs`. A `#[rule]` body is a program that draws
`u64` values, and assumes and asserts conditions. `World.nondetWorld` draws its values in the order
in which the source evaluates them: a drawn world is an empty world up to its clock, role, caller
and slots, and an absent slot of it carries no time.
-/

set_option autoImplicit false
set_option relaxedAutoImplicit false

namespace RedisCvlr.Model

open RedisCvlr.Library

variable {K C : ℕ}

/-- Rule bodies, and the functions that draw for them. -/
abbrev Rule := Program UInt64

/-- The conditions that a rule asserts on a stream, in program order. -/
def Rule.assertions (rule : Rule Unit) (stream : Stream' UInt64) : List Bool :=
  (rule.events stream).filterMap fun
    | .assert c => some c
    | .assume _ => none

/-- The rule holds on a stream: every asserted condition is true. -/
def Rule.Holds (rule : Rule Unit) (stream : Stream' UInt64) : Prop :=
  ∀ condition ∈ rule.assertions stream, condition = true

/-- `nondet::<u64>()`: the next value of the stream. -/
def nondet : Rule UInt64 := .draw .done

/-- `cvlr_assume!`. -/
def cvlrAssume (condition : Bool) : Rule Unit := .assume condition (.done ())

/-- `cvlr_assert!`. -/
def cvlrAssert (condition : Bool) : Rule Unit := .assert condition (.done ())

/-- `nondet_range`. -/
def nondetRange (n : UInt64) : Rule UInt64 := do
  return (← nondet) % n

/-- A `u64` below `2 ^ 63` as an `i64`; every value the source converts is below `2 · 10 ^ 6`. -/
def asMs (x : UInt64) : Ms := x.toNat

/-- `draw_key`. -/
def drawKey [NeZero K] : Rule (Fin K) := do
  return Fin.ofNat K (← nondet).toNat

/-- `draw_bool`. -/
def drawBool : Rule Bool := do
  return (← nondet) % 2 == 0

/-- `draw_str`: one of four values. -/
def drawStr : Rule Str := do
  let id := ((← nondet) % 4).toUInt8
  return ⟨fun _ ↦ id, id.toNat % (valueLength + 1)⟩

/-- The four values that `draw_str` draws. -/
def drawnStr (id : Fin 4) : Str := ⟨fun _ ↦ UInt8.ofNat id.val, id.val⟩

/-- `draw_clock`. -/
def drawClock : Rule Ms := do
  return asMs ((← nondet) % 1000000)

/-- `draw_expire_at`. -/
def drawExpireAt : Rule Ms := do
  if (← drawBool) then return noExpire
  else return asMs ((← nondet) % 2000000)

/-- `draw_set_cond`. -/
def drawSetCond : Rule SetCond := do
  match (← nondetRange 3) with
  | 0 => return .always
  | 1 => return .nx
  | _ => return .xx

/-- `draw_expire_cond`. -/
def drawExpireCond : Rule ExpireCond := do
  match (← nondetRange 5) with
  | 0 => return .none
  | 1 => return .nx
  | 2 => return .xx
  | 3 => return .gt
  | _ => return .lt

/-- The slot of one key of a drawn world. -/
def drawSlot : Rule Slot := do
  if (← drawBool) then
    let s ← drawStr
    let expireAt ← drawExpireAt
    return ⟨true, .str s, expireAt⟩
  else return Slot.absent

/-- The slots of a drawn world, one key after the other. -/
def drawSlots : List (Fin K) → World K C → Rule (World K C)
  | [], w => return w
  | k :: rest, w => do
    let s ← drawSlot
    drawSlots rest (w.setSlot k s)

/-- `World::nondet_world`. -/
def World.nondetWorld : Rule (World K C) := do
  let clock ← drawClock
  let role := if (← drawBool) then Role.master else .readOnlyReplica
  let caller := if (← drawBool) then Caller.normal else .masterLink
  drawSlots (List.finRange K) { World.empty clock with role := role, caller := caller }

/-! ### The drawn values -/

theorem mod_four_lt (x : UInt64) : (x % 4).toNat < 4 := by
  rw [UInt64.toNat_mod]
  exact Nat.mod_lt _ (by decide)

/-- `draw_str` picks one of the four values. -/
theorem drawStr_eq :
    drawStr = nondet >>= fun x ↦ pure (drawnStr ⟨(x % 4).toNat, mod_four_lt x⟩) := by
  refine bind_congr fun x ↦ congrArg pure ?_
  have hlt : (x % 4).toNat < 4 := mod_four_lt x
  have hbyte : (x % 4).toUInt8.toNat = (x % 4).toNat := by
    rw [UInt64.toNat_toUInt8]
    exact Nat.mod_eq_of_lt (by omega)
  have hid : (x % 4).toUInt8 = UInt8.ofNat (x % 4).toNat := by
    rw [← UInt8.toNat_inj, hbyte, UInt8.toNat_ofNat_of_lt' (lt_trans hlt (by decide))]
  rw [drawnStr, hbyte, hid, Nat.mod_eq_of_lt (lt_trans hlt (by decide))]

/-! ### What the draws give -/

/-- A slot in the range of `drawSlot`. -/
def DrawnSlot (s : Slot) : Prop :=
  s = Slot.absent ∨ (s.present = true ∧
    (s.expireAt = noExpire ∨ (0 ≤ s.expireAt ∧ s.expireAt < 2000000)))

/-- A world in the range of `World.nondetWorld`. -/
structure DrawnWorld (w : World K C) : Prop where
  frame : ∃ slots role caller,
    w = { World.empty w.clock with slots := slots, role := role, caller := caller }
  clock : 0 ≤ w.clock ∧ w.clock < 1000000
  slots : ∀ k, DrawnSlot (w.slots k)

section Draws

theorem draws_nondet : Draws (fun _ ↦ True) nondet := meets_draw

theorem toNat_mod_lt {n : UInt64} (hpos : 0 < n) (x : UInt64) : (x % n).toNat < n.toNat := by
  rw [UInt64.toNat_mod]
  exact Nat.mod_lt _ hpos

theorem asMs_mod_bounds {n : UInt64} (hpos : 0 < n) (x : UInt64) :
    0 ≤ asMs (x % n) ∧ asMs (x % n) < n.toNat :=
  ⟨Int.natCast_nonneg _, Int.ofNat_lt.mpr (toNat_mod_lt hpos x)⟩

theorem draws_nondetRange {n : UInt64} (hpos : 0 < n) :
    Draws (fun x ↦ x.toNat < n.toNat) (nondetRange n) :=
  draws_bind draws_nondet fun x _ ↦ draws_pure (toNat_mod_lt hpos x)

theorem draws_drawKey [NeZero K] : Draws (fun _ ↦ True) (drawKey : Rule (Fin K)) :=
  draws_bind draws_nondet fun _ _ ↦ draws_pure trivial

theorem draws_drawBool : Draws (fun _ ↦ True) drawBool :=
  draws_bind draws_nondet fun _ _ ↦ draws_pure trivial

/-- A drawn string is one of the four values. -/
theorem draws_drawStr : Draws (fun val ↦ ∃ id, val = drawnStr id) drawStr := by
  rw [drawStr_eq]
  exact draws_bind draws_nondet fun x _ ↦ draws_pure ⟨_, rfl⟩

theorem draws_drawClock : Draws (fun clock ↦ 0 ≤ clock ∧ clock < 1000000) drawClock :=
  draws_bind draws_nondet fun x _ ↦ draws_pure (asMs_mod_bounds (by decide) x)

theorem draws_drawExpireAt : Draws (fun time ↦ time = noExpire ∨ (0 ≤ time ∧ time < 2000000))
    drawExpireAt := by
  refine draws_bind draws_drawBool fun persistent _ ↦ ?_
  split_ifs
  · exact draws_pure (.inl rfl)
  · exact draws_bind draws_nondet fun x _ ↦ draws_pure (.inr (asMs_mod_bounds (by decide) x))

theorem draws_drawSetCond : Draws (fun _ ↦ True) drawSetCond := by
  refine draws_bind (draws_nondetRange (by decide)) fun n _ ↦ ?_
  split <;> exact draws_pure trivial

theorem draws_drawExpireCond : Draws (fun _ ↦ True) drawExpireCond := by
  refine draws_bind (draws_nondetRange (by decide)) fun n _ ↦ ?_
  split <;> exact draws_pure trivial

theorem draws_drawSlot : Draws DrawnSlot drawSlot := by
  refine draws_bind draws_drawBool fun present _ ↦ ?_
  split_ifs
  · refine draws_bind draws_drawStr fun s _ ↦ draws_bind draws_drawExpireAt fun time htime ↦ ?_
    exact draws_pure (.inr ⟨rfl, htime⟩)
  · exact draws_pure (.inl rfl)

/-- Drawing slots changes nothing else, and all slots keep a property that the drawn ones have, by
induction on the keys. -/
theorem draws_drawSlots {P : Slot → Prop} (hslot : Draws P drawSlot) (ks : List (Fin K))
    {w : World K C} (h : ∀ k, P (w.slots k)) :
    Draws (fun w' ↦ (∃ slots, w' = { w with slots := slots }) ∧ ∀ k, P (w'.slots k))
      (drawSlots ks w) := by
  induction ks generalizing w with
  | nil => exact draws_pure ⟨⟨w.slots, rfl⟩, h⟩
  | cons k rest ih =>
    refine draws_bind hslot fun s hs ↦ ?_
    have hset : ∀ k', P ((w.setSlot k s).slots k') := by
      intro k'
      by_cases hk : k' = k
      · subst hk
        exact (congrArg P (Function.update_self ..)).mpr hs
      · exact (congrArg P (Function.update_of_ne hk ..)).mpr (h k')
    refine draws_mono (ih hset) ?_
    rintro w' ⟨⟨slots, hframe⟩, hslots⟩
    exact ⟨⟨slots, hframe⟩, hslots⟩

/-- A drawn world is an empty one up to its clock, role, caller and slots; the slots have a property
that drawn slots have. -/
theorem draws_nondetWorld_of {P : Slot → Prop} (hslot : Draws P drawSlot)
    (habsent : P Slot.absent) :
    Draws (fun w : World K C ↦
      (∃ slots role caller,
        w = { World.empty w.clock with slots := slots, role := role, caller := caller }) ∧
      (0 ≤ w.clock ∧ w.clock < 1000000) ∧ ∀ k, P (w.slots k)) World.nondetWorld := by
  refine draws_bind draws_drawClock fun clock hclock ↦ ?_
  refine draws_bind draws_drawBool fun _ _ ↦ draws_bind draws_drawBool fun _ _ ↦ ?_
  refine draws_mono (draws_drawSlots hslot _ fun _ ↦ habsent) ?_
  rintro _ ⟨⟨slots, rfl⟩, hslots⟩
  exact ⟨⟨slots, _, _, rfl⟩, hclock, hslots⟩

theorem draws_nondetWorld : Draws DrawnWorld (World.nondetWorld : Rule (World K C)) :=
  draws_mono (draws_nondetWorld_of draws_drawSlot (.inl rfl)) fun _ h ↦ ⟨h.1, h.2.1, h.2.2⟩

end Draws

/-! ### Rules that hold -/

/-- A rule holds exactly when no assert of it fails. -/
theorem holds_iff (rule : Rule Unit) (stream : Stream' UInt64) :
    rule.Holds stream ↔ .assert false ∉ rule.events stream := by
  have hmem : ∀ c, c ∈ rule.assertions stream ↔ .assert c ∈ rule.events stream := by
    intro c
    rw [Rule.assertions, List.mem_filterMap]
    constructor
    · rintro ⟨e, he, hc⟩
      cases e with
      | assume c' => exact absurd hc (Option.some_ne_none c).symm
      | assert c' => exact Option.some.inj hc ▸ he
    · exact fun he ↦ ⟨_, he, rfl⟩
  rw [Rule.Holds, ← hmem]
  simp

/-- A rule that only asserts. -/
theorem assertions_of_events {rule : Rule Unit} {stream : Stream' UInt64} {conditions : List Bool}
    (h : rule.events stream = conditions.map .assert) : rule.assertions stream = conditions := by
  rw [Rule.assertions, h, List.filterMap_map]
  exact List.filterMap_some

/-- A rule whose conditions are all true holds. -/
theorem holds_of_ensures {rule : Rule Unit} (h : Ensures (fun _ ↦ True) rule)
    (stream : Stream' UInt64) : rule.Holds stream :=
  (holds_iff rule stream).mpr fun hmem ↦ Bool.false_ne_true ((h stream).2 _ hmem)

end RedisCvlr.Model
