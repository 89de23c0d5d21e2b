import RedisCvlr.Keyspace.Times
import RedisCvlr.Specs.ExpireRules
import RedisCvlr.Specs.Standalone

/-!
# The string rules

The rules of `src/specs/string_rules.rs`, about SET on a standalone master. All three hold whatever
they draw (`stringRules_hold`).
-/

set_option autoImplicit false
set_option relaxedAutoImplicit false

namespace RedisCvlr.Specs

open RedisCvlr.Library RedisCvlr.Model RedisCvlr.Watch RedisCvlr.Keyspace
  RedisCvlr.Transactions

/-! ### The rules -/

/-- `draw_ttl_arg`. -/
def drawTtlArg : Rule TtlArg := do
  match (← nondetRange 3) with
  | 0 => return .none
  | 1 => return .keep
  | _ => return .pxAt (asMs ((← nondet) % 2000000))

/-- `string_set_integrity`: a plain SET stores the value without a time and leaves the other keys
alone. -/
def stringSetIntegrity : Rule Unit := do
  let w : SourceWorld ← World.nondetWorld
  let w := w.pinStandaloneMaster
  let k ← drawKey
  let v ← drawStr
  let pre := w
  let (w, r) := execCmd w 0 (.set k v .always .none false)
  cvlrAssert (r == .ok)
  cvlrAssert (w.slots k).present
  cvlrAssert ((w.slots k).value == .str v)
  cvlrAssert !(w.slots k).hasTtl
  (List.finRange keyCount).forM fun j ↦ do
    if j != k then
      cvlrAssert ((w.slots j).present == (pre.slots j).present)
      cvlrAssert ((w.slots j).expireAt == (pre.slots j).expireAt)

/-- `string_set_ttl_argument`: KEEPTTL keeps the time of a live key, no argument clears it, and PXAT
installs a future time and deletes on an elapsed one. -/
def stringSetTtlArgument : Rule Unit := do
  let w : SourceWorld ← World.nondetWorld
  let w := w.pinStandaloneMaster
  let k ← drawKey
  let v ← drawStr
  let prePresent := (w.slots k).present && !keyIsExpired w k
  let preExpire := (w.slots k).expireAt
  let ttl ← drawTtlArg
  let (w, _) := execCmd w 0 (.set k v .always ttl false)
  match ttl with
  | .none => cvlrAssert ((w.slots k).expireAt == noExpire)
  | .pxAt time =>
    if time ≤ w.clock then cvlrAssert !(w.slots k).present
    else cvlrAssert ((w.slots k).expireAt == time)
  | .keep =>
    if prePresent then cvlrAssert ((w.slots k).expireAt == preExpire)
    else cvlrAssert ((w.slots k).expireAt == noExpire)

/-- `string_set_nx_xx_uses_logical_existence`: NX and XX ask for the logical existence of the key,
and a rejected SET leaves the value of a key that survives. -/
def stringSetNxXxUsesLogicalExistence : Rule Unit := do
  let w : SourceWorld ← World.nondetWorld
  let w := w.pinStandaloneMaster
  let k ← drawKey
  let v ← drawStr
  let logicallyPresent := (w.slots k).present && !keyIsExpired w k
  let preVal := (w.slots k).value
  let nx ← drawBool
  let cond := if nx then SetCond.nx else .xx
  let (w, r) := execCmd w 0 (.set k v cond .none false)
  let applied := r == .ok
  if nx then cvlrAssert (applied == !logicallyPresent)
  else cvlrAssert (applied == logicallyPresent)
  if !applied then
    if (w.slots k).present then cvlrAssert ((w.slots k).value == preVal)

theorem draws_drawTtl :
    Draws (fun ttl ↦ ∀ time, ttl = .pxAt time → 0 ≤ time ∧ time < 2000000) drawTtlArg := by
  refine draws_bind (draws_nondetRange (by decide)) fun n _ ↦ ?_
  split
  · exact draws_pure fun time htime ↦ absurd htime (by simp)
  · exact draws_pure fun time htime ↦ absurd htime (by simp)
  · refine draws_bind draws_nondet fun x _ ↦ draws_pure fun time htime ↦ ?_
    obtain rfl := TtlArg.pxAt.inj htime
    exact asMs_mod_bounds (by decide) x

/-! ### A SET on a standalone master -/

section Set

variable {w : SourceWorld} {k : Fin keyCount} {v : Str} {cond : SetCond} {ttl : TtlArg}

/-- The drawn world of a rule, pinned to a standalone master. -/
structure Pinned (w : SourceWorld) : Prop where
  config_eq : config w = fenceConfig
  clock : 0 ≤ w.clock ∧ w.clock < 1000000
  absent : AbsentEmpty w

theorem pinned_of_drawn {w : SourceWorld} (h : DrawnWorld w) : Pinned w.pinStandaloneMaster where
  config_eq := rfl
  clock := h.clock
  absent k habsent := by
    rcases h.slots k with hslot | ⟨hpresent, -⟩
    · exact hslot
    · exact absurd (habsent.symm.trans hpresent) Bool.false_ne_true

theorem Pinned.sees_eq (h : Pinned w) (k : Fin keyCount) :
    fenceConfig.sees w.clock (w.slots k) = ((w.slots k).present && !keyIsExpired w k) := by
  rw [sees_standalone, keyIsExpired_eq, h.config_eq]

/-- What a SET without GET replies, and the slots that it leaves. -/
theorem Pinned.execSet (h : Pinned w) {w' : SourceWorld} {r : Reply keyCount}
    (hexec : execCmd w 0 (.set k v cond ttl false) = (w', r)) :
    let live := (w.slots k).present && !keyIsExpired w k
    w'.clock = w.clock ∧ (∀ j, j ≠ k → w'.slots j = w.slots j) ∧
      r = (if setAllowed cond live then .ok else .nil) ∧
      w'.slots k =
        if setAllowed cond live then
          if KeyOp.ttlElapsed fenceConfig w.clock ttl then Slot.absent
          else ⟨true, .str v, installedExpire ttl live (w.slots k).expireAt⟩
        else if live then w.slots k else Slot.absent := by
  intro live
  have hop : keyOp? (.set k v cond ttl false : Cmd keyCount clientCount) =
    some (k, .set v cond ttl false) := rfl
  have hlive : fenceConfig.sees w.clock (w.slots k) = live := h.sees_eq k
  have hworld : w' = (execCmd w 0 (.set k v cond ttl false)).1 := by rw [hexec]
  have hreply : r = (execCmd w 0 (.set k v cond ttl false)).2 := by rw [hexec]
  have hpurges : ∀ force, fenceConfig.purges force w.clock (w.slots k) =
      ((w.slots k).present && !live) := by
    intro force
    rw [purges_standalone, ← hlive, sees_standalone]
    cases (w.slots k).present <;> simp
  refine ⟨?_, fun j hj ↦ ?_, ?_, ?_⟩
  · rw [hworld, execCmd_clock]
  · rw [hworld, slots_execCmd w 0 hop, if_neg hj]
  · rw [hreply, execCmd_eq_outcome w 0 hop, h.config_eq, KeyOp.reply, hlive]
    rfl
  · rw [hworld, slots_execCmd w 0 hop, if_pos rfl, h.config_eq,
      slotAfterLookup_standalone (h.absent k), KeyOp.write?, hlive, hpurges]
    have hpresent : live = true → (w.slots k).present = true :=
      fun hlive ↦ (Bool.and_eq_true_iff.mp hlive).1
    cases hallowed : setAllowed cond live with
    | false => rfl
    | true =>
      cases helapsed : KeyOp.ttlElapsed fenceConfig w.clock ttl with
      | false => rfl
      | true =>
        cases hcase : live with
        | false => cases (w.slots k).present <;> rfl
        | true =>
          rw [hpresent hcase]
          rfl

theorem Pinned.elapsed_eq {w : SourceWorld} (time : Ms) :
    KeyOp.elapsed fenceConfig w.clock time = decide (time ≤ w.clock) := by
  rw [KeyOp.elapsed]
  exact Bool.and_true _

end Set

/-! ### The rules on every stream -/

theorem ensures_stringSetIntegrity : Ensures (fun _ ↦ True) stringSetIntegrity := by
  refine meets_drawn draws_nondetWorld fun drawn hdrawn ↦ ?_
  have hpinned := pinned_of_drawn hdrawn
  refine meets_drawn draws_drawKey fun k _ ↦ meets_drawn draws_drawStr fun v _ ↦ ?_
  simp only
  generalize hexec : execCmd drawn.pinStandaloneMaster 0 (.set k v .always .none false) = executed
  obtain ⟨w, r⟩ := executed
  obtain ⟨-, hothers, hreply, hslot⟩ := hpinned.execSet hexec
  have hstored : w.slots k = ⟨true, .str v, noExpire⟩ := hslot
  have hok : r = .ok := hreply
  refine ensures_assert_then (by rw [hok]; rfl) ?_
  refine ensures_assert_then (by rw [hstored]) ?_
  refine ensures_assert_then (by rw [hstored]; exact beq_self_eq_true _) ?_
  refine ensures_assert_then (by rw [hstored]; rfl) ?_
  refine ensures_forM fun j _ ↦ ?_
  by_cases hj : j = k
  · rw [if_neg (by simp [hj])]
    exact ensures_pure trivial
  · rw [if_pos (by simp [hj]), hothers j hj]
    exact ensures_assert_then (beq_self_eq_true _) (ensures_assert (beq_self_eq_true _))

theorem ensures_stringSetTtlArgument : Ensures (fun _ ↦ True) stringSetTtlArgument := by
  refine meets_drawn draws_nondetWorld fun drawn hdrawn ↦ ?_
  have hpinned := pinned_of_drawn hdrawn
  refine meets_drawn draws_drawKey fun k _ ↦ meets_drawn draws_drawStr fun v _ ↦ ?_
  refine meets_drawn draws_drawTtl fun ttl _ ↦ ?_
  simp only
  generalize hexec : execCmd drawn.pinStandaloneMaster 0 (.set k v .always ttl false) = executed
  obtain ⟨w, r⟩ := executed
  obtain ⟨hclock, -, -, hslot⟩ := hpinned.execSet hexec
  cases ttl with
  | none => exact ensures_assert (by rw [hslot]; rfl)
  | pxAt time =>
    simp only [setAllowed, KeyOp.ttlElapsed, Pinned.elapsed_eq, if_true, decide_eq_true_eq] at hslot
    simp only [hclock]
    split_ifs with helapsed
    · rw [if_pos helapsed] at hslot
      exact ensures_assert (by rw [hslot]; rfl)
    · rw [if_neg helapsed] at hslot
      exact ensures_assert (by rw [hslot]; exact beq_self_eq_true _)
  | keep =>
    simp only [setAllowed, KeyOp.ttlElapsed, installedExpire, if_true, Bool.false_eq_true,
      if_false] at hslot
    simp only
    split_ifs with hlive
    · rw [if_pos hlive] at hslot
      exact ensures_assert (by rw [hslot]; exact beq_self_eq_true _)
    · rw [if_neg hlive] at hslot
      exact ensures_assert (by rw [hslot]; exact beq_self_eq_true _)

theorem ensures_stringSetNxXx : Ensures (fun _ ↦ True) stringSetNxXxUsesLogicalExistence := by
  refine meets_drawn draws_nondetWorld fun drawn hdrawn ↦ ?_
  have hpinned := pinned_of_drawn hdrawn
  refine meets_drawn draws_drawKey fun k _ ↦ meets_drawn draws_drawStr fun v _ ↦ ?_
  refine meets_drawn draws_drawBool fun nx _ ↦ ?_
  simp only
  generalize hcond : (if nx then SetCond.nx else .xx) = cond
  generalize hexec : execCmd drawn.pinStandaloneMaster 0 (.set k v cond .none false) = executed
  obtain ⟨w, r⟩ := executed
  obtain ⟨-, -, hreply, hslot⟩ := hpinned.execSet hexec
  generalize hlive : ((drawn.pinStandaloneMaster.slots k).present &&
    !keyIsExpired drawn.pinStandaloneMaster k) = live at hreply hslot ⊢
  have happlied : (r == .ok) = setAllowed cond live := by
    rw [hreply]
    cases setAllowed cond live <;> rfl
  have hrest : Ensures (fun _ ↦ True) (do
      if !(r == .ok) then
        if (w.slots k).present then
          cvlrAssert ((w.slots k).value == (drawn.pinStandaloneMaster.slots k).value)) := by
    split_ifs with hrejected hpresent
    · -- a rejected SET on a key that is live leaves the slot, and otherwise no key survives
      rw [happlied, Bool.not_eq_true'] at hrejected
      rw [hrejected] at hslot
      cases live with
      | true => exact ensures_assert (by rw [hslot]; exact beq_self_eq_true _)
      | false =>
        rw [hslot] at hpresent
        exact absurd hpresent Bool.false_ne_true
    · exact ensures_pure trivial
    · exact ensures_pure trivial
  cases nx with
  | true =>
    subst hcond
    exact ensures_assert_then (by rw [happlied]; exact beq_self_eq_true _) hrest
  | false =>
    subst hcond
    exact ensures_assert_then (by rw [happlied]; exact beq_self_eq_true _) hrest

/-- Whatever they draw, the three rules about SET hold. -/
theorem stringRules_hold (stream : Stream' UInt64) :
    stringSetIntegrity.Holds stream ∧ stringSetTtlArgument.Holds stream ∧
      stringSetNxXxUsesLogicalExistence.Holds stream :=
  ⟨holds_of_ensures ensures_stringSetIntegrity stream,
    holds_of_ensures ensures_stringSetTtlArgument stream,
    holds_of_ensures ensures_stringSetNxXx stream⟩

end RedisCvlr.Specs
