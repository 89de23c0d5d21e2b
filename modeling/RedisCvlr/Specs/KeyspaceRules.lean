import RedisCvlr.Specs.StringRules

/-!
# The keyspace rules

The rules of `src/specs/keyspace_rules.rs`. The first is the only rule of the source that assumes
something: that no absent slot of the drawn world carries a time. No drawn world violates it, so the
rule is not vacuous, and all three rules hold whatever they draw (`keyspaceRules_hold`).
-/

set_option autoImplicit false
set_option relaxedAutoImplicit false

namespace RedisCvlr.Specs

open RedisCvlr.Library RedisCvlr.Model RedisCvlr.Watch RedisCvlr.Keyspace
  RedisCvlr.Transactions

variable {K C : ℕ}

/-! ### The rules -/

/-- `draw_client`. -/
def drawClient [NeZero C] : Rule (Fin C) := do
  return Fin.ofNat C (← nondet).toNat

/-- `draw_cmd`. -/
def drawCmd [NeZero K] (c : Fin C) : Rule (Cmd K C) := do
  let k ← drawKey
  match (← nondetRange 10) with
  | 0 =>
    let val ← drawStr
    let cond ← drawSetCond
    let ttl ← drawTtlArg
    let get ← drawBool
    return .set k val cond ttl get
  | 1 => return .get k
  | 2 => return .del k
  | 3 => return .existsKey k
  | 4 =>
    let time ← nondetRange 2000000
    let cond ← drawExpireCond
    return .expire k (asMs time) cond
  | 5 => return .persist k
  | 6 => return .pttl k
  | 7 => return .keys
  | 8 => return .dbSize
  | _ => return .watch c k

/-- `keyspace_expires_subset_of_keys`: no command leaves an absent slot with a time. -/
def keyspaceExpiresSubsetOfKeys : Rule Unit := do
  let w : SourceWorld ← World.nondetWorld
  let w := w.pinStandaloneMaster
  (List.finRange keyCount).forM fun i ↦
    cvlrAssume ((w.slots i).present || !(w.slots i).hasTtl)
  let c ← drawClient
  let command ← drawCmd c
  let w := w.next (.cmd c command)
  (List.finRange keyCount).forM fun j ↦
    cvlrAssert ((w.slots j).present || !(w.slots j).hasTtl)

/-- `keyspace_active_expiry_only_removes`: the active cycle creates no key, changes no survivor and
removes due keys only. -/
def keyspaceActiveExpiryOnlyRemoves : Rule Unit := do
  let w : SourceWorld ← World.nondetWorld
  let w := w.pinStandaloneMaster
  let pre := w
  let w := activeExpireCycle w
  (List.finRange keyCount).forM fun i ↦ do
    cvlrAssert !((w.slots i).present && !(pre.slots i).present)
    if (w.slots i).present then
      cvlrAssert ((w.slots i).value == (pre.slots i).value)
      cvlrAssert ((w.slots i).expireAt == (pre.slots i).expireAt)
    if (pre.slots i).present && !(w.slots i).present then
      cvlrAssert (pre.slots i).hasTtl
      cvlrAssert (decide ((pre.slots i).expireAt ≤ pre.clock))

/-- `keyspace_dbsize_counts_physical`: DBSIZE counts the present slots and changes nothing. -/
def keyspaceDbsizeCountsPhysical : Rule Unit := do
  let w : SourceWorld ← World.nondetWorld
  let w := w.pinStandaloneMaster
  let pre := w
  let (w, r) := execCmd w 0 .dbSize
  let expected :=
    (List.finRange keyCount).foldl (fun n i ↦ if (pre.slots i).present then n + 1 else n) (0 : ℤ)
  cvlrAssert (r == .int expected)
  (List.finRange keyCount).forM fun j ↦
    cvlrAssert ((w.slots j).present == (pre.slots j).present)
  cvlrAssert (w.repl.len == pre.repl.len)

/-! ### The rules on every stream -/

section Rules

theorem draws_drawClient [NeZero C] : Draws (fun _ ↦ True) (drawClient : Rule (Fin C)) :=
  draws_bind draws_nondet fun _ _ ↦ draws_pure trivial

/-- A command that asks for no time, or for one in the range of the draws. -/
def AsksDrawn (command : Cmd K C) : Prop :=
  ∀ c, ∀ target ∈ requestedTime? (.cmd c command), 0 ≤ target.2 ∧ target.2 < 2000000

theorem draws_drawCmd [NeZero K] (c : Fin C) : Draws AsksDrawn (drawCmd c : Rule (Cmd K C)) := by
  have hnone : ∀ command : Cmd K C, (∀ c, requestedTime? (.cmd c command) = none) →
      Draws AsksDrawn (pure command : Rule (Cmd K C)) := by
    intro command hcommand
    refine draws_pure fun c target htarget ↦ ?_
    rw [hcommand c] at htarget
    exact absurd htarget (Option.not_mem_none target)
  refine draws_bind draws_drawKey fun k _ ↦ draws_bind (draws_nondetRange (by decide)) fun n _ ↦ ?_
  split
  · refine draws_bind draws_drawStr fun val _ ↦ draws_bind draws_drawSetCond fun cond _ ↦ ?_
    refine draws_bind draws_drawTtl fun ttl httl ↦ draws_bind draws_drawBool fun get _ ↦ ?_
    refine draws_pure fun c target htarget ↦ ?_
    cases ttl with
    | none => exact absurd htarget (Option.not_mem_none target)
    | keep => exact absurd htarget (Option.not_mem_none target)
    | pxAt time =>
      obtain rfl := Option.mem_some.mp htarget
      exact httl time rfl
  · exact hnone _ fun _ ↦ rfl
  · exact hnone _ fun _ ↦ rfl
  · exact hnone _ fun _ ↦ rfl
  · refine draws_bind (draws_nondetRange (by decide)) fun time htime ↦ ?_
    refine draws_bind draws_drawExpireCond fun cond _ ↦ draws_pure fun c target htarget ↦ ?_
    obtain rfl := Option.mem_some.mp htarget
    exact ⟨Int.natCast_nonneg _, Int.ofNat_lt.mpr htime⟩
  · exact hnone _ fun _ ↦ rfl
  · exact hnone _ fun _ ↦ rfl
  · exact hnone _ fun _ ↦ rfl
  · exact hnone _ fun _ ↦ rfl
  · exact hnone _ fun _ ↦ rfl

theorem expiresSubset_of_absentEmpty {w : World K C} (h : AbsentEmpty w) (k : Fin K) :
    ((w.slots k).present || !(w.slots k).hasTtl) = true := by
  cases hpresent : (w.slots k).present with
  | false =>
    rw [h k hpresent]
    rfl
  | true => rfl

theorem ensures_keyspaceExpiresSubset : Ensures (fun _ ↦ True) keyspaceExpiresSubsetOfKeys := by
  refine meets_drawn draws_nondetWorld fun drawn hdrawn ↦ ?_
  have hempty := (pinned_of_drawn hdrawn).absent
  refine ensures_bind (ensures_forM fun i _ ↦ ?_) fun _ _ ↦ ?_
  · exact ensures_assume (expiresSubset_of_absentEmpty hempty i)
  refine meets_drawn draws_drawClient fun c _ ↦ meets_drawn (draws_drawCmd c) fun command _ ↦ ?_
  refine ensures_forM fun j _ ↦ ?_
  exact ensures_assert (expiresSubset_of_absentEmpty (hempty.next _) j)

theorem ensures_keyspaceActiveExpiry :
    Ensures (fun _ ↦ True) keyspaceActiveExpiryOnlyRemoves := by
  refine meets_drawn draws_nondetWorld fun drawn hdrawn ↦ ensures_forM fun i _ ↦ ?_
  have hpinned := pinned_of_drawn hdrawn
  rw [slots_activeExpireCycle hpinned.config_eq]
  cases hdue : isDue drawn.pinStandaloneMaster i with
  | false =>
    -- the slot is what it was
    simp only [Bool.false_eq_true, if_false]
    generalize drawn.pinStandaloneMaster.slots i = slot
    cases hpresent : slot.present with
    | false => exact ensures_assert_then rfl (ensures_pure trivial)
    | true =>
      refine ensures_assert_then rfl (ensures_assert_then (beq_self_eq_true _) ?_)
      exact ensures_assert_then (beq_self_eq_true _) (ensures_pure trivial)
  | true =>
    rw [isDue_eq, Bool.and_eq_true, Bool.and_eq_true] at hdue
    obtain ⟨⟨hpresent, httl⟩, hpassed⟩ := hdue
    simp only [if_true, hpresent]
    exact ensures_assert_then rfl (ensures_assert_then httl (ensures_assert hpassed))

theorem ensures_keyspaceDbsize : Ensures (fun _ ↦ True) keyspaceDbsizeCountsPhysical := by
  refine meets_drawn draws_nondetWorld fun drawn _ ↦ ?_
  refine ensures_assert_then (beq_self_eq_true _) ?_
  refine ensures_bind (ensures_forM fun j _ ↦ ?_) fun _ _ ↦ ?_
  · exact ensures_assert (beq_self_eq_true _)
  · exact ensures_assert (beq_self_eq_true _)

/-- Whatever they draw, the three rules about the keyspace hold, and the assumes of the first never
reject anything. -/
theorem keyspaceRules_hold (stream : Stream' UInt64) :
    (∀ e ∈ keyspaceExpiresSubsetOfKeys.events stream, Event.condition e = true) ∧
      keyspaceActiveExpiryOnlyRemoves.Holds stream ∧ keyspaceDbsizeCountsPhysical.Holds stream :=
  ⟨(ensures_keyspaceExpiresSubset stream).2,
    holds_of_ensures ensures_keyspaceActiveExpiry stream,
    holds_of_ensures ensures_keyspaceDbsize stream⟩

end Rules

end RedisCvlr.Specs
