import RedisCvlr.Specs.StringRules

/-!
# The live-key rules

The other three rules of `src/specs/expire_rules.rs` build a key that a lookup finds: its time is
the present one, it has no time or a future one, or its time has passed and the caller is the
replication link. All three hold whatever they draw (`liveKeyRules_hold`).
-/

set_option autoImplicit false
set_option relaxedAutoImplicit false

namespace RedisCvlr.Specs

open RedisCvlr.Library RedisCvlr.Model RedisCvlr.Watch RedisCvlr.Keyspace
  RedisCvlr.Transactions

/-! ### The rules -/

/-- `expire_lazy_active_boundary`: at the expire time itself a lookup still finds the key, and the
active cycle deletes it. -/
def expireLazyActiveBoundary : Rule Unit := do
  let w : SourceWorld ← World.nondetWorld
  let w := w.pinStandaloneMaster
  let k ← drawKey
  let w := w.setSlot k { w.slots k with present := true, expireAt := w.clock }
  cvlrAssert !(keyIsExpired w k)
  cvlrAssert (activeCycleWouldExpire w k)
  let (w, g) := execCmd w 0 (.get k)
  cvlrAssert (g != .nil)
  cvlrAssert (w.slots k).present
  let w := activeExpireCycle w
  cvlrAssert !(w.slots k).present

/-- `w.clock + 1 + (offset as Ms)`. -/
def laterTime (clock : Ms) (offset : UInt64) : Ms := wrapI64 (wrapI64 (clock + 1) + asMs offset)

/-- The time that `expire_condition_semantics` gives the key: none, or a future one. -/
def drawLiveTime (clock : Ms) : Rule Ms := do
  if (← drawBool) then return noExpire
  else return laterTime clock (← nondetRange 1000)

/-- When an EXPIRE with a condition is expected to apply, with no time as infinity. -/
def expectedApplied (cond : ExpireCond) (current time : Ms) : Bool :=
  match cond with
  | .none => true
  | .nx => current == noExpire
  | .xx => current != noExpire
  | .gt => current != noExpire && decide (time > current)
  | .lt => current == noExpire || decide (time < current)

/-- `expire_condition_semantics`: an EXPIRE applies exactly when its condition holds, and otherwise
leaves the time. -/
def expireConditionSemantics : Rule Unit := do
  let w : SourceWorld ← World.nondetWorld
  let w := w.pinStandaloneMaster
  let k ← drawKey
  let current ← drawLiveTime w.clock
  let w := w.setSlot k { w.slots k with present := true, expireAt := current }
  let current := (w.slots k).expireAt
  let time := laterTime w.clock (← nondetRange 2000)
  let cond ← drawExpireCond
  let (w, r) := execCmd w 0 (.expire k time cond)
  let applied := r == .int 1
  let expected := expectedApplied cond current time
  cvlrAssert (applied == expected)
  if applied then cvlrAssert ((w.slots k).expireAt == time)
  else cvlrAssert ((w.slots k).expireAt == current)

/-- The configuration that `expire_master_link_sees_expired_key_as_valid` sets. -/
def pinMasterLink (w : SourceWorld) : SourceWorld :=
  { w with
    role := .readOnlyReplica
    caller := .masterLink
    allowAccessExpired := false
    expirePaused := false
    clusterEnabled := false
    confAllowsExpireDel := true }

/-- `expire_master_link_sees_expired_key_as_valid`: the replication link finds a key whose time has
passed. -/
def expireMasterLinkSeesExpiredKeyAsValid : Rule Unit := do
  let w : SourceWorld ← World.nondetWorld
  let w := pinMasterLink w
  let k ← drawKey
  let s ← drawStr
  let offset ← nondetRange 1000
  let w := w.setSlot k ⟨true, .str s, elapsedTime w.clock offset⟩
  let (w, g) := execCmd w 0 (.get k)
  cvlrAssert (g != .nil)
  cvlrAssert (w.slots k).present

/-! ### A key that a lookup finds -/

section Live

variable {w w' : SourceWorld} {k : Fin keyCount} {r : Reply keyCount}

/-- A GET that finds its key replies the value and leaves the world. -/
theorem execGet_of_sees (hsees : (config w).sees w.clock (w.slots k) = true) :
    execCmd w 0 (.get k) = (w, oldValueReply (some (w.slots k).value)) := by
  have hedits : opEdits w k .get = [] := by
    rw [opEdits, KeyOp.edits, Config.purges_of_sees _ hsees]
    rfl
  rw [execCmd_eq_outcome w 0 rfl, hedits, KeyOp.reply, hsees]
  rfl

theorem oldValueReply_some_ne_nil (v : Value) :
    (oldValueReply (some v) != (.nil : Reply keyCount)) = true := by
  obtain ⟨s⟩ := v
  rfl

theorem expectedApplied_eq (cond : ExpireCond) (current time : ℤ) :
    expectedApplied cond current time = !expireCondFails cond current time := by
  cases cond with
  | none => rfl
  | nx => simp [expectedApplied, expireCondFails, bne]
  | xx => simp [expectedApplied, expireCondFails, bne]
  | gt =>
    have hflip : decide (time > current) = !decide (time ≤ current) := by
      rw [← decide_not, decide_eq_decide, Int.not_le]
    rw [expectedApplied, expireCondFails, hflip, Bool.not_or]
    rfl
  | lt =>
    have hflip : decide (time < current) = !decide (time ≥ current) := by
      rw [← decide_not, decide_eq_decide, ge_iff_le, Int.not_le]
    rw [expectedApplied, expireCondFails, hflip, Bool.not_and, bne, Bool.not_not]

/-- What an EXPIRE with a future time replies about a live key, and the time that it leaves. -/
theorem execExpire_of_sees {time : Ms} {cond : ExpireCond} (hconfig : config w = fenceConfig)
    (hsees : fenceConfig.sees w.clock (w.slots k) = true) (hfuture : w.clock < time)
    (hexec : execCmd w 0 (.expire k time cond) = (w', r)) :
    r = .int (if expireCondFails cond (w.slots k).expireAt time then 0 else 1) ∧
      (w'.slots k).expireAt =
        if expireCondFails cond (w.slots k).expireAt time then (w.slots k).expireAt else time := by
  have hop : keyOp? (.expire k time cond : Cmd keyCount clientCount) =
    some (k, .expire time cond) := rfl
  have hworld : w' = (execCmd w 0 (.expire k time cond)).1 := by rw [hexec]
  have hreply : r = (execCmd w 0 (.expire k time cond)).2 := by rw [hexec]
  have helapsed : KeyOp.elapsed fenceConfig w.clock time = false := by
    rw [Pinned.elapsed_eq]
    exact decide_eq_false (not_le.mpr hfuture)
  constructor
  · rw [hreply, execCmd_eq_outcome w 0 hop, hconfig, KeyOp.reply, hsees]
    cases expireCondFails cond (w.slots k).expireAt time <;> rfl
  · rw [hworld, slots_execCmd w 0 hop, if_pos rfl, hconfig, slotAfterLookup_of_sees hsees,
      KeyOp.write?, hsees, helapsed]
    cases expireCondFails cond (w.slots k).expireAt time <;> rfl

end Live

/-- On a standalone master a present key is found until its time has passed. -/
theorem sees_of_not_passed {now : Ms} {s : Slot} (hpresent : s.present = true)
    (htime : s.expireAt = noExpire ∨ now ≤ s.expireAt) : fenceConfig.sees now s = true := by
  rw [sees_standalone, hpresent, expired_standalone, Slot.hasTtl]
  rcases htime with hnone | hle
  · simp [hnone]
  · simp [not_lt.mpr hle]

/-! ### The rules on every stream -/

theorem laterTime_eq {clock : ℤ} {offset : UInt64} (hclock : 0 ≤ clock ∧ clock < 1000000)
    (hoffset : offset.toNat < 2000) : laterTime clock offset = clock + 1 + offset.toNat := by
  have hfirst : IsI64 (clock + 1) := by
    unfold IsI64
    omega
  have hsecond : IsI64 (clock + 1 + offset.toNat) := by
    unfold IsI64
    omega
  rw [laterTime, asMs, wrapI64_eq hfirst, wrapI64_eq hsecond]

theorem ne_noExpire_of_nonneg {time : ℤ} (h : 0 ≤ time) : time ≠ noExpire := by
  rintro rfl
  exact absurd h (by decide)

theorem lt_laterTime {clock : ℤ} {offset : UInt64} (hclock : 0 ≤ clock ∧ clock < 1000000)
    (hoffset : offset.toNat < 2000) : clock < laterTime clock offset := by
  rw [laterTime_eq hclock hoffset]
  omega

theorem ensures_expireLazyActiveBoundary : Ensures (fun _ ↦ True) expireLazyActiveBoundary := by
  refine meets_drawn draws_nondetWorld fun drawn hdrawn ↦ ?_
  have hpinned := pinned_of_drawn hdrawn
  refine meets_drawn draws_drawKey fun k _ ↦ ?_
  have hnonneg : drawn.clock ≠ noExpire := ne_noExpire_of_nonneg hdrawn.clock.1
  simp only
  generalize hw : drawn.pinStandaloneMaster.setSlot k _ = w
  have hslot : w.slots k = { drawn.slots k with present := true, expireAt := drawn.clock } := by
    rw [← hw]
    exact Function.update_self ..
  have hconfig : config w = fenceConfig := by rw [← hw]; rfl
  have hclock : w.clock = drawn.clock := by rw [← hw]; rfl
  have hsees : (config w).sees w.clock (w.slots k) = true := by
    rw [hconfig]
    refine sees_of_not_passed ?_ (.inr ?_)
    · rw [hslot]
    · rw [hslot, hclock]
  have hlive : keyIsExpired w k = false := by
    rw [keyIsExpired_eq, hconfig, expired_standalone, hslot, hclock]
    simp
  have hactive : activeCycleWouldExpire w k = true := by
    rw [activeCycleWouldExpire, hslot, hclock]
    simp [hnonneg]
  have hdue : isDue w k = true := by rw [isDue, hactive, hslot]; rfl
  rw [execGet_of_sees hsees]
  refine ensures_assert_then (by rw [hlive]; rfl) ?_
  refine ensures_assert_then hactive ?_
  refine ensures_assert_then (oldValueReply_some_ne_nil _) ?_
  refine ensures_assert_then (by rw [hslot]) ?_
  refine ensures_assert ?_
  rw [slots_activeExpireCycle hconfig, if_pos hdue]
  rfl

theorem draws_drawLiveTime {clock : Ms} (hclock : 0 ≤ clock ∧ clock < 1000000) :
    Draws (fun time ↦ time = noExpire ∨ clock ≤ time) (drawLiveTime clock) := by
  refine draws_bind draws_drawBool fun persistent _ ↦ ?_
  split_ifs
  · exact draws_pure (.inl rfl)
  · refine draws_bind (draws_nondetRange (by decide)) fun offset hoffset ↦ draws_pure (.inr ?_)
    exact (lt_laterTime hclock (hoffset.trans (by decide))).le

theorem ensures_expireConditionSemantics : Ensures (fun _ ↦ True) expireConditionSemantics := by
  refine meets_drawn draws_nondetWorld fun drawn hdrawn ↦ ?_
  refine meets_drawn draws_drawKey fun k _ ↦ ?_
  refine meets_drawn (draws_drawLiveTime hdrawn.clock) fun current hcurrent ↦ ?_
  simp only
  generalize hw : drawn.pinStandaloneMaster.setSlot k _ = w
  have hslot : w.slots k = { drawn.slots k with present := true, expireAt := current } := by
    rw [← hw]
    exact Function.update_self ..
  have hconfig : config w = fenceConfig := by rw [← hw]; rfl
  have hclock : w.clock = drawn.clock := by rw [← hw]; rfl
  have hsees : fenceConfig.sees w.clock (w.slots k) = true := by
    refine sees_of_not_passed ?_ ?_
    · rw [hslot]
    · rw [hslot, hclock]
      exact hcurrent
  refine meets_drawn (draws_nondetRange (by decide)) fun offset hoffset ↦ ?_
  refine meets_drawn draws_drawExpireCond fun cond _ ↦ ?_
  generalize htime : laterTime w.clock offset = time
  have hfuture : w.clock < time := by
    rw [← htime, hclock]
    exact lt_laterTime hdrawn.clock hoffset
  generalize hexec : execCmd w 0 (.expire k time cond) = executed
  obtain ⟨w', r⟩ := executed
  obtain ⟨rfl, hexpire⟩ := execExpire_of_sees hconfig hsees hfuture hexec
  rw [expectedApplied_eq]
  cases hfails : expireCondFails cond (w.slots k).expireAt time with
  | false =>
    rw [hfails] at hexpire
    refine ensures_assert_then rfl ?_
    exact ensures_assert (by rw [hexpire]; exact beq_self_eq_true _)
  | true =>
    rw [hfails] at hexpire
    refine ensures_assert_then rfl ?_
    exact ensures_assert (by rw [hexpire]; exact beq_self_eq_true _)

theorem ensures_expireMasterLink :
    Ensures (fun _ ↦ True) expireMasterLinkSeesExpiredKeyAsValid := by
  refine meets_drawn draws_nondetWorld fun drawn _ ↦ ?_
  refine meets_drawn draws_drawKey fun k _ ↦ meets_drawn draws_drawStr fun v _ ↦ ?_
  refine meets_drawn (draws_nondetRange (by decide)) fun offset _ ↦ ?_
  simp only
  generalize hw : (pinMasterLink drawn).setSlot k _ = w
  have hslot : (w.slots k).present = true := by
    rw [← hw]
    show Slot.present (Function.update (pinMasterLink drawn).slots k _ k) = true
    rw [Function.update_self]
  have hmaster : (config w).fromMaster = true := by rw [← hw]; rfl
  have hsees : (config w).sees w.clock (w.slots k) = true := by
    rw [Config.sees, hslot, hmaster, Bool.or_true]
    rfl
  rw [execGet_of_sees hsees]
  exact ensures_assert_then (oldValueReply_some_ne_nil _) (ensures_assert hslot)

/-- Whatever they draw, the three rules about a key that a lookup finds hold. -/
theorem liveKeyRules_hold (stream : Stream' UInt64) :
    expireLazyActiveBoundary.Holds stream ∧ expireConditionSemantics.Holds stream ∧
      expireMasterLinkSeesExpiredKeyAsValid.Holds stream :=
  ⟨holds_of_ensures ensures_expireLazyActiveBoundary stream,
    holds_of_ensures ensures_expireConditionSemantics stream,
    holds_of_ensures ensures_expireMasterLink stream⟩

end RedisCvlr.Specs
