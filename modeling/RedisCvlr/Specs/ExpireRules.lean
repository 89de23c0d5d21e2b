import RedisCvlr.Keyspace.Steps
import RedisCvlr.Model.Nondet

/-!
# The elapsed-key rules

Three rules of `src/specs/expire_rules.rs` build a key whose time has passed: they draw a world, a
key and an offset below 1000, and store the expire time `clock - 1 - offset`. That time is never in
the future, but it is the sentinel `NO_EXPIRE` when the drawn offset equals the drawn clock, and the
slot then carries no TTL at all. `elapsedRules_hold_iff` shows that this coincidence is the only way
a rule can fail, and that all three fail then.
-/

set_option autoImplicit false
set_option relaxedAutoImplicit false

namespace RedisCvlr.Specs

open RedisCvlr.Library RedisCvlr.Model RedisCvlr.Watch RedisCvlr.Keyspace

/-- The world of the source's constants. -/
abbrev SourceWorld := World keyCount clientCount

/-! ### The rules -/

/-- `w.clock - 1 - (offset as Ms)`. -/
def elapsedTime (clock : Ms) (offset : UInt64) : Ms := wrapI64 (wrapI64 (clock - 1) - asMs offset)

/-- The two assignments that make a key present with an elapsed time. -/
def elapse (w : SourceWorld) (k : Fin keyCount) (offset : UInt64) : SourceWorld :=
  w.setSlot k { w.slots k with present := true, expireAt := elapsedTime w.clock offset }

/-- The number in a reply, or `-1`. -/
def replyCount : Reply keyCount → ℤ
  | .int n => n
  | _ => -1

/-- `expire_visibility_split`: a lookup hides and deletes the elapsed key, KEYS hides it, and DBSIZE
still counts it. The counts are at most `keyCount`, so the last subtraction does not wrap. -/
def expireVisibilitySplit : Rule Unit := do
  let w ← World.nondetWorld
  let w := w.pinStandaloneMaster
  let k ← drawKey
  let offset ← nondetRange 1000
  let w := elapse w k offset
  cvlrAssert (keyIsExpired w k)
  let before := w
  let (w, keys) := execCmd w 0 .keys
  if let .keySet set := keys then
    cvlrAssert (!set k)
  cvlrAssert (w.slots k).present
  cvlrAssert (w.repl.len == before.repl.len)
  let (w, size) := execCmd w 0 .dbSize
  let nBefore := replyCount size
  cvlrAssert (w.slots k).present
  let (w, e) := execCmd w 0 (.existsKey k)
  cvlrAssert (e == .int 0)
  cvlrAssert !(w.slots k).present
  let (_, size) := execCmd w 0 .dbSize
  let nAfter := replyCount size
  cvlrAssert (nAfter == nBefore - 1)

/-- `expire_lazy_propagates_bare_del`: a read of the elapsed key propagates one bare DEL. -/
def expireLazyPropagatesBareDel : Rule Unit := do
  let w ← World.nondetWorld
  let w := w.pinStandaloneMaster
  let k ← drawKey
  let offset ← nondetRange 1000
  let w := elapse w k offset
  let before := w.repl.len
  let (w, _) := execCmd w 0 (.get k)
  cvlrAssert (w.repl.len == before + 1)
  cvlrAssert (w.repl.get before == some (.del k))
  cvlrAssert (w.repl.get before != some .multi)

/-- The configuration that `expire_replica_hides_without_deleting` sets. -/
def pinReplica (w : SourceWorld) : SourceWorld :=
  { w with
    role := .readOnlyReplica
    caller := .normal
    allowAccessExpired := false
    expirePaused := false
    clusterEnabled := false
    confAllowsExpireDel := true }

/-- `expire_replica_hides_without_deleting`: on a replica the elapsed key is hidden and stays. -/
def expireReplicaHidesWithoutDeleting : Rule Unit := do
  let w ← World.nondetWorld
  let w := pinReplica w
  let k ← drawKey
  let offset ← nondetRange 1000
  let w := elapse w k offset
  let before := w.repl.len
  let (w, g) := execCmd w 0 (.get k)
  cvlrAssert (g == .nil)
  cvlrAssert (w.slots k).present
  cvlrAssert (w.repl.len == before)

/-! ### The draws of a rule -/

/-- What each of the three rules draws: a world, a key and an offset. -/
def drawCase : Rule (SourceWorld × Fin keyCount × UInt64) := do
  let w ← World.nondetWorld
  let k ← drawKey
  let offset ← nondetRange 1000
  return (w, k, offset)

/-- The world, the key and the offset that the rules draw from a stream. -/
def drawnCase (stream : Stream' UInt64) : SourceWorld × Fin keyCount × UInt64 :=
  drawCase.value stream

theorem draws_drawCase :
    Draws (fun case ↦ DrawnWorld case.1 ∧ case.2.2.toNat < 1000) drawCase := by
  refine draws_bind draws_nondetWorld fun w hw ↦ draws_bind draws_drawKey fun k _ ↦ ?_
  exact draws_bind (draws_nondetRange (by decide)) fun offset hoffset ↦ draws_pure ⟨hw, hoffset⟩

/-- A drawn world has an empty log, and a clock and an offset far from the `i64` bounds. -/
theorem drawnCase_frame (stream : Stream' UInt64) :
    (drawnCase stream).1.repl = ReplLog.new ∧
      (0 ≤ (drawnCase stream).1.clock ∧ (drawnCase stream).1.clock < 1000000) ∧
      (drawnCase stream).2.2.toNat < 1000 := by
  obtain ⟨hworld, hoffset⟩ := (draws_drawCase stream).1
  obtain ⟨slots, role, caller, hframe⟩ := hworld.frame
  exact ⟨congrArg World.repl hframe, hworld.clock, hoffset⟩

/-! ### The conditions of the rules -/

/-- The conditions of `expireVisibilitySplit` about the world with the elapsed key. -/
def visibilityConditions (w : SourceWorld) (k : Fin keyCount) : List Bool :=
  let e := execCmd w 0 (.existsKey k)
  [keyIsExpired w k, !((w.slots k).present && !keyIsExpired w k), (w.slots k).present,
    w.repl.len == w.repl.len, (w.slots k).present, e.2 == .int 0, !(e.1.slots k).present,
    replyCount (cmdDbsize e.1) == replyCount (cmdDbsize w) - 1]

/-- The conditions of `expireLazyPropagatesBareDel` about the world with the elapsed key. -/
def bareDelConditions (w : SourceWorld) (k : Fin keyCount) : List Bool :=
  let g := execCmd w 0 (.get k)
  [g.1.repl.len == w.repl.len + 1, g.1.repl.get w.repl.len == some (.del k),
    g.1.repl.get w.repl.len != some .multi]

/-- The conditions of `expireReplicaHidesWithoutDeleting` about the world with the elapsed key. -/
def replicaConditions (w : SourceWorld) (k : Fin keyCount) : List Bool :=
  let g := execCmd w 0 (.get k)
  [g.2 == .nil, (g.1.slots k).present, g.1.repl.len == w.repl.len]

section Events

variable (stream : Stream' UInt64)

/-- A rule that draws its case reports what it reports from there on. -/
theorem events_case (body : SourceWorld → Fin keyCount → UInt64 → Rule Unit) :
    Program.events (do
        let w ← World.nondetWorld
        let k ← drawKey
        let offset ← nondetRange 1000
        body w k offset) stream =
      (body (drawnCase stream).1 (drawnCase stream).2.1 (drawnCase stream).2.2).events
        (drawCase.rest stream) := by
  have hdrawn : (drawCase >>= fun case ↦ body case.1 case.2.1 case.2.2).events stream = _ :=
    events_drawn draws_drawCase stream
  simp only [drawCase, bind_assoc, pure_bind] at hdrawn
  exact hdrawn

theorem events_visibility :
    expireVisibilitySplit.events stream =
      (visibilityConditions (elapse (drawnCase stream).1.pinStandaloneMaster (drawnCase stream).2.1
        (drawnCase stream).2.2) (drawnCase stream).2.1).map .assert := by
  unfold expireVisibilitySplit
  rw [events_case]
  rfl

theorem events_bareDel :
    expireLazyPropagatesBareDel.events stream =
      (bareDelConditions (elapse (drawnCase stream).1.pinStandaloneMaster (drawnCase stream).2.1
        (drawnCase stream).2.2) (drawnCase stream).2.1).map .assert := by
  unfold expireLazyPropagatesBareDel
  rw [events_case]
  rfl

theorem events_replica :
    expireReplicaHidesWithoutDeleting.events stream =
      (replicaConditions (elapse (pinReplica (drawnCase stream).1) (drawnCase stream).2.1
        (drawnCase stream).2.2) (drawnCase stream).2.1).map .assert := by
  unfold expireReplicaHidesWithoutDeleting
  rw [events_case]
  rfl

end Events

/-! ### The elapsed slot -/

section Elapsed

variable {w : SourceWorld} {k : Fin keyCount} {offset : UInt64}

theorem elapsedTime_eq {clock : ℤ} (hclock : 0 ≤ clock ∧ clock < 1000000)
    (hoffset : offset.toNat < 1000) : elapsedTime clock offset = clock - 1 - offset.toNat := by
  have hfirst : IsI64 (clock - 1) := by
    unfold IsI64
    omega
  have hsecond : IsI64 (clock - 1 - offset.toNat) := by
    unfold IsI64
    omega
  unfold elapsedTime asMs
  rw [wrapI64_eq hfirst, wrapI64_eq hsecond]

theorem slots_elapse (w : SourceWorld) (k : Fin keyCount) (offset : UInt64) :
    (elapse w k offset).slots k =
      { w.slots k with present := true, expireAt := elapsedTime w.clock offset } :=
  Function.update_self ..

theorem repl_elapse (w : SourceWorld) (k : Fin keyCount) (offset : UInt64) :
    (elapse w.pinStandaloneMaster k offset).repl = w.repl := rfl

/-- The stored time is in the past, and it is the sentinel exactly when the draws coincide. -/
theorem elapsed_or_sentinel (clock : ℤ) (offset : ℕ) :
    clock > clock - 1 - offset ∧ (clock - 1 - offset = -1 ↔ clock = offset) := by
  constructor <;> omega

/-- A key with an elapsed time is logically expired unless the time came out as `NO_EXPIRE`. -/
theorem keyIsExpired_of_elapsedTime (haccess : w.allowAccessExpired = false)
    (hclock : 0 ≤ w.clock ∧ w.clock < 1000000) (hoffset : offset.toNat < 1000)
    (htime : (w.slots k).expireAt = elapsedTime w.clock offset) :
    keyIsExpired w k = decide (w.clock ≠ asMs offset) := by
  obtain ⟨hpast, hsentinel⟩ := elapsed_or_sentinel w.clock offset.toNat
  rw [elapsedTime_eq hclock hoffset] at htime
  unfold keyIsExpired noExpire
  rw [haccess, htime]
  by_cases hsame : w.clock = asMs offset
  · rw [hsentinel.mpr hsame]
    simp [hsame]
  · have httl : w.clock - 1 - offset.toNat ≠ -1 := fun heq ↦ hsame (hsentinel.mp heq)
    simp [httl, hpast, hsame]

end Elapsed

/-! ### What the rules assert -/

section Conditions

variable {w : SourceWorld} {k : Fin keyCount}

/-- On a standalone master, the conditions of the visibility rule hold of a present key exactly when
it is logically expired. -/
theorem visibilityConditions_iff
    (hconfig : config w = ⟨.master, .normal, false, false, false, true⟩)
    (hpresent : (w.slots k).present = true) :
    (∀ b ∈ visibilityConditions w k, b = true) ↔ keyIsExpired w k = true := by
  constructor
  · intro hall
    exact hall _ (by simp [visibilityConditions])
  · intro hexpired
    have hslot : (config w).expired w.clock (w.slots k) = true := by rwa [← keyIsExpired_eq]
    have hedits : opEdits w k .existsKey = [(k, .delete)] := by
      unfold opEdits KeyOp.edits KeyOp.write? KeyOp.writes Config.purges
      rw [hslot, hpresent, hconfig]
      rfl
    have hsees : (config w).sees w.clock (w.slots k) = false := by
      unfold Config.sees
      rw [hslot, hconfig]
      simp [Config.fromMaster]
    have hexec : execCmd w 0 (.existsKey k) = (applyEdit w (k, .delete), .int 0) := by
      rw [execCmd_eq_outcome w 0 rfl, hedits]
      simp [KeyOp.reply, hsees]
    have hsize : (presentCount (applyEdit w (k, .delete)).slots : ℤ) =
        presentCount w.slots - 1 := by
      have hcount := presentCount_delete hpresent
      rw [applyEdit_slots]
      show (presentCount (Function.update w.slots k Slot.absent) : ℤ) = presentCount w.slots - 1
      omega
    unfold visibilityConditions
    rw [hexec]
    simp only [cmdDbsize_eq, replyCount, hsize, hpresent, hexpired]
    simp [Edit.slot, Slot.absent]

/-- On a standalone master with an empty log, the conditions of the propagation rule hold of a
present key exactly when it is logically expired. -/
theorem bareDelConditions_iff (hconfig : config w = ⟨.master, .normal, false, false, false, true⟩)
    (hrepl : w.repl = ReplLog.new) (hpresent : (w.slots k).present = true) :
    (∀ b ∈ bareDelConditions w k, b = true) ↔ keyIsExpired w k = true := by
  unfold bareDelConditions
  rw [execCmd_eq_outcome w 0 rfl, hrepl]
  cases hexpired : keyIsExpired w k with
  | false =>
    have hslot : (config w).expired w.clock (w.slots k) = false := by rwa [← keyIsExpired_eq]
    have hedits : opEdits w k .get = [] := by
      unfold opEdits KeyOp.edits KeyOp.write? Config.purges
      rw [hslot]
      simp
    simp only [hedits, applyEdits_nil, hrepl]
    simp [ReplLog.new]
  | true =>
    have hslot : (config w).expired w.clock (w.slots k) = true := by rwa [← keyIsExpired_eq]
    have hedits : opEdits w k .get = [(k, .delete)] := by
      unfold opEdits KeyOp.edits KeyOp.write? KeyOp.writes Config.purges
      rw [hslot, hpresent, hconfig]
      rfl
    simp only [hedits, applyEdits_cons, applyEdits_nil, applyEdit_repl, hrepl]
    simp [ReplLog.new, ReplLog.push, ReplLog.get, PrefixArray.write, PrefixArray.read, Edit.effect]

/-- On a replica, the conditions of the replica rule hold of a present key exactly when it is
logically expired. -/
theorem replicaConditions_iff
    (hconfig : config w = ⟨.readOnlyReplica, .normal, false, false, false, true⟩)
    (hpresent : (w.slots k).present = true) :
    (∀ b ∈ replicaConditions w k, b = true) ↔ keyIsExpired w k = true := by
  have hedits : opEdits w k .get = [] := by
    unfold opEdits KeyOp.edits KeyOp.write? KeyOp.writes Config.purges
    rw [hconfig]
    simp
  have hsees : (config w).sees w.clock (w.slots k) = !keyIsExpired w k := by
    unfold Config.sees
    rw [keyIsExpired_eq, hpresent, hconfig]
    simp [Config.fromMaster]
  unfold replicaConditions
  rw [execCmd_eq_outcome w 0 rfl, hedits, applyEdits_nil]
  cases hexpired : keyIsExpired w k with
  | false =>
    obtain ⟨s, hvalue⟩ : ∃ s, (w.slots k).value = .str s := by
      cases (w.slots k).value
      exact ⟨_, rfl⟩
    simp [KeyOp.reply, hsees, hexpired, hvalue, oldValueReply]
  | true => simp [KeyOp.reply, hsees, hexpired, hpresent, oldValueReply]

end Conditions

/-! ### The rules on every stream -/

section Rules

variable (stream : Stream' UInt64)

/-- Whatever configuration a rule pins, the slot it constructs is expired unless the drawn clock and
offset coincide. -/
theorem expired_drawn_iff (w : SourceWorld) (hclock : w.clock = (drawnCase stream).1.clock)
    (haccess : w.allowAccessExpired = false) (k : Fin keyCount) :
    keyIsExpired (elapse w k (drawnCase stream).2.2) k = true ↔
      (drawnCase stream).1.clock ≠ asMs (drawnCase stream).2.2 := by
  obtain ⟨-, hbounds, hoffset⟩ := drawnCase_frame stream
  rw [← hclock] at hbounds ⊢
  have htime : ((elapse w k (drawnCase stream).2.2).slots k).expireAt =
      elapsedTime w.clock (drawnCase stream).2.2 := by rw [slots_elapse]
  have hexpired : keyIsExpired (elapse w k (drawnCase stream).2.2) k = _ :=
    keyIsExpired_of_elapsedTime haccess hbounds hoffset htime
  rw [hexpired]
  exact decide_eq_true_iff

theorem expireVisibilitySplit_holds_iff :
    expireVisibilitySplit.Holds stream ↔
      (drawnCase stream).1.clock ≠ asMs (drawnCase stream).2.2 := by
  unfold Rule.Holds
  rw [assertions_of_events (events_visibility stream)]
  exact (visibilityConditions_iff rfl (by rw [slots_elapse])).trans
    (expired_drawn_iff stream (World.pinStandaloneMaster _) rfl rfl _)

theorem expireLazyPropagatesBareDel_holds_iff :
    expireLazyPropagatesBareDel.Holds stream ↔
      (drawnCase stream).1.clock ≠ asMs (drawnCase stream).2.2 := by
  obtain ⟨hrepl, -⟩ := drawnCase_frame stream
  unfold Rule.Holds
  rw [assertions_of_events (events_bareDel stream)]
  have hlog := (repl_elapse (drawnCase stream).1 (drawnCase stream).2.1
    (drawnCase stream).2.2).trans hrepl
  exact (bareDelConditions_iff rfl hlog (by rw [slots_elapse])).trans
    (expired_drawn_iff stream (World.pinStandaloneMaster _) rfl rfl _)

theorem expireReplicaHidesWithoutDeleting_holds_iff :
    expireReplicaHidesWithoutDeleting.Holds stream ↔
      (drawnCase stream).1.clock ≠ asMs (drawnCase stream).2.2 := by
  unfold Rule.Holds
  rw [assertions_of_events (events_replica stream)]
  exact (replicaConditions_iff rfl (by rw [slots_elapse])).trans
    (expired_drawn_iff stream (pinReplica _) rfl rfl _)

/-- On every stream, each of the three rules holds exactly when the drawn clock and the drawn offset
differ, and this is also when the slot that the rules construct is logically expired. -/
theorem elapsedRules_hold_iff :
    (expireVisibilitySplit.Holds stream ↔
        (drawnCase stream).1.clock ≠ asMs (drawnCase stream).2.2) ∧
      (expireLazyPropagatesBareDel.Holds stream ↔
        (drawnCase stream).1.clock ≠ asMs (drawnCase stream).2.2) ∧
      (expireReplicaHidesWithoutDeleting.Holds stream ↔
        (drawnCase stream).1.clock ≠ asMs (drawnCase stream).2.2) ∧
      (keyIsExpired (elapse (drawnCase stream).1.pinStandaloneMaster (drawnCase stream).2.1
          (drawnCase stream).2.2) (drawnCase stream).2.1 = true ↔
        (drawnCase stream).1.clock ≠ asMs (drawnCase stream).2.2) :=
  ⟨expireVisibilitySplit_holds_iff stream, expireLazyPropagatesBareDel_holds_iff stream,
    expireReplicaHidesWithoutDeleting_holds_iff stream,
    expired_drawn_iff stream (World.pinStandaloneMaster _) rfl rfl _⟩

/-- On the stream of zeros the clock and the offset are both zero, and all three rules fail. -/
theorem elapsedRules_fail_on_zeros :
    ¬ expireVisibilitySplit.Holds (Stream'.const 0) ∧
      ¬ expireLazyPropagatesBareDel.Holds (Stream'.const 0) ∧
      ¬ expireReplicaHidesWithoutDeleting.Holds (Stream'.const 0) := by
  have hsame : (drawnCase (Stream'.const 0)).1.clock = asMs (drawnCase (Stream'.const 0)).2.2 := by
    decide
  rw [expireVisibilitySplit_holds_iff, expireLazyPropagatesBareDel_holds_iff,
    expireReplicaHidesWithoutDeleting_holds_iff]
  exact ⟨fun hne ↦ hne hsame, fun hne ↦ hne hsame, fun hne ↦ hne hsame⟩

end Rules

end RedisCvlr.Specs
