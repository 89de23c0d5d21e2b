import RedisCvlr.Driver.Verdicts
import RedisCvlr.Specs.KeyspaceRules
import RedisCvlr.Specs.LiveKeyRules
import RedisCvlr.Specs.MultiRules

/-!
# All rules under the concrete driver

The test `all_rules_execute` of `tests/concrete.rs` runs every rule on the streams of 20000 seeds
and expects all to hold, except the one that targets the early return. `allRulesExecute_iff` says
when it passes: exactly when no seed draws a clock that equals the offset drawn after it. Ten of the
rules hold on every stream and the last one fails on every stream, so it is only the three
elapsed-key rules that decide.
-/

set_option autoImplicit false
set_option relaxedAutoImplicit false

namespace RedisCvlr.Specs

open RedisCvlr.Library RedisCvlr.Model RedisCvlr.Watch RedisCvlr.Keyspace RedisCvlr.Driver

/-! ### The test -/

/-- The rules, in the order of the test. -/
inductive RuleName
  | stringSetIntegrity
  | stringSetTtlArgument
  | stringSetNxXxUsesLogicalExistence
  | expireVisibilitySplit
  | expireLazyActiveBoundary
  | expireConditionSemantics
  | expireLazyPropagatesBareDel
  | expireReplicaHidesWithoutDeleting
  | expireMasterLinkSeesExpiredKeyAsValid
  | keyspaceExpiresSubsetOfKeys
  | keyspaceActiveExpiryOnlyRemoves
  | keyspaceDbsizeCountsPhysical
  | multiWatchIsValueBlind
  | multiTouchDirtiesEveryWatcher
  deriving DecidableEq

/-- The body of a rule. -/
def RuleName.rule : RuleName → Rule Unit
  | .stringSetIntegrity => Specs.stringSetIntegrity
  | .stringSetTtlArgument => Specs.stringSetTtlArgument
  | .stringSetNxXxUsesLogicalExistence => Specs.stringSetNxXxUsesLogicalExistence
  | .expireVisibilitySplit => Specs.expireVisibilitySplit
  | .expireLazyActiveBoundary => Specs.expireLazyActiveBoundary
  | .expireConditionSemantics => Specs.expireConditionSemantics
  | .expireLazyPropagatesBareDel => Specs.expireLazyPropagatesBareDel
  | .expireReplicaHidesWithoutDeleting => Specs.expireReplicaHidesWithoutDeleting
  | .expireMasterLinkSeesExpiredKeyAsValid => Specs.expireMasterLinkSeesExpiredKeyAsValid
  | .keyspaceExpiresSubsetOfKeys => Specs.keyspaceExpiresSubsetOfKeys
  | .keyspaceActiveExpiryOnlyRemoves => Specs.keyspaceActiveExpiryOnlyRemoves
  | .keyspaceDbsizeCountsPhysical => Specs.keyspaceDbsizeCountsPhysical
  | .multiWatchIsValueBlind => Specs.multiWatchIsValueBlind
  | .multiTouchDirtiesEveryWatcher => Specs.multiTouchDirtiesEveryWatcher

/-- `N`. -/
def executions : UInt64 := 20000

/-- `run`, without its report. -/
def runRule (body : Rule Unit) : Bool :=
  let (n, rejected, failures) := exercise (fun _ ↦ body) executions
  let executed := n - rejected
  failures.isEmpty && decide (executed > 0)

/-- The rules that are expected to hold. -/
def expectedRules : List RuleName :=
  [.stringSetIntegrity, .stringSetTtlArgument, .stringSetNxXxUsesLogicalExistence,
    .expireVisibilitySplit, .expireLazyActiveBoundary, .expireConditionSemantics,
    .expireLazyPropagatesBareDel, .expireReplicaHidesWithoutDeleting,
    .expireMasterLinkSeesExpiredKeyAsValid, .keyspaceExpiresSubsetOfKeys,
    .keyspaceActiveExpiryOnlyRemoves, .keyspaceDbsizeCountsPhysical, .multiWatchIsValueBlind]

/-- `all_rules_execute`: both of its assertions pass. -/
def allRulesExecute : Bool :=
  let ok := expectedRules.all fun rule ↦ runRule rule.rule
  let f01 := runRule multiTouchDirtiesEveryWatcher
  ok && !f01

/-! ### The verdict on one rule -/

section Verdict

variable {f : UInt64 → Body}

/-- Nothing is rejected when no assume fails, by induction on the seeds. -/
theorem rejected_foldl {seedList : List UInt64} (tally : Tally)
    (hassumes : ∀ seed ∈ seedList, .assume false ∉ execution f seed) :
    (seedList.foldl (exerciseOne f) tally).rejected = tally.rejected := by
  induction seedList generalizing tally with
  | nil => rfl
  | cons seed rest ih =>
    rw [List.forall_mem_cons] at hassumes
    have hrejected : ((f seed).run (beginExecution seed)).rejected = false := by
      rw [← Bool.not_eq_true, run_rejected]
      rintro (hstart | hassume)
      · exact Bool.false_ne_true hstart
      · exact hassumes.1 hassume
    have hone : (exerciseOne f tally seed).rejected = tally.rejected := by
      rw [exerciseOne, endExecution]
      simp only [hrejected, Bool.false_eq_true, if_false]
      split_ifs <;> rfl
    rw [List.foldl_cons, ih _ hassumes.2, hone]

/-- Where no assume fails, the counterexamples are the executions in which an assert fails. -/
theorem isCounterexample_of_assumes {events : List Event} (hassumes : .assume false ∉ events) :
    IsCounterexample events ↔ .assert false ∈ events := by
  constructor
  · rintro ⟨before, after, rfl, -⟩
    simp
  · intro hmem
    obtain ⟨before, after, rfl⟩ := List.append_of_mem hmem
    exact ⟨before, after, rfl, fun hbefore ↦ hassumes (List.mem_append_left _ hbefore)⟩

/-- The verdict of `run` for any number of executions. -/
theorem verdict_iff {n : UInt64} (hpos : n > 0)
    (hassumes : ∀ seed ∈ seeds n, .assume false ∉ execution f seed) :
    ((exercise f n).2.2.isEmpty && decide ((exercise f n).1 - (exercise f n).2.1 > 0)) = true ↔
      ∀ seed ∈ seeds n, .assert false ∉ execution f seed := by
  have hrejected : (exercise f n).2.1 = 0 := rejected_foldl ⟨0, []⟩ hassumes
  have hexecuted : (exercise f n).1 - (exercise f n).2.1 > 0 := by
    rw [hrejected, UInt64.sub_zero]
    exact hpos
  rw [decide_eq_true hexecuted, Bool.and_true, List.isEmpty_iff, ← not_iff_not, ← Ne,
    exercise_failures_ne_nil]
  push Not
  refine exists_congr fun seed ↦ and_congr_right fun hseed ↦ ?_
  rw [reported_iff, and_iff_left (hassumes seed hseed),
    isCounterexample_of_assumes (hassumes seed hseed)]

end Verdict

/-- The verdict of `run`, read off the result of `exercise`. -/
theorem runRule_eq (body : Rule Unit) :
    runRule body = ((exercise (fun _ ↦ body) executions).2.2.isEmpty &&
      decide ((exercise (fun _ ↦ body) executions).1 -
        (exercise (fun _ ↦ body) executions).2.1 > 0)) := by
  unfold runRule
  -- the executions are not to be evaluated
  rcases exercise (fun _ ↦ body) executions with ⟨n, rejected, failures⟩
  rfl

/-- A rule whose assumes never fail passes the test exactly when it holds for every seed. -/
theorem runRule_iff {body : Rule Unit} (hassumes : ∀ stream, .assume false ∉ body.events stream) :
    runRule body = true ↔ ∀ seed ∈ seeds executions, body.Holds (nondetStream seed) := by
  have hpos : executions > 0 := by decide
  rw [runRule_eq, verdict_iff hpos fun seed _ ↦ hassumes (nondetStream seed)]
  exact forall₂_congr fun seed _ ↦ (holds_iff body (nondetStream seed)).symm

/-- A rule with a reported seed does not pass the test. -/
theorem runRule_of_failures {body : Rule Unit} {seed : UInt64} {rest : List UInt64}
    (h : (exercise (fun _ ↦ body) executions).2.2 = seed :: rest) : runRule body = false := by
  rw [runRule_eq, h, List.isEmpty_cons, Bool.false_and]

/-! ### The verdict on all rules -/

/-- The rules that build a key whose time has passed, for a caller that does not see it. -/
def RuleName.elapsed : RuleName → Bool
  | .expireVisibilitySplit => true
  | .expireLazyPropagatesBareDel => true
  | .expireReplicaHidesWithoutDeleting => true
  | _ => false

section All

variable {stream : Stream' UInt64} {rule : RuleName}

/-- A rule that ensures anything fails no assume. -/
theorem assume_not_mem_of_ensures {body : Rule Unit} (h : Ensures (fun _ ↦ True) body)
    (stream : Stream' UInt64) : .assume false ∉ body.events stream :=
  fun hmem ↦ Bool.false_ne_true ((h stream).2 _ hmem)

theorem assume_not_mem_of_events {body : Rule Unit} {conditions : List Bool}
    (h : body.events stream = conditions.map .assert) : .assume false ∉ body.events stream := by
  rw [h]
  simp

/-- The rules that do not build an elapsed key ensure their conditions. -/
theorem ensures_of_not_elapsed (hexpected : rule ∈ expectedRules) (h : rule.elapsed = false) :
    Ensures (fun _ ↦ True) rule.rule := by
  cases rule with
  | stringSetIntegrity => exact ensures_stringSetIntegrity
  | stringSetTtlArgument => exact ensures_stringSetTtlArgument
  | stringSetNxXxUsesLogicalExistence => exact ensures_stringSetNxXx
  | expireLazyActiveBoundary => exact ensures_expireLazyActiveBoundary
  | expireConditionSemantics => exact ensures_expireConditionSemantics
  | expireMasterLinkSeesExpiredKeyAsValid => exact ensures_expireMasterLink
  | keyspaceExpiresSubsetOfKeys => exact ensures_keyspaceExpiresSubset
  | keyspaceActiveExpiryOnlyRemoves => exact ensures_keyspaceActiveExpiry
  | keyspaceDbsizeCountsPhysical => exact ensures_keyspaceDbsize
  | multiWatchIsValueBlind => exact ensures_multiWatchIsValueBlind
  | expireVisibilitySplit | expireLazyPropagatesBareDel | expireReplicaHidesWithoutDeleting =>
    exact Bool.noConfusion h
  | multiTouchDirtiesEveryWatcher => exact absurd hexpected (by decide)

/-- The rules that build an elapsed key hold exactly when the draws differ. -/
theorem holds_iff_of_elapsed (h : rule.elapsed = true) (stream : Stream' UInt64) :
    rule.rule.Holds stream ↔ (drawnCase stream).1.clock ≠ asMs (drawnCase stream).2.2 := by
  cases rule with
  | expireVisibilitySplit => exact expireVisibilitySplit_holds_iff stream
  | expireLazyPropagatesBareDel => exact expireLazyPropagatesBareDel_holds_iff stream
  | expireReplicaHidesWithoutDeleting => exact expireReplicaHidesWithoutDeleting_holds_iff stream
  | _ => exact Bool.noConfusion h

theorem assume_not_mem_of_elapsed (h : rule.elapsed = true) (stream : Stream' UInt64) :
    .assume false ∉ rule.rule.events stream := by
  cases rule with
  | expireVisibilitySplit => exact assume_not_mem_of_events (events_visibility stream)
  | expireLazyPropagatesBareDel => exact assume_not_mem_of_events (events_bareDel stream)
  | expireReplicaHidesWithoutDeleting => exact assume_not_mem_of_events (events_replica stream)
  | _ => exact Bool.noConfusion h

/-- An expected rule passes the test exactly when its draws coincide for no seed, if it builds an
elapsed key at all. -/
theorem runRule_expected (hexpected : rule ∈ expectedRules) :
    runRule rule.rule = true ↔ ∀ seed ∈ seeds executions, rule.elapsed = true →
      (drawnCase (nondetStream seed)).1.clock ≠ asMs (drawnCase (nondetStream seed)).2.2 := by
  cases helapsed : rule.elapsed with
  | false =>
    have hensures := ensures_of_not_elapsed hexpected helapsed
    rw [runRule_iff (assume_not_mem_of_ensures hensures)]
    exact iff_of_true (fun seed _ ↦ holds_of_ensures hensures _)
      fun _ _ hfalse ↦ absurd hfalse Bool.false_ne_true
  | true =>
    rw [runRule_iff (assume_not_mem_of_elapsed helapsed)]
    simp only [holds_iff_of_elapsed helapsed, forall_const]

/-! ### The targeted rule -/

theorem assert_mem_touch (stream : Stream' UInt64) :
    .assert false ∈ multiTouchDirtiesEveryWatcher.events stream := by
  by_contra hnever
  have hholds := (holds_iff multiTouchDirtiesEveryWatcher stream).mpr hnever
  rw [Rule.Holds, assertions_touch] at hholds
  -- the first condition and the last one exclude each other
  have hfirst := hholds _ List.mem_cons_self
  have hlast := hholds _ (List.mem_cons_of_mem _ (List.mem_cons_of_mem _ List.mem_cons_self))
  rw [hfirst] at hlast
  exact Bool.false_ne_true hlast

theorem reported_touch (seed : UInt64) :
    reported (fun _ ↦ multiTouchDirtiesEveryWatcher) seed = true := by
  have hassume := assume_not_mem_of_events (events_touch (nondetStream seed))
  rw [reported_iff]
  refine ⟨(isCounterexample_of_assumes hassume).mpr ?_, hassume⟩
  exact assert_mem_touch (nondetStream seed)

/-- The targeted rule is reported at every seed, and the first eight are kept. -/
theorem failures_touch (n : UInt64) :
    (exercise (fun _ ↦ multiTouchDirtiesEveryWatcher) n).2.2 = (seeds n).take 8 := by
  rw [exercise_failures, List.filter_eq_self.mpr fun seed _ ↦ reported_touch seed]

theorem take_seeds {n : UInt64} (h : 8 ≤ n.toNat) :
    (seeds n).take 8 = [1, 2, 3, 4, 5, 6, 7, 8] := by
  rw [seeds, ← List.map_take, List.take_range, Nat.min_eq_left h]
  rfl

theorem runRule_touch : runRule multiTouchDirtiesEveryWatcher = false :=
  runRule_of_failures ((failures_touch executions).trans (take_seeds (by decide)))

/-- The test passes exactly when the draws of the elapsed-key rules coincide for no seed, and the
targeted rule is reported at the first eight seeds. -/
theorem allRulesExecute_iff :
    (allRulesExecute = true ↔ ∀ seed ∈ seeds executions,
        (drawnCase (nondetStream seed)).1.clock ≠ asMs (drawnCase (nondetStream seed)).2.2) ∧
      (exercise (fun _ ↦ multiTouchDirtiesEveryWatcher) executions).2.2 =
        [1, 2, 3, 4, 5, 6, 7, 8] := by
  refine ⟨?_, (failures_touch executions).trans (take_seeds (by decide))⟩
  rw [allRulesExecute, runRule_touch, Bool.not_false, Bool.and_true, List.all_eq_true]
  constructor
  · intro hall seed hseed
    have hpasses := hall .expireVisibilitySplit (by decide)
    exact (runRule_expected (by decide)).mp hpasses seed hseed rfl
  · intro hdiffer rule hexpected
    rw [runRule_expected hexpected]
    exact fun seed hseed _ ↦ hdiffer seed hseed

end All

end RedisCvlr.Specs
