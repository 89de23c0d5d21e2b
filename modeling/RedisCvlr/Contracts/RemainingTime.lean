import RedisCvlr.Contracts.Writes
import RedisCvlr.Keyspace.Logical
import RedisCvlr.Keyspace.Times

/-!
# The reply codes of PTTL

PTTL replies -2 for a missing key, -1 for a key without a TTL and the remaining time otherwise. The
remaining time is a plain difference, and a caller for whom keys do not expire can see a key whose
time has passed: the difference is then negative and reads as one of the two codes, or as neither.
`pttl_unambiguous_iff` says for which states, and for which configurations, the codes are
unambiguous.
-/

set_option autoImplicit false
set_option relaxedAutoImplicit false

namespace RedisCvlr.Contracts

open RedisCvlr.Library RedisCvlr.Model RedisCvlr.Keyspace

variable {K C : ℕ}

/-! ### The property -/

/-- The reply of PTTL tells a missing key, a key without a TTL and a key with a TTL apart, where the
key exists for the caller when EXISTS says so. -/
structure PttlUnambiguous (w : World K C) (c : Fin C) (k : Fin K) : Prop where
  missing_iff : (execCmd w c (.pttl k)).2 = .int (-2) ↔ (execCmd w c (.existsKey k)).2 = .int 0
  persistent_iff : (execCmd w c (.pttl k)).2 = .int (-1) ↔
    (execCmd w c (.existsKey k)).2 = .int 1 ∧ (w.slots k).hasTtl = false
  remaining : (execCmd w c (.existsKey k)).2 = .int 1 → (w.slots k).hasTtl = true →
    ∃ n, 0 ≤ n ∧ (execCmd w c (.pttl k)).2 = .int n

/-- The caller sees a key with a TTL whose time has passed, or is so far ahead of the clock that the
difference is no `i64`. The second can happen only after the clock has wrapped. -/
def SeenLate (w : World K C) (k : Fin K) : Prop :=
  visible w k = true ∧ (w.slots k).hasTtl = true ∧
    ((w.slots k).expireAt < w.clock ∨ 2 ^ 63 ≤ (w.slots k).expireAt - w.clock)

/-- Ticks and requested times are not negative. The clock may wrap. -/
def AdmitsNonneg : Step K C → Prop
  | .clockTick d => 0 ≤ d ∧ IsI64 d
  | .cmd c command =>
    ∀ target ∈ requestedTime? (.cmd c command), 0 ≤ target.2 ∧ IsI64 target.2
  | .activeExpire => True

instance : ∀ s : Step K C, Decidable (AdmitsNonneg s)
  | .clockTick d => inferInstanceAs (Decidable (0 ≤ d ∧ IsI64 d))
  | .cmd c command =>
    inferInstanceAs (Decidable (∀ target ∈ requestedTime? (.cmd c command), _))
  | .activeExpire => inferInstanceAs (Decidable True)

/-- The empty worlds of a configuration at a clock that is not negative. -/
def EmptyStart (cfg : Config) (w : World K C) : Prop :=
  ∃ t, 0 ≤ t ∧ IsI64 t ∧ w = emptyWith cfg t

/-- The worlds of the runs with times and ticks that are not negative. -/
def TimedReachable (cfg : Config) : World K C → Prop :=
  Machine.Reachable World.next (fun _ s ↦ AdmitsNonneg s) (EmptyStart cfg)

/-- The worlds of those runs in which the clock does not wrap. -/
def ClockedReachable (cfg : Config) : World K C → Prop :=
  Machine.Reachable World.next (fun w s ↦ AdmitsNonneg s ∧ Admits w s) (EmptyStart cfg)

/-! ### One state -/

section State

variable {w : World K C}

/-- A time that a command with times that are not negative can have stored. -/
def Nonneg (time : Ms) : Prop := 0 ≤ time ∧ IsI64 time

theorem execCmd_existsKey (w : World K C) (c : Fin C) (k : Fin K) :
    (execCmd w c (.existsKey k)).2 = .int (if visible w k then 1 else 0) := by
  have hop : keyOp? (.existsKey k : Cmd K C) = some (k, .existsKey) := rfl
  rw [execCmd_eq_outcome w c hop, visible_eq]
  rfl

theorem execCmd_pttl (w : World K C) (c : Fin C) (k : Fin K) :
    (execCmd w c (.pttl k)).2 = .int (if visible w k then
      if (w.slots k).hasTtl then wrapI64 ((w.slots k).expireAt - w.clock) else -1 else -2) := by
  have hop : keyOp? (.pttl k : Cmd K C) = some (k, .pttl) := rfl
  rw [execCmd_eq_outcome w c hop, visible_eq]
  rfl

/-- The wrapped difference of an `i64` that is not negative and an `i64` is negative exactly when
the second is greater, or the difference is too large. -/
theorem wrapI64_sub_neg_iff {time now : ℤ} (htime : 0 ≤ time ∧ IsI64 time) (hnow : IsI64 now) :
    wrapI64 (time - now) < 0 ↔ time < now ∨ 2 ^ 63 ≤ time - now := by
  obtain ⟨hnonneg, -, htime64⟩ := htime
  obtain ⟨hlow, hhigh⟩ := hnow
  rw [wrapI64_eq_ite]
  split_ifs <;> omega

/-- The stored time of a key that the caller sees with a TTL. -/
theorem time_of_visible {P : Ms → Prop} (hstored : StoresTimes P w) {k : Fin K}
    (hvis : visible w k = true) (httl : (w.slots k).hasTtl = true) : P (w.slots k).expireAt :=
  (hstored k (present_of_visible hvis)).resolve_left (by simpa [Slot.hasTtl] using httl)

/-- In a state with times that are not negative the codes of PTTL are unambiguous exactly when the
caller does not see the key late. -/
theorem pttlUnambiguous_iff_not_seenLate (hstored : StoresTimes Nonneg w) (hclock : IsI64 w.clock)
    (c : Fin C) (k : Fin K) : PttlUnambiguous w c k ↔ ¬SeenLate w k := by
  constructor
  · rintro hcodes ⟨hvis, httl, hlate⟩
    obtain ⟨n, hn, hreply⟩ := hcodes.remaining (by rw [execCmd_existsKey, if_pos hvis]) httl
    have htime := time_of_visible hstored hvis httl
    rw [execCmd_pttl, if_pos hvis, if_pos httl] at hreply
    have hneg := (wrapI64_sub_neg_iff htime hclock).mpr hlate
    rw [Reply.int.inj hreply] at hneg
    exact absurd hn (not_le.mpr hneg)
  · intro hontime
    cases hvis : visible w k with
    | false =>
      constructor <;> simp [execCmd_existsKey, execCmd_pttl, hvis]
    | true =>
      cases httl : (w.slots k).hasTtl with
      | false => constructor <;> simp [execCmd_existsKey, execCmd_pttl, hvis, httl]
      | true =>
        have htime := time_of_visible hstored hvis httl
        have hnonneg : 0 ≤ wrapI64 ((w.slots k).expireAt - w.clock) := by
          rw [← not_lt, wrapI64_sub_neg_iff htime hclock]
          exact fun hlate ↦ hontime ⟨hvis, httl, hlate⟩
        have hmissing : wrapI64 ((w.slots k).expireAt - w.clock) ≠ -2 := by omega
        have hpersistent : wrapI64 ((w.slots k).expireAt - w.clock) ≠ -1 := by omega
        constructor
        · simp [execCmd_existsKey, execCmd_pttl, hvis, httl, hmissing]
        · simp [execCmd_existsKey, execCmd_pttl, hvis, httl, hpersistent]
        · intro _ _
          exact ⟨_, hnonneg, by rw [execCmd_pttl, if_pos hvis, if_pos httl]⟩

end State

/-! ### Runs -/

section Runs

variable {cfg : Config}

/-- Along every run with times and ticks that are not negative, wrapping or not, the stored times
are not negative and the clock is an `i64`. -/
theorem TimedReachable.stored {w : World K C} (hreach : TimedReachable cfg w) :
    StoresTimes Nonneg w ∧ IsI64 w.clock := by
  refine Machine.Reachable.invariant (fun w : World K C ↦ StoresTimes Nonneg w ∧ IsI64 w.clock)
    (fun w hstart ↦ ?_) (fun w s hadmits hinv ↦ ⟨?_, ?_⟩) hreach
  · obtain ⟨t, -, ht64, rfl⟩ := hstart
    exact ⟨storesTimes_emptyWith Nonneg cfg t, ht64⟩
  · refine hinv.1.next fun k time hasked _ ↦ ?_
    cases s with
    | cmd c command => exact hadmits (k, time) hasked
    | activeExpire => exact absurd hasked (by simp [requestedTime?])
    | clockTick d => exact absurd hasked (by simp [requestedTime?])
  · rw [next_clock]
    cases s with
    | clockTick d => exact isI64_wrapI64 _
    | cmd c command => exact hinv.2
    | activeExpire => exact hinv.2

theorem ClockedReachable.timed {w : World K C} (hreach : ClockedReachable cfg w) :
    TimedReachable cfg w := by
  obtain ⟨origin, schedule, hstart, hadmissible, rfl⟩ := hreach
  exact ⟨origin, schedule, hstart, Machine.admissible_mono (fun _ _ h ↦ h.1) hadmissible, rfl⟩

/-- While the clock does not wrap it is not negative, and the configuration is that of the run. -/
theorem ClockedReachable.clock {w : World K C} (hreach : ClockedReachable cfg w) :
    config w = cfg ∧ 0 ≤ w.clock := by
  refine Machine.Reachable.invariant (fun w : World K C ↦ config w = cfg ∧ 0 ≤ w.clock)
    (fun w hstart ↦ ?_) (fun w s hadmits hinv ↦ ?_) hreach
  · obtain ⟨t, ht, -, rfl⟩ := hstart
    exact ⟨rfl, ht⟩
  · exact ⟨(next_config w s).trans hinv.1, hinv.2.trans (clock_le_next w s hadmits.2)⟩

/-- Where expired keys are hidden from the caller, no key is seen late. -/
theorem not_seenLate_of_hides (hhides : cfg.hides = true) {w : World K C}
    (hreach : ClockedReachable cfg w) (k : Fin K) : ¬SeenLate w k := by
  obtain ⟨hconfig, hclock⟩ := hreach.clock
  rintro ⟨hvis, httl, hlate⟩
  obtain ⟨-, -, htime64⟩ := time_of_visible hreach.timed.stored.1 hvis httl
  rw [visible_eq, hconfig, sees_of_hides hhides, httl] at hvis
  simp only [Bool.true_and, Bool.and_eq_true, Bool.not_eq_true', decide_eq_false_iff_not] at hvis
  rcases hlate with hpast | hfar
  · exact hvis.2 hpast
  · exact absurd (hfar.trans (Int.sub_le_self _ hclock)) (not_le.mpr htime64)

/-- A key whose time passes. -/
def lateSchedule : List (Step keyCount clientCount) :=
  [.cmd 0 (.set 0 Str.empty .always (.pxAt 1) false), .clockTick 2]

theorem slots_lateSchedule (cfg : Config) :
    (runSchedule (emptyWith cfg 0) lateSchedule).slots 0 = ⟨true, .str Str.empty, 1⟩ := by
  have hstored := (set_contract (emptyWith cfg 0 : World keyCount clientCount) 0 0 Str.empty .always
    (.pxAt 1) false (show 0 + 2 ≤ replCap by decide)).slot_stored (.inl rfl)
  rw [execCmd_slots] at hstored
  apply hstored
  rintro ⟨time, htime, -, hpast⟩
  obtain rfl := TtlArg.pxAt.inj htime
  exact absurd (show (1 : ℤ) ≤ 0 from hpast) (by decide)

theorem clockedReachable_late (cfg : Config) :
    ClockedReachable cfg (runSchedule (emptyWith cfg 0) lateSchedule) := by
  refine ⟨emptyWith cfg 0, lateSchedule, ⟨0, le_refl 0, by decide, rfl⟩, ?_, rfl⟩
  refine ⟨⟨by decide, trivial⟩, ⟨by decide, by decide, ?_⟩, trivial⟩
  rw [next_clock]
  show IsI64 (0 + 2)
  decide

/-- Where expired keys are not hidden from the caller, a run shows a key late. -/
theorem seenLate_of_not_hides (hhides : cfg.hides = false) :
    SeenLate (runSchedule (emptyWith cfg 0) lateSchedule) 0 := by
  have hclock : (runSchedule (emptyWith cfg 0) lateSchedule).clock = 2 := by
    have hlast : runSchedule (emptyWith cfg 0) lateSchedule = (((emptyWith cfg 0 :
        World keyCount clientCount).next
          (.cmd 0 (.set 0 Str.empty .always (.pxAt 1) false))).next (.clockTick 2)) := rfl
    rw [hlast, next_clock, next_clock]
    rfl
  refine ⟨?_, ?_, .inl ?_⟩
  · rw [visible_eq, runSchedule_config, config_emptyWith, slots_lateSchedule, Config.sees,
      Config.expired]
    cases haccess : cfg.allowAccessExpired with
    | true => rfl
    | false =>
      rw [Config.hides, haccess, Bool.not_false, Bool.true_and, Bool.not_eq_false'] at hhides
      rw [hhides, Bool.or_true]
      rfl
  · rw [slots_lateSchedule]
    rfl
  · rw [slots_lateSchedule, hclock]
    decide

/-- The codes of PTTL are unambiguous on a key in a state, if times and ticks are not negative,
exactly when the caller does not see the key late. They are unambiguous in every state of every run
in which the clock does not wrap exactly under the configurations that hide expired keys from the
caller. -/
theorem pttl_unambiguous_iff (cfg : Config) :
    (∀ w : World keyCount clientCount, TimedReachable cfg w →
      ∀ c k, PttlUnambiguous w c k ↔ ¬SeenLate w k) ∧
    ((∀ w : World keyCount clientCount, ClockedReachable cfg w → ∀ c k, PttlUnambiguous w c k) ↔
      cfg.hides = true) := by
  have hstate : ∀ w : World keyCount clientCount, TimedReachable cfg w →
      ∀ c k, PttlUnambiguous w c k ↔ ¬SeenLate w k := fun w hreach c k ↦
    pttlUnambiguous_iff_not_seenLate hreach.stored.1 hreach.stored.2 c k
  refine ⟨hstate, fun hall ↦ ?_, fun hhides w hreach c k ↦ ?_⟩
  · rw [← Bool.not_eq_false]
    intro hshown
    have hreach := clockedReachable_late cfg
    exact (hstate _ hreach.timed 0 0).mp (hall _ hreach 0 0) (seenLate_of_not_hides hshown)
  · exact (hstate w hreach.timed c k).mpr (not_seenLate_of_hides hhides hreach k)

/-- With access to expired keys allowed on a plain master, PTTL replies -1 for a key that has a
TTL. -/
theorem pttl_reports_late_key_persistent :
    let cfg : Config := ⟨.master, .normal, true, false, false, true⟩
    let w : World keyCount clientCount := runSchedule (emptyWith cfg 0) lateSchedule
    ClockedReachable cfg w ∧ (execCmd w 0 (.existsKey 0)).2 = .int 1 ∧
      (w.slots 0).hasTtl = true ∧ (execCmd w 0 (.pttl 0)).2 = .int (-1) ∧
      ¬∀ w : World keyCount clientCount, ClockedReachable cfg w → ∀ c k, PttlUnambiguous w c k := by
  intro cfg w
  have hreach : ClockedReachable cfg w := clockedReachable_late cfg
  have hexists : (execCmd w 0 (.existsKey 0)).2 = .int 1 := by decide
  have hpttl : (execCmd w 0 (.pttl 0)).2 = .int (-1) := by decide
  refine ⟨hreach, hexists, by decide, hpttl, fun hall ↦ ?_⟩
  exact absurd ((hall w hreach 0 0).persistent_iff.mp hpttl).2 (by decide)

end Runs

end RedisCvlr.Contracts
