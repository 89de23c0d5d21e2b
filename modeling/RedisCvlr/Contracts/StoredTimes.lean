import RedisCvlr.Contracts.Writes
import RedisCvlr.Keyspace.Times

/-!
# The times stored on a master

On a master a SET or an EXPIRE with an elapsed time deletes its key, so a time that is stored was in
the future when it was installed. As the clock starts at 0 or later and does not go back, a stored
time is positive, and the sentinel `noExpire` never collides with it, whatever `i64` the commands
carry.

`installed_of_stored` finds, for every stored time, the step of the run that installed it, and
`logged_in_run` finds the step that logged an effect.
-/

set_option autoImplicit false
set_option relaxedAutoImplicit false

namespace RedisCvlr.Contracts

open RedisCvlr.Library RedisCvlr.Model RedisCvlr.Watch RedisCvlr.Keyspace

variable {K C : ℕ}

/-! ### The invariant -/

/-- The step is admitted, and the time that it carries is an `i64`. -/
def AdmitsI64 (w : World K C) (s : Step K C) : Prop :=
  Admits w s ∧ ∀ target ∈ requestedTime? s, IsI64 target.2

instance (w : World K C) (s : Step K C) : Decidable (AdmitsI64 w s) :=
  inferInstanceAs (Decidable (_ ∧ _))

/-- A time that a master can have stored. -/
def Positive (time : Ms) : Prop := 1 ≤ time ∧ IsI64 time

/-- What holds along every run of a master. -/
structure MasterTimes (w : World K C) : Prop where
  role_eq : w.role = .master
  clock_nonneg : 0 ≤ w.clock
  clock_i64 : IsI64 w.clock
  absent_empty : AbsentEmpty w
  stored : StoresTimes Positive w

section Invariant

variable {w : World K C} {s : Step K C}

/-- On a master a time that has not elapsed is in the future. -/
theorem lt_of_not_elapsed (hrole : w.role = .master) {time : Ms}
    (hfuture : KeyOp.elapsed (config w) w.clock time = false) : w.clock < time := by
  rw [← not_le]
  intro hpast
  rw [(elapsed_iff w time).mpr ⟨hrole, hpast⟩] at hfuture
  exact Bool.false_ne_true hfuture.symm

theorem MasterTimes.next (h : MasterTimes w) (hadmits : AdmitsI64 w s) :
    MasterTimes (w.next s) where
  role_eq := (congrArg Config.role (next_config w s)).trans h.role_eq
  clock_nonneg := h.clock_nonneg.trans (clock_le_next w s hadmits.1)
  clock_i64 := by
    rw [next_clock]
    cases s with
    | clockTick d =>
      simp only
      rw [wrapI64_eq hadmits.1.2]
      exact hadmits.1.2
    | cmd c command => exact h.clock_i64
    | activeExpire => exact h.clock_i64
  absent_empty := h.absent_empty.next s
  stored := by
    refine h.stored.next fun k time hasked hfuture ↦ ⟨?_, hadmits.2 (k, time) hasked⟩
    exact Int.add_one_le_iff.mpr (h.clock_nonneg.trans_lt (lt_of_not_elapsed h.role_eq hfuture))

theorem masterTimes_emptyWith {cfg : Config} (hmaster : cfg.role = .master) {t : Ms} (ht : 0 ≤ t)
    (ht64 : IsI64 t) : MasterTimes (emptyWith cfg t : World K C) :=
  ⟨hmaster, ht, ht64, absentEmpty_emptyWith cfg t, storesTimes_emptyWith Positive cfg t⟩

/-- The lazy test of the C source: a time counts when it is not negative. -/
theorem MasterTimes.keyIsExpired_eq (h : MasterTimes w) (k : Fin K) :
    keyIsExpired w k = (!w.allowAccessExpired && decide (0 ≤ (w.slots k).expireAt) &&
      decide (w.clock > (w.slots k).expireAt)) := by
  have htime : (w.slots k).expireAt = noExpire ∨ 0 ≤ (w.slots k).expireAt := by
    cases hpresent : (w.slots k).present with
    | false => exact .inl (by rw [h.absent_empty k hpresent]; rfl)
    | true => exact (h.stored k hpresent).imp_right fun hpositive ↦ Int.le_of_lt hpositive.1
  rw [keyIsExpired]
  cases w.allowAccessExpired with
  | true => rfl
  | false =>
    rcases htime with hnone | hnonneg
    · rw [hnone]
      rfl
    · have hne : (w.slots k).expireAt ≠ noExpire := by
        intro hnone
        rw [hnone] at hnonneg
        exact absurd hnonneg (by decide)
      simp [hne, hnonneg]

/-- The difference of two `i64` of which neither is below -1 does not overflow. -/
theorem isI64_sub {time now : ℤ} (hlow : -1 ≤ time) (hhigh : time < 2 ^ 63) (hnow : 0 ≤ now)
    (hnow64 : now < 2 ^ 63) : IsI64 (time - now) := by
  constructor <;> omega

/-- The difference that PTTL computes is an `i64`. -/
theorem MasterTimes.remaining_i64 (h : MasterTimes w) (k : Fin K) :
    IsI64 ((w.slots k).expireAt - w.clock) := by
  have htime : -1 ≤ (w.slots k).expireAt ∧ (w.slots k).expireAt < 2 ^ 63 := by
    cases hpresent : (w.slots k).present with
    | false =>
      rw [h.absent_empty k hpresent]
      decide
    | true =>
      rcases h.stored k hpresent with hnone | ⟨hpositive, -, htime64⟩
      · rw [hnone]
        decide
      · exact ⟨le_trans (by decide) hpositive, htime64⟩
  exact isI64_sub htime.1 htime.2 h.clock_nonneg h.clock_i64.2

end Invariant

/-! ### Where a stored time comes from -/

/-- A step of the run asked for the time on the key when the time was in the future, and the key has
kept it since. -/
def InstalledInRun (origin : World K C) (schedule : List (Step K C)) (k : Fin K) (time : Ms) :
    Prop :=
  ∃ before s after, schedule = before ++ s :: after ∧ requestedTime? s = some (k, time) ∧
    (runSchedule origin before).clock < time ∧
    ∀ later, later <+: after →
      ((runSchedule origin (before ++ s :: later)).slots k).present = true ∧
        ((runSchedule origin (before ++ s :: later)).slots k).expireAt = time

section Provenance

variable {origin : World K C}

/-- On a master that starts without stored times, every stored time was installed in the run. -/
theorem installed_of_stored (hmaster : origin.role = .master)
    (hstart : StoresTimes (fun _ ↦ False) origin) (schedule : List (Step K C)) (k : Fin K)
    (hpresent : ((runSchedule origin schedule).slots k).present = true)
    (httl : ((runSchedule origin schedule).slots k).expireAt ≠ noExpire) :
    InstalledInRun origin schedule k ((runSchedule origin schedule).slots k).expireAt := by
  generalize htime : ((runSchedule origin schedule).slots k).expireAt = time at httl
  have hborn := Machine.run_provenance
    (fun w : World K C ↦ (w.slots k).present = true ∧ (w.slots k).expireAt = time)
    (fun w s ↦ requestedTime? s = some (k, time) ∧ w.clock < time) origin
    (fun before s hfact ↦ ?_) schedule ⟨hpresent, htime⟩
  · rcases hborn with ⟨hold, hsame⟩ | ⟨before, s, after, hsplit, ⟨hasked, hclock⟩, hkept⟩
    · exact absurd (hstart k hold) (by simpa [hsame] using httl)
    · exact ⟨before, s, after, hsplit, hasked, hclock, hkept⟩
  · obtain ⟨hnow, rfl⟩ := hfact
    rcases mayStore_next (runSchedule origin before) s k hnow with
      hnone | ⟨hold, hsame⟩ | ⟨hasked, hfuture⟩
    · exact absurd hnone httl
    · exact .inl ⟨hold, hsame.symm⟩
    · have hrole : (runSchedule origin before).role = .master :=
        (congrArg Config.role (runSchedule_config origin before)).trans hmaster
      exact .inr ⟨hasked, lt_of_not_elapsed hrole hfuture⟩

/-- Pushing onto the log adds the pushed effect or, when the log is full, nothing. -/
theorem mem_entries_push {log : ReplLog K} {e pushed : Effect K}
    (hmem : e ∈ (log.push pushed).entries) : e ∈ log.entries ∨ e = pushed := by
  by_cases hroom : log.len < replCap
  · rw [(entries_push hroom pushed).1, List.mem_append, List.mem_singleton] at hmem
    exact hmem
  · rw [ReplLog.push, if_neg hroom] at hmem
    exact .inl hmem

theorem mem_entries_applyEdits {e : Effect K} (w : World K C) (edits : List (Fin K × Edit))
    (hmem : e ∈ (applyEdits w edits).repl.entries) :
    e ∈ w.repl.entries ∨ e ∈ edits.map fun edit ↦ edit.2.effect edit.1 := by
  induction edits generalizing w with
  | nil => exact .inl hmem
  | cons edit rest ih =>
    obtain ⟨k, e'⟩ := edit
    rcases ih (applyEdit w (k, e')) hmem with hold | hlater
    · rw [applyEdit_repl] at hold
      refine (mem_entries_push hold).imp_right fun heq ↦ ?_
      rw [heq]
      exact List.mem_cons_self
    · exact .inr (List.mem_cons_of_mem _ hlater)

/-- What the log holds after a step was there before, or the step emits it. -/
theorem mem_entries_next (hK : K ≤ replCap) {w : World K C} {s : Step K C} {e : Effect K}
    (hmem : e ∈ (w.next s).repl.entries) : e ∈ w.repl.entries ∨ e ∈ emitted w s := by
  rw [emitted_eq w s hK]
  revert hmem
  refine next_rule (fun w' ↦ e ∈ w'.repl.entries → e ∈ w.repl.entries ∨ _) s
    (fun _ _ hmem ↦ .inl hmem) (fun _ client k _ hmem ↦ .inl ?_)
    (fun _ client _ hmem ↦ .inl ?_) fun _ hmem ↦ ?_
  · rwa [repl_of_frame (watchKey_frame _ client k)] at hmem
  · rwa [repl_of_frame (unwatchAll_frame _ client)] at hmem
  · exact mem_entries_applyEdits (freshUnit w) (stepEdits w s) hmem

/-- Every logged effect was emitted by a step of the run, when the log starts empty. -/
theorem logged_in_run (hK : K ≤ replCap) (hempty : origin.repl.entries = [])
    (schedule : List (Step K C)) {e : Effect K}
    (hmem : e ∈ (runSchedule origin schedule).repl.entries) :
    ∃ before s after, schedule = before ++ s :: after ∧
      e ∈ emitted (runSchedule origin before) s := by
  have hborn := Machine.run_provenance (fun w : World K C ↦ e ∈ w.repl.entries)
    (fun w s ↦ e ∈ emitted w s) origin (fun before s hfact ↦ mem_entries_next hK hfact) schedule
    hmem
  rcases hborn with hold | ⟨before, s, after, hsplit, hemitted, -⟩
  · rw [hempty] at hold
    exact absurd hold List.not_mem_nil
  · exact ⟨before, s, after, hsplit, hemitted⟩

end Provenance

/-! ### SET effects -/

section SetEffects

variable {w : World K C} {s : Step K C} {k : Fin K} {val : Str} {pxat : Ms}

/-- Only a SET writes a value. -/
theorem write?_eq_put {op : KeyOp} {cfg : Config} {now : Ms} {slot : Slot}
    (hwrite : op.write? cfg now slot = some (.put val pxat)) :
    ∃ cond ttl getOld, op = .set val cond ttl getOld ∧
      pxat = installedExpire ttl (cfg.sees now slot) slot.expireAt ∧
      KeyOp.ttlElapsed cfg now ttl = false := by
  cases op with
  | set val' cond ttl getOld =>
    simp only [KeyOp.write?] at hwrite
    split_ifs at hwrite with hallowed helapsed hspared
    · exact absurd (Option.some.inj hwrite) (by simp)
    · obtain ⟨rfl, rfl⟩ := Edit.put.inj (Option.some.inj hwrite)
      exact ⟨cond, ttl, getOld, rfl, rfl, (Bool.not_eq_true _).mp helapsed⟩
  | del => simp [KeyOp.write?] at hwrite
  | expire time cond =>
    simp only [KeyOp.write?] at hwrite
    split_ifs at hwrite <;> exact absurd (Option.some.inj hwrite) (by simp)
  | persist => simp [KeyOp.write?] at hwrite
  | get => simp [KeyOp.write?] at hwrite
  | existsKey => simp [KeyOp.write?] at hwrite
  | type => simp [KeyOp.write?] at hwrite
  | pttl => simp [KeyOp.write?] at hwrite

theorem eq_set_of_keyOp {command : Cmd K C} {cond : SetCond} {ttl : TtlArg} {getOld : Bool}
    (hop : keyOp? command = some (k, .set val cond ttl getOld)) :
    command = .set k val cond ttl getOld := by
  cases command <;> simp_all [keyOp?]

/-- The command that logs a SET effect, and what it installs. -/
theorem set_of_emitted (hK : K ≤ replCap) (hmem : .set k val pxat ∈ emitted w s) :
    ∃ c cond ttl get, s = .cmd c (.set k val cond ttl get) ∧
      pxat = requestedExpire ttl (visible w k) (w.slots k).expireAt ∧
      (w.next s).slots k = ⟨true, .str val, pxat⟩ ∧ ¬SetElapses w ttl := by
  rw [set_mem_emitted_iff w s hK] at hmem
  have hslot := next_slots w s k
  revert hmem hslot
  refine editsOn_rule w (fun edits ↦ .put val pxat ∈ edits →
      (w.next s).slots k = edits.foldl (fun s (e : Edit) ↦ e.slot s) (w.slots k) → _) k s
    (fun hmem ↦ ?_) (fun _ _ hmem ↦ ?_) fun c command op hs hop hmem hslot ↦ ?_
  · exact absurd hmem List.not_mem_nil
  · simp at hmem
  · have hwrite : op.write? (config w) w.clock (w.slots k) = some (.put val pxat) := by
      rw [KeyOp.edits, List.mem_append, Option.mem_toList] at hmem
      rcases hmem with hpurge | hwrite
      · split_ifs at hpurge <;> simp at hpurge
      · exact hwrite
    obtain ⟨cond, ttl, getOld, rfl, htime, helapsed⟩ := write?_eq_put hwrite
    rw [foldl_edits, hwrite] at hslot
    refine ⟨c, cond, ttl, getOld, by rw [hs, eq_set_of_keyOp hop], ?_, hslot, ?_⟩
    · rw [htime, requestedExpire_eq, visible_eq]
    · rw [← ttlElapsed_iff, helapsed]
      exact Bool.false_ne_true

/-- On a master a SET effect without a time comes from a SET that asks for none, or that keeps the
time of a key that has none for the caller. -/
theorem MasterTimes.pxat_eq_noExpire_iff (h : MasterTimes w) {ttl : TtlArg}
    (helapses : ¬SetElapses w ttl) :
    requestedExpire ttl (visible w k) (w.slots k).expireAt = noExpire ↔
      ttl = .none ∨ (ttl = .keep ∧ ¬(visible w k = true ∧ (w.slots k).hasTtl = true)) := by
  cases ttl with
  | none => simp [requestedExpire]
  | keep => cases hvis : visible w k <;> simp [requestedExpire, Slot.hasTtl]
  | pxAt time =>
    have hfuture : w.clock < time := by
      rw [← not_le]
      exact fun hpast ↦ helapses ⟨time, rfl, h.role_eq, hpast⟩
    have hne : time ≠ noExpire := by
      rintro rfl
      exact absurd (h.clock_nonneg.trans_lt hfuture) (by decide)
    simpa [requestedExpire] using hne

end SetEffects

/-! ### Runs of a master -/

section Master

variable {cfg : Config} {t : Ms} {schedule : List (Step keyCount clientCount)}

theorem masterTimes_run (hmaster : cfg.role = .master) (ht : 0 ≤ t) (ht64 : IsI64 t)
    (hruns : Machine.Admissible World.next AdmitsI64
      (emptyWith cfg t : World keyCount clientCount) schedule) :
    MasterTimes (runSchedule (emptyWith cfg t) schedule) :=
  Machine.run_invariant MasterTimes (fun _ _ hadmits h ↦ h.next hadmits)
    (masterTimes_emptyWith hmaster ht ht64) hruns

/-- Every run of a master stores no TTL or a positive time, which was in the future when a step of
the run installed it; absent slots are empty. The lazy expiry test is therefore that of the C
source, a SET effect carries -1 exactly when there is no TTL, and the difference of PTTL does not
overflow. -/
theorem master_stored_times (cfg : Config) (t : Ms) (schedule : List (Step keyCount clientCount))
    (hmaster : cfg.role = .master) (ht : 0 ≤ t) (ht64 : IsI64 t)
    (hruns : Machine.Admissible World.next AdmitsI64
      (emptyWith cfg t : World keyCount clientCount) schedule) :
    let origin : World keyCount clientCount := emptyWith cfg t
    let w := runSchedule origin schedule
    (∀ k, (w.slots k).present = false → w.slots k = Slot.absent) ∧
    (∀ k, (w.slots k).present = true → (w.slots k).expireAt = noExpire ∨
      (1 ≤ (w.slots k).expireAt ∧ InstalledInRun origin schedule k (w.slots k).expireAt)) ∧
    (∀ k, keyIsExpired w k = (!w.allowAccessExpired && decide (0 ≤ (w.slots k).expireAt) &&
      decide (w.clock > (w.slots k).expireAt))) ∧
    (∀ k val pxat, .set k val pxat ∈ w.repl.entries →
      ∃ before s after, schedule = before ++ s :: after ∧
        .set k val pxat ∈ emitted (runSchedule origin before) s) ∧
    (∀ s, AdmitsI64 w s → ∀ k val pxat, .set k val pxat ∈ emitted w s →
      (w.next s).slots k = ⟨true, .str val, pxat⟩ ∧ (pxat = noExpire ∨ 1 ≤ pxat) ∧
      ∃ c cond ttl get, s = .cmd c (.set k val cond ttl get) ∧
        (pxat = noExpire ↔ ttl = .none ∨
          (ttl = .keep ∧ ¬(visible w k = true ∧ (w.slots k).hasTtl = true)))) ∧
    ∀ k, IsI64 ((w.slots k).expireAt - w.clock) := by
  have hK : keyCount ≤ replCap := by decide
  have htimes := masterTimes_run hmaster ht ht64 hruns
  refine ⟨htimes.absent_empty, fun k hpresent ↦ ?_, htimes.keyIsExpired_eq,
    fun k val pxat hmem ↦ ?_, fun s hadmits k val pxat hmem ↦ ?_, htimes.remaining_i64⟩
  · rcases htimes.stored k hpresent with hnone | hpositive
    · exact .inl hnone
    · have httl : ((runSchedule (emptyWith cfg t) schedule).slots k).expireAt ≠ noExpire := by
        intro hnone
        rw [hnone] at hpositive
        exact absurd hpositive.1 (by decide)
      exact .inr ⟨hpositive.1, installed_of_stored hmaster (storesTimes_emptyWith _ cfg t)
        schedule k hpresent httl⟩
  · exact logged_in_run hK rfl schedule hmem
  · obtain ⟨c, cond, ttl, get, rfl, rfl, hslot, helapses⟩ := set_of_emitted hK hmem
    have hstored := (htimes.next hadmits).stored k (by rw [hslot])
    rw [hslot] at hstored
    exact ⟨hslot, hstored.imp_right And.left, c, cond, ttl, get, rfl,
      htimes.pxat_eq_noExpire_iff helapses⟩

/-- A run with a future time, a time that is the sentinel, and the least `i64`. -/
def extremeSchedule : List (Step keyCount clientCount) :=
  [.cmd 0 (.set 0 Str.empty .always (.pxAt 7) false), .clockTick 3,
    .cmd 0 (.set 1 Str.empty .always (.pxAt (-1)) false),
    .cmd 0 (.expire 0 (-9223372036854775808) .gt)]

theorem master_stored_times_extreme :
    let w : World keyCount clientCount :=
      runSchedule (emptyWith ⟨.master, .normal, true, true, true, false⟩ 0) extremeSchedule
    w.slots 1 = Slot.absent ∧
      InstalledInRun (emptyWith ⟨.master, .normal, true, true, true, false⟩ 0) extremeSchedule 0 7 ∧
      IsI64 ((w.slots 0).expireAt - w.clock) := by
  obtain ⟨habsent, hstored, -, -, -, hremaining⟩ :=
    master_stored_times ⟨.master, .normal, true, true, true, false⟩ 0 extremeSchedule rfl
      (by decide) (by decide) (by decide)
  refine ⟨habsent 1 (by decide), ?_, hremaining 0⟩
  rcases hstored 0 (by decide) with hnone | ⟨-, hinstalled⟩
  · exact absurd hnone (by decide)
  · exact hinstalled

end Master

end RedisCvlr.Contracts
