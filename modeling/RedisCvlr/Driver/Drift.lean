import RedisCvlr.Driver.Snapshots
import RedisCvlr.Keyspace.Clocks

/-!
# Clock drift

A server reads its own clock, which is ahead of the clock of the model by as long as the commands of
a schedule have taken. Drawn times keep away from every clock that a schedule passes: one offset is
over before the run starts, one is crossed by the first tick and the last is not reached. So a run
whose clock is ahead by less than the smallest offset has the same slots and the same replies as the
run of the model, up to the remaining time in the reply to PTTL.
-/

set_option autoImplicit false
set_option relaxedAutoImplicit false

namespace RedisCvlr.Driver

open RedisCvlr.Library RedisCvlr.Model RedisCvlr.Keyspace

variable {K C : ℕ}

/-! ### Drawn commands -/

/-- The offsets of drawn times. -/
def IsOffset (off : ℤ) : Prop := off = -10000 ∨ off = 30 ∨ off = 600000

/-- A time that is drawn as the base and an offset. -/
def NearBase (base time : Ms) : Prop := ∃ off, IsOffset off ∧ time = wrapI64 (base + off)

/-- A command that asks for no time, or for the base and an offset. -/
def AsksNearBase (base : Ms) (command : Cmd K C) : Prop :=
  ∀ c, ∀ target ∈ requestedTime? (.cmd c command), NearBase base target.2

/-- The commands in the range of `drawDiffCmd`. -/
def Drawn [NeZero K] (base : Ms) (command : Cmd K C) : Prop :=
  ∃ stream, (drawDiffCmd base).value stream = command

/-- What every drawn command is: one that can be sent, with a drawn value and with times near the
base. -/
def DiffCmdInRange (base : Ms) : Cmd K C → Prop
  | .set _ val _ ttl _ => (∃ id, val = drawnStr id) ∧ ∀ time, ttl = .pxAt time → NearBase base time
  | .expire _ time _ => NearBase base time
  | .watch _ _ => False
  | .unwatch _ => False
  | _ => True

section Draws

theorem draws_drawTtlOffset : Draws (fun off ↦ ∀ t ∈ off, IsOffset t) drawTtlOffset := by
  refine draws_bind (draws_nondetRange (by decide)) fun n _ ↦ ?_
  split
  · exact draws_pure fun t ht ↦ absurd ht (Option.not_mem_none t)
  · exact draws_pure fun t ht ↦ Option.mem_some.mp ht ▸ .inl rfl
  · exact draws_pure fun t ht ↦ Option.mem_some.mp ht ▸ .inr (.inl rfl)
  · exact draws_pure fun t ht ↦ Option.mem_some.mp ht ▸ .inr (.inr rfl)

theorem draws_drawDiffTtl (base : Ms) :
    Draws (fun ttl ↦ ∀ time, ttl = .pxAt time → NearBase base time) (drawDiffTtl base) := by
  refine draws_bind draws_drawTtlOffset fun off hoff ↦ ?_
  cases off with
  | none =>
    refine draws_bind (draws_nondetRange (by decide)) fun n _ ↦ ?_
    split_ifs
    · exact draws_pure fun time htime ↦ TtlArg.noConfusion htime
    · exact draws_pure fun time htime ↦ TtlArg.noConfusion htime
  | some off =>
    exact draws_pure fun time htime ↦ ⟨off, hoff off rfl, (TtlArg.pxAt.inj htime).symm⟩

theorem draws_drawDiffCmd [NeZero K] (base : Ms) :
    Draws (DiffCmdInRange base) (drawDiffCmd base : Rule (Cmd K C)) := by
  refine draws_bind draws_drawKey fun k _ ↦ draws_bind (draws_nondetRange (by decide)) fun n _ ↦ ?_
  have hset : Draws (DiffCmdInRange base) (do
      let val ← drawStr
      let cond ← drawSetCond
      let ttl ← drawDiffTtl base
      let get ← nondetRange 2
      return .set k val cond ttl (get == 0) : Rule (Cmd K C)) := by
    refine draws_bind draws_drawStr fun val hval ↦ draws_bind draws_drawSetCond fun cond _ ↦ ?_
    refine draws_bind (draws_drawDiffTtl base) fun ttl httl ↦ ?_
    exact draws_bind (draws_nondetRange (by decide)) fun get _ ↦ draws_pure ⟨hval, httl⟩
  split
  · exact hset
  · exact hset
  · exact draws_pure trivial
  · exact draws_pure trivial
  · exact draws_pure trivial
  · exact draws_pure trivial
  · refine draws_bind draws_drawTtlOffset fun off hoff ↦ ?_
    refine draws_bind draws_drawExpireCond fun cond _ ↦ draws_pure ?_
    cases off with
    | none => exact ⟨far, .inr (.inr rfl), rfl⟩
    | some off => exact ⟨off, hoff off rfl, rfl⟩
  · exact draws_pure trivial
  · exact draws_pure trivial
  · exact draws_pure trivial
  · exact draws_pure trivial

theorem inRange_of_drawn [NeZero K] {base : Ms} {command : Cmd K C} (h : Drawn base command) :
    DiffCmdInRange base command := by
  obtain ⟨stream, rfl⟩ := h
  exact (draws_drawDiffCmd base stream).1

/-- A drawn command asks for the base and an offset, if for a time at all. -/
theorem asksNearBase_of_drawn [NeZero K] {base : Ms} {command : Cmd K C} (h : Drawn base command) :
    AsksNearBase base command := by
  have hrange := inRange_of_drawn h
  intro c target htarget
  cases command with
  | set k val cond ttl get =>
    cases ttl with
    | none => exact absurd htarget (Option.not_mem_none target)
    | keep => exact absurd htarget (Option.not_mem_none target)
    | pxAt time =>
      obtain rfl := Option.mem_some.mp htarget
      exact hrange.2 time rfl
  | expire k time cond =>
    obtain rfl := Option.mem_some.mp htarget
    exact hrange
  | _ => exact absurd htarget (Option.not_mem_none target)

/-- The commands of a drawn schedule are drawn, by induction on its length. -/
theorem draws_drawSchedule [NeZero K] (base : Ms) (len : ℕ) :
    Draws (fun schedule ↦ schedule.length = len ∧
        ∀ command, .cmd command ∈ schedule → Drawn base command)
      (drawSchedule base len : Rule (List (DiffStep K C))) := by
  induction len with
  | zero => exact draws_pure ⟨rfl, fun command hmem ↦ absurd hmem List.not_mem_nil⟩
  | succ len ih =>
    have hstep : Draws (fun s ↦ ∀ command, s = .cmd command → Drawn base command)
        (drawDiffStep base : Rule (DiffStep K C)) := by
      refine draws_bind (draws_nondetRange (by decide)) fun n _ ↦ ?_
      split_ifs
      · exact draws_pure fun command hs ↦ absurd hs (by simp)
      · have hdrawn : Draws (Drawn base) (drawDiffCmd base : Rule (Cmd K C)) :=
          fun stream ↦ ⟨⟨stream, rfl⟩, (draws_drawDiffCmd base stream).2⟩
        refine draws_bind hdrawn fun drawn hrange ↦ draws_pure fun command hs ↦ ?_
        exact DiffStep.cmd.inj hs ▸ hrange
    refine draws_bind hstep fun s hs ↦ draws_bind ih fun rest hrest ↦ ?_
    refine draws_pure ⟨congrArg (· + 1) hrest.1, fun command hmem ↦ ?_⟩
    rcases List.mem_cons.mp hmem with hhead | htail
    · exact hs command hhead.symm
    · exact hrest.2 command htail

end Draws

/-! ### The drifted run -/

/-- A reading of a clock that is ahead of the clock of the model, by less than 30 milliseconds. -/
def Drifted (base : Ms) (ticks : ℕ) (now : Ms) : Prop :=
  IsI64 now ∧ 0 ≤ now - (base + tickMs * ticks) ∧ now - (base + tickMs * ticks) < 30

/-- A schedule in which every command comes with a reading that has drifted, and so does the end. -/
def WithinDrift (base last : Ms) : ℕ → List (DiffStep K C × Ms) → Prop
  | ticks, [] => Drifted base ticks last
  | ticks, (.tick, _) :: rest => WithinDrift base last (ticks + 1) rest
  | ticks, (.cmd _, now) :: rest => Drifted base ticks now ∧ WithinDrift base last ticks rest

/-- The number of ticks of a schedule. -/
def tickCount (schedule : List (DiffStep K C × Ms)) : ℕ := (schedule.map Prod.fst).count .tick

section Runs

variable [NeZero C]

/-- One step of a run that takes its clock from the readings. -/
def driftStep (w : World K C) : DiffStep K C × Ms → World K C × Option (Reply K)
  | (.cmd command, now) =>
    let executed := execCmd { w with clock := now } 0 command
    (executed.1, some executed.2)
  | (.tick, _) => (w, none)

/-- The run of a schedule that takes its clock from the readings. -/
def driftRun : World K C → List (DiffStep K C × Ms) → World K C × List (Observation K C)
  | w, [] => (w, [])
  | w, timed :: rest =>
    let stepped := driftStep w timed
    let run := driftRun stepped.1 rest
    (run.1, ⟨timed.1, stepped.1.slots, stepped.2⟩ :: run.2)

end Runs

/-- Two replies that the harness does not tell apart: the same reply, or remaining times in the same
bucket. -/
def SameReply (s : DiffStep K C) (reply reply' : Option (Reply K)) : Prop :=
  if s.isPttl then
    ∃ m n, reply = some (.int m) ∧ reply' = some (.int n) ∧ bucket m = bucket n
  else reply = reply'

/-- Two observations of the same step with the same slots and replies that are not told apart. -/
structure SameObservation (o o' : Observation K C) : Prop where
  step_eq : o.step = o'.step
  slots_eq : o.slots = o'.slots
  reply : SameReply o.step o.reply o'.reply

/-- The harness passes the same verdict on both replies, whatever the server replied. -/
theorem repliesAgree_eq {s : DiffStep K C} {reply reply' : Reply K}
    (h : SameReply s (some reply) (some reply')) (server : Resp) :
    repliesAgree reply server s.isPttl = repliesAgree reply' server s.isPttl := by
  rw [SameReply] at h
  split_ifs at h with hpttl
  · obtain ⟨m, n, hm, hn, hbucket⟩ := h
    obtain rfl := Option.some.inj hm
    obtain rfl := Option.some.inj hn
    rw [repliesAgree, repliesAgree, if_pos hpttl, if_pos hpttl]
    simp only [bucketsAgree, hbucket]
  · rw [Option.some.inj h]

/-! ### Margins -/

section Margins

variable {base now time off : ℤ} {ticks : ℕ}

/-- A time that a run can have stored. -/
def AheadOfBase (base time : ℤ) : Prop := (time = base + 30 ∨ time = base + 600000) ∧ IsI64 time

/-- A drawn time is the base and its offset, or it has wrapped and lies before every clock. -/
theorem drawn_time_cases (hbase : 10001 ≤ base) (hbase64 : IsI64 base) (hoff : IsOffset off) :
    wrapI64 (base + off) = base + off ∨ wrapI64 (base + off) < 0 := by
  obtain ⟨-, hbase64⟩ := hbase64
  rw [wrapI64_eq_ite]
  rcases hoff with rfl | rfl | rfl <;> split_ifs <;> omega

theorem le_iff_of_drift (hbase : 10001 ≤ base) (hbase64 : IsI64 base) (hticks : ticks ≤ 9999)
    (hlow : 0 ≤ now - (base + 60 * ticks)) (hhigh : now - (base + 60 * ticks) < 30)
    (hoff : IsOffset off) :
    wrapI64 (base + off) ≤ now ↔ wrapI64 (base + off) ≤ base + 60 * ticks := by
  rcases drawn_time_cases hbase hbase64 hoff with hexact | hwrapped
  · rw [hexact]
    rcases hoff with rfl | rfl | rfl <;> omega
  · omega

theorem nonneg_of_drift (hbase : 10001 ≤ base) (hlow : 0 ≤ now - (base + 60 * ticks)) :
    0 ≤ base + 60 * (ticks : ℤ) ∧ 0 ≤ now := by
  omega

theorem tick_le (base : ℤ) (ticks : ℕ) : base + 60 * ticks ≤ base + 60 * (ticks + 1 : ℕ) := by
  omega

/-- The clock of the model does not wrap before the last reading. -/
theorem wrapI64_tick {last : ℤ} (hbase : 10001 ≤ base) (hlast : base + 60 * (ticks + 1 : ℕ) ≤ last)
    (hlast64 : IsI64 last) :
    wrapI64 (base + 60 * ticks + 60) = base + 60 * (ticks + 1 : ℕ) := by
  obtain ⟨-, hlast64⟩ := hlast64
  have hi64 : IsI64 (base + 60 * ticks + 60) := ⟨by omega, by omega⟩
  rw [wrapI64_eq hi64]
  omega

/-- A drawn time that has not elapsed is ahead of the base. -/
theorem aheadOfBase_of_lt (hbase : 10001 ≤ base) (hbase64 : IsI64 base) (hoff : IsOffset off)
    (hfuture : base + 60 * ticks < wrapI64 (base + off)) :
    AheadOfBase base (wrapI64 (base + off)) := by
  refine ⟨?_, isI64_wrapI64 _⟩
  rcases drawn_time_cases hbase hbase64 hoff with hexact | hwrapped
  · rw [hexact] at hfuture ⊢
    rcases hoff with rfl | rfl | rfl <;> omega
  · omega

/-- The clocks are on the same side of a stored time, and never on it. -/
theorem lt_iff_of_drift (hticks : ticks ≤ 9999) (hlow : 0 ≤ now - (base + 60 * ticks))
    (hhigh : now - (base + 60 * ticks) < 30) (htime : AheadOfBase base time) :
    time < now ↔ time < base + 60 * ticks := by
  obtain ⟨rfl | rfl, -⟩ := htime <;> omega

end Margins

/-! ### The coupling of the two runs -/

theorem eq_pttl_of_isPttl {command : Cmd K C} (h : (DiffStep.cmd command).isPttl = true) :
    ∃ k, command = .pttl k := by
  cases command <;> first | exact ⟨_, rfl⟩ | exact absurd h Bool.false_ne_true

/-- What holds between the run of the model and the drifted run after some ticks. -/
structure Coupled (base : Ms) (ticks : ℕ) (w w' : World K C) : Prop where
  slots_eq : w'.slots = w.slots
  config_eq : config w' = config w
  standard : config w = ⟨.master, .normal, false, false, false, true⟩
  clock_eq : w.clock = base + tickMs * ticks
  stored : StoresTimes (AheadOfBase base) w

section Coupling

variable {base now last : Ms} {ticks : ℕ} {w w' : World K C} {c : Fin C} {command : Cmd K C}

theorem Coupled.sameButClock (h : Coupled base ticks w w') (hticks : ticks ≤ 9999)
    (hdrift : Drifted base ticks now) : SameButClock w { w' with clock := now } where
  slots_eq := h.slots_eq
  config_eq := h.config_eq
  expired_eq k hpresent := by
    rw [Config.expired, Config.expired, h.clock_eq]
    rcases h.stored k hpresent with hnone | htime
    · have httl : (w.slots k).hasTtl = false := by simp [Slot.hasTtl, hnone]
      rw [httl, Bool.and_false]
      rfl
    · have hside := lt_iff_of_drift hticks hdrift.2.1 hdrift.2.2 htime
      exact congrArg _ (decide_eq_decide.mpr hside)

theorem Coupled.sameRequest (h : Coupled base ticks w w') (hbase : 10001 ≤ base)
    (hbase64 : IsI64 base) (hticks : ticks ≤ 9999) (hdrift : Drifted base ticks now)
    (hasks : AsksNearBase base command) : SameRequest w { w' with clock := now } c command := by
  intro target htarget
  obtain ⟨off, hoff, htime⟩ := hasks c target htarget
  have hside := le_iff_of_drift hbase hbase64 hticks hdrift.2.1 hdrift.2.2 hoff
  rw [KeyOp.elapsed, KeyOp.elapsed, h.clock_eq, htime]
  exact congrArg (· && _) (decide_eq_decide.mpr hside)

/-- The remaining time of a key that the caller sees is not negative. -/
theorem remaining_nonneg {cfg : Config}
    (hstandard : cfg = ⟨.master, .normal, false, false, false, true⟩) {s : Slot}
    (hsees : cfg.sees now s = true) (httl : s.hasTtl = true) (hnow : 0 ≤ now)
    (htime : IsI64 s.expireAt) : 0 ≤ wrapI64 (s.expireAt - now) := by
  subst hstandard
  refine wrapI64_remaining htime hnow ?_
  rw [Config.sees, Config.expired, httl] at hsees
  simpa [Config.fromMaster] using (Bool.and_eq_true_iff.mp hsees).2

theorem bucket_of_nonneg {n : ℤ} (hn : 0 ≤ n) : bucket n = 0 := by
  rw [bucket, if_neg (by omega), if_neg (by omega)]

/-- The replies to PTTL fall in the same bucket. -/
theorem Coupled.pttl (h : Coupled base ticks w w') (hbase : 10001 ≤ base) (hticks : ticks ≤ 9999)
    (hdrift : Drifted base ticks now) (c : Fin C) (k : Fin K) :
    ∃ m n, (execCmd w c (.pttl k)).2 = .int m ∧
      (execCmd { w' with clock := now } c (.pttl k)).2 = .int n ∧ bucket m = bucket n := by
  have hsame := h.sameButClock hticks hdrift
  have hop : keyOp? (.pttl k : Cmd K C) = some (k, .pttl) := rfl
  rw [execCmd_eq_outcome w c hop, execCmd_eq_outcome { w' with clock := now } c hop,
    hsame.config_eq, hsame.slots_eq]
  refine ⟨_, _, rfl, rfl, ?_⟩
  rw [Config.sees_congr (hsame.expired_eq k)]
  cases hsees : (config w).sees w.clock (w.slots k) with
  | false => rfl
  | true =>
    cases httl : (w.slots k).hasTtl with
    | false => rfl
    | true =>
      have hclocks := nonneg_of_drift hbase hdrift.2.1
      have hstored := h.stored k (Config.present_of_sees hsees)
      have htime := (hstored.resolve_left (by simpa [Slot.hasTtl] using httl)).2
      have hsees' := (Config.sees_congr (hsame.expired_eq k)).trans hsees
      rw [if_pos rfl, if_pos rfl, if_pos rfl, bucket_of_nonneg, bucket_of_nonneg]
      · exact remaining_nonneg h.standard hsees' httl hclocks.2 htime
      · exact remaining_nonneg h.standard hsees httl (h.clock_eq ▸ hclocks.1) htime

/-- One command in both runs. -/
theorem Coupled.cmd (h : Coupled base ticks w w') (hbase : 10001 ≤ base) (hbase64 : IsI64 base)
    (hticks : ticks ≤ 9999) (hdrift : Drifted base ticks now) (hasks : AsksNearBase base command)
    (c : Fin C) :
    Coupled base ticks (execCmd w c command).1 (execCmd { w' with clock := now } c command).1 ∧
      SameReply (.cmd command) (some (execCmd w c command).2)
        (some (execCmd { w' with clock := now } c command).2) := by
  have hsame := h.sameButClock hticks hdrift
  have hrequest : SameRequest w { w' with clock := now } c command :=
    h.sameRequest hbase hbase64 hticks hdrift hasks
  refine ⟨⟨hsame.slots_execCmd hrequest, ?_, ?_, ?_, ?_⟩, ?_⟩
  · rw [execCmd_config, execCmd_config]
    exact hsame.config_eq
  · rw [execCmd_config]
    exact h.standard
  · rw [execCmd_clock]
    exact h.clock_eq
  · refine h.stored.execCmd fun k time hasked hfuture ↦ ?_
    obtain ⟨off, hoff, htime⟩ := hasks c (k, time) hasked
    simp only at htime
    subst htime
    have hlate : w.clock < wrapI64 (base + off) := by
      simpa [KeyOp.elapsed, h.standard] using hfuture
    rw [h.clock_eq] at hlate
    exact aheadOfBase_of_lt hbase hbase64 hoff hlate
  · rw [SameReply]
    split_ifs with hpttl
    · obtain ⟨k, rfl⟩ := eq_pttl_of_isPttl hpttl
      obtain ⟨m, n, hm, hn, hbucket⟩ := h.pttl hbase hticks hdrift c k
      exact ⟨m, n, congrArg some hm, congrArg some hn, hbucket⟩
    · rw [hsame.reply_execCmd hrequest]
      rintro k rfl
      exact hpttl rfl

/-- A schedule within drift ends at a reading that no clock of the model exceeds. -/
theorem WithinDrift.le_last {schedule : List (DiffStep K C × Ms)}
    (h : WithinDrift base last ticks schedule) : base + tickMs * ticks ≤ last ∧ IsI64 last := by
  induction schedule generalizing ticks with
  | nil => exact ⟨Int.sub_nonneg.mp h.2.1, h.1⟩
  | cons timed rest ih =>
    obtain ⟨s, now⟩ := timed
    cases s with
    | cmd command => exact ih h.2
    | tick =>
      refine ⟨le_trans ?_ (ih h).1, (ih h).2⟩
      exact tick_le base ticks

/-- A tick in both runs. -/
theorem Coupled.tick [NeZero C] (h : Coupled base ticks w w') (hbase : 10001 ≤ base)
    (hlast : base + tickMs * (ticks + 1 : ℕ) ≤ last ∧ IsI64 last) :
    Coupled base (ticks + 1) (modelStep w .tick).1 w' where
  slots_eq := h.slots_eq
  config_eq := h.config_eq
  standard := h.standard
  clock_eq := by
    show wrapI64 (w.clock + tickMs) = _
    rw [h.clock_eq]
    exact wrapI64_tick hbase hlast.1 hlast.2
  stored := h.stored

end Coupling

/-! ### Runs -/

/-- Worlds whose clocks no slot tells apart have the same snapshot. -/
theorem modelSnapshot_eq {w w' : World K C} (h : SameButClock w w') :
    modelSnapshot w' = modelSnapshot w := by
  have hvisible : visibleKeys w' = visibleKeys w := by
    refine List.filter_congr fun k _ ↦ ?_
    rw [keyIsExpired_eq, keyIsExpired_eq, h.config_eq, h.slots_eq]
    cases hpresent : (w.slots k).present with
    | false => rfl
    | true => rw [h.expired_eq k hpresent]
  have hentry : modelEntry w' = modelEntry w := by
    funext k
    rw [modelEntry, modelEntry, h.slots_eq]
  rw [modelSnapshot, modelSnapshot, hvisible, hentry, h.slots_eq]

section Run

variable [NeZero C] {base last : Ms}

/-- Both runs of a schedule, by induction on the schedule. -/
theorem Coupled.run {schedule : List (DiffStep K C × Ms)} {ticks : ℕ} {w w' : World K C}
    (h : Coupled base ticks w w') (hbase : 10001 ≤ base) (hbase64 : IsI64 base)
    (hasks : ∀ timed ∈ schedule, ∀ command, timed.1 = .cmd command → AsksNearBase base command)
    (hticks : ticks + tickCount schedule ≤ 9999) (hdrift : WithinDrift base last ticks schedule) :
    List.Forall₂ SameObservation (modelRun w (schedule.map Prod.fst)).2 (driftRun w' schedule).2 ∧
      SameButClock (modelRun w (schedule.map Prod.fst)).1
        { (driftRun w' schedule).1 with clock := last } := by
  induction schedule generalizing ticks w w' with
  | nil => exact ⟨.nil, h.sameButClock hticks hdrift⟩
  | cons timed rest ih =>
    rw [List.forall_mem_cons] at hasks
    obtain ⟨s, now⟩ := timed
    cases s with
    | cmd command =>
      have hcount : tickCount ((.cmd command, now) :: rest) = tickCount rest := rfl
      rw [hcount] at hticks
      obtain ⟨hnext, hreply⟩ := h.cmd hbase hbase64 (Nat.le_of_add_right_le hticks) hdrift.1
        (hasks.1 command rfl) 0
      obtain ⟨hobserved, hfinal⟩ := ih hnext hasks.2 hticks hdrift.2
      exact ⟨.cons ⟨rfl, hnext.slots_eq.symm, hreply⟩ hobserved, hfinal⟩
    | tick =>
      have hcount : tickCount ((.tick, now) :: rest) = tickCount rest + 1 := by
        rw [tickCount, List.map_cons, List.count_cons_self]
        rfl
      rw [hcount, ← Nat.add_assoc, Nat.add_right_comm] at hticks
      have hnext := h.tick hbase (WithinDrift.le_last hdrift)
      obtain ⟨hobserved, hfinal⟩ := ih hnext hasks.2 hticks hdrift
      exact ⟨.cons ⟨rfl, hnext.slots_eq.symm, rfl⟩ hobserved, hfinal⟩

/-- A run whose clock is ahead of the clock of the model by less than 30 milliseconds at every
command shows the same as the run of the model: the same slots after every step, the same replies up
to the bucket of a remaining time, and the same snapshot at the end. -/
theorem drift_insensitive (base last : Ms) (schedule : List (DiffStep keyCount clientCount × Ms))
    (hbase : 10001 ≤ base) (hbase64 : IsI64 base)
    (hdrawn : ∀ timed ∈ schedule, ∀ command, timed.1 = .cmd command → Drawn base command)
    (hticks : tickCount schedule ≤ 9999) (hdrift : WithinDrift base last 0 schedule) :
    let model := modelRun (World.empty base) (schedule.map Prod.fst)
    let drifted := driftRun (World.empty base) schedule
    List.Forall₂ SameObservation model.2 drifted.2 ∧
      modelSnapshot model.1 = modelSnapshot { drifted.1 with clock := last } := by
  have hstart : Coupled base 0 (World.empty base : World keyCount clientCount)
      (World.empty base) := by
    refine ⟨rfl, rfl, rfl, ?_, fun _ hpresent ↦ absurd hpresent Bool.false_ne_true⟩
    exact (Int.add_zero base).symm
  have hasks : ∀ timed ∈ schedule, ∀ command, timed.1 = .cmd command →
      AsksNearBase base command :=
    fun timed htimed command hcommand ↦ asksNearBase_of_drawn (hdrawn timed htimed command hcommand)
  obtain ⟨hobserved, hfinal⟩ := hstart.run hbase hbase64 hasks (by rwa [Nat.zero_add]) hdrift
  exact ⟨hobserved, (modelSnapshot_eq hfinal).symm⟩

/-- A key that is set, read 29 milliseconds late, and gone after a tick. -/
theorem drift_insensitive_soon :
    let schedule : List (DiffStep keyCount clientCount × Ms) :=
      [(.cmd (.set 0 Str.empty .always (.pxAt 20030) false), 20000), (.cmd (.pttl 0), 20029),
        (.tick, 0), (.cmd (.get 0), 20061)]
    let model := modelRun (World.empty 20000) (schedule.map Prod.fst)
    let drifted := driftRun (World.empty 20000) schedule
    List.Forall₂ SameObservation model.2 drifted.2 ∧
      modelSnapshot model.1 = modelSnapshot { drifted.1 with clock := 20089 } := by
  intro schedule
  have hset : Drawn 20000
      (.set 0 Str.empty .always (.pxAt 20030) false : Cmd keyCount clientCount) :=
    ⟨fun i ↦ [0, 0, 0, 0, 2, 1].getD i 0, by decide⟩
  have hpttl : Drawn 20000 (.pttl 0 : Cmd keyCount clientCount) :=
    ⟨fun i ↦ [0, 8].getD i 0, by decide⟩
  have hget : Drawn 20000 (.get 0 : Cmd keyCount clientCount) :=
    ⟨fun i ↦ [0, 2].getD i 0, by decide⟩
  refine drift_insensitive 20000 20089 schedule (by decide) (by decide) ?_ (by decide) ?_
  · simp only [schedule, List.forall_mem_cons, DiffStep.cmd.injEq, forall_eq', reduceCtorEq,
      false_implies, implies_true, true_and]
    exact ⟨hset, hpttl, hget, fun timed htimed ↦ absurd htimed List.not_mem_nil⟩
  · exact ⟨⟨by decide, by decide, by decide⟩, ⟨by decide, by decide, by decide⟩,
      ⟨by decide, by decide, by decide⟩, ⟨by decide, by decide, by decide⟩⟩

end Run

end RedisCvlr.Driver
