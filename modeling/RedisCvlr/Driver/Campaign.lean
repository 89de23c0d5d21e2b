import RedisCvlr.Driver.Conforming

/-!
# The test on a conforming server

The test `model_matches_real_redis` draws a schedule for every seed, at a base that it asks the
server for. On a conforming server that serves every request in time the test passes, and every
schedule is counted as checked (`test_passes`).

`modelServer` is the model behind a connection: a server that conforms by construction.
-/

set_option autoImplicit false
set_option relaxedAutoImplicit false

namespace RedisCvlr.Driver

open RedisCvlr.Library RedisCvlr.Model RedisCvlr.Keyspace

variable {K C : ℕ} {σ : Type}

/-! ### The loop over the seeds -/

/-- For every seed the server tells a time from which no clock comes near the bounds of `i64`, and
serves the schedule that is drawn at that time in time. -/
def SeedsOnTime (server : Server σ) (clock : σ → Ms) (len : ℕ) : List UInt64 → σ → Prop
  | [], _ => True
  | seed :: rest, s => ∃ base s', serverMstime server ⟨s, []⟩ = some (base, ⟨s', []⟩) ∧
      10001 ≤ base ∧ IsI64 base ∧
      OnTime server clock base 0 (server.serve s' (cmdBytes [asBytes "FLUSHALL"])).1
        (scheduleOf seed base len) ∧
      ∀ s'', runSchedule server seed base (scheduleOf seed base len) ⟨s', []⟩ =
        .ok (⟨s'', []⟩, none) → SeedsOnTime server clock len rest s''

section Loop

variable {server : Server σ} {slots : σ → Fin keyCount → Slot} {clock : σ → Ms} {len : ℕ}

/-- Every seed is checked, by induction on the seeds. -/
theorem runSeeds_silent (hconforms : Conforms (C := clientCount) server slots clock)
    (hlen : len ≤ 9999) (progress : Progress) {seedList : List UInt64} {s : σ}
    (htime : SeedsOnTime server clock len seedList s) :
    ∃ s', runSeeds server len seedList progress ⟨s, []⟩ =
      some ({ progress with checked := progress.checked + seedList.length }, ⟨s', []⟩) := by
  induction seedList generalizing s progress with
  | nil => exact ⟨s, rfl⟩
  | cons seed rest ih =>
    obtain ⟨base, s₁, hbase, hlow, hi64, hontime, hrest⟩ := htime
    obtain ⟨s₂, hrun⟩ := runSchedule_silent hconforms seed base (scheduleOf seed base len) s₁ hlow
      hi64 (drawn_of_mem_scheduleOf seed base len)
      ((count_scheduleOf_le seed base len).trans hlen) hontime
    obtain ⟨s', hloop⟩ := ih (progress.add none) (hrest s₂ hrun)
    refine ⟨s', ?_⟩
    rw [runSeeds, hbase]
    simp only [Option.bind_eq_bind, Option.bind_some, hrun, Except.toOption]
    rw [hloop, List.length_cons, Nat.add_comm rest.length, ← Nat.add_assoc]
    rfl

theorem length_seeds (n : UInt64) : (seeds n).length = n.toNat := by
  rw [seeds, List.length_map, List.length_range]

/-- On a conforming server that lets the harness disable active expiry, tells its time and serves
every request in time, the test passes, and every schedule has been checked. -/
theorem test_passes (hconforms : Conforms (C := clientCount) server slots clock)
    (hlen : len ≤ 9999) (schedules : UInt64) (s s' : σ)
    (hdebug : clientCmdS server ⟨s, []⟩ ["DEBUG", "SET-ACTIVE-EXPIRE", "0"] =
      .ok (.simple "OK", ⟨s', []⟩))
    (htime : SeedsOnTime server clock len (seeds schedules) s') :
    ∃ progress, modelMatchesRealRedis server schedules len ⟨s, []⟩ = some progress ∧
      progress.passes = true ∧ progress.checked = schedules.toNat := by
  obtain ⟨s'', hloop⟩ := runSeeds_silent hconforms hlen ⟨0, []⟩ htime
  refine ⟨⟨schedules.toNat, []⟩, ?_, rfl, rfl⟩
  rw [modelMatchesRealRedis, hdebug]
  simp only [Except.toOption, Option.bind_eq_bind, Option.bind_some]
  rw [hloop, length_seeds, Nat.zero_add]
  rfl

end Loop

/-! ### Drawn requests -/

/-- A command that is sent as a request, with a drawn value if it sets one. -/
def HasDrawnValue : Cmd K C → Prop
  | .set _ val _ _ _ => ∃ id, val = drawnStr id
  | command => isRendered command = true

section Requests

theorem hasDrawnValue_of_drawn [NeZero K] {command : Cmd K C} (h : DrawnAtAll command) :
    HasDrawnValue command := by
  obtain ⟨base, hdrawn⟩ := h
  have hrange := inRange_of_drawn hdrawn
  cases command with
  | set k val cond ttl get => exact hrange.1
  | watch c k => exact hrange.elim
  | unwatch c => exact hrange.elim
  | _ => rfl

theorem drawnStr_inj {id id' : Fin 4} (h : (drawnStr id).asSlice = (drawnStr id').asSlice) :
    drawnStr id = drawnStr id' := by
  revert id id'
  decide

/-- Drawn commands are told apart by their requests. -/
theorem request_injective [NeZero K] {command command' : Cmd K C} (h : DrawnAtAll command)
    (h' : DrawnAtAll command') (hbytes : cmdBytes (render command) = cmdBytes (render command')) :
    command = command' := by
  have hvalue := hasDrawnValue_of_drawn h
  have hvalue' := hasDrawnValue_of_drawn h'
  have hrendered : ∀ {command : Cmd K C}, HasDrawnValue command → isRendered command = true := by
    intro command hvalue
    cases command <;> first | rfl | exact hvalue
  have hsame := sameUpToSlice_of_render (hrendered hvalue) (hrendered hvalue')
    (selfDelimiting_cmdBytes.injective hbytes)
  unfold SameUpToSlice at hsame
  split at hsame
  · obtain ⟨rfl, hslice, rfl, rfl, rfl⟩ := hsame
    obtain ⟨id, rfl⟩ := hvalue
    obtain ⟨id', rfl⟩ := hvalue'
    rw [drawnStr_inj hslice]
  · exact hsame

end Requests

/-! ### The model as a server -/

/-- What the model stores when it is run as a server, and its clock. -/
structure Stored where
  slots : Fin keyCount → Slot
  now : Ms

/-- The answer of the model in RESP2, with the keys in order. -/
def resp : Reply K → Resp
  | .ok => .simple "OK"
  | .nil => .nil
  | .int n => .int n
  | .str s => .bulk s.asSlice
  | .keySet set =>
    .array ((reportedKeys (.keySet set : Reply K)).map fun k ↦ .bulk (asBytes (keyName k)))
  | .type .str => .simple "string"
  | .noType => .simple "none"
  | .error => .error ""

/-- The reply to TIME. -/
def timeReply (now : Ms) : Resp :=
  .array [.bulk (asBytes (toString (now / 1000))),
    .bulk (asBytes (toString (now % 1000 * 1000)))]

open Classical in
/-- The model behind a connection: a request that is that of a drawn command executes it, and the
clock moves only while the harness sleeps. -/
noncomputable def modelServer : Server Stored where
  serve s bytes :=
    if h : ∃ command : Cmd keyCount clientCount,
        DrawnAtAll command ∧ cmdBytes (render command) = bytes then
      let executed := execCmd (holding s.slots s.now) 0 h.choose
      (⟨executed.1.slots, s.now⟩, respBytes (resp executed.2))
    else if bytes = cmdBytes [asBytes "FLUSHALL"] then
      (⟨fun _ ↦ Slot.absent, s.now⟩, respBytes (.simple "OK"))
    else if bytes = cmdBytes [asBytes "TIME"] then (s, respBytes (timeReply s.now))
    else (s, respBytes (.simple "OK"))
  sleep s d := ⟨s.slots, s.now + d⟩

section ModelServer

theorem answers_resp (reply : Reply K) : Answers reply (resp reply) := by
  cases reply with
  | ok => exact .ok
  | nil => exact .nil
  | int n => exact .int n
  | str s => exact .str s
  | keySet set => exact .keySet set _ (List.Perm.refl _)
  | type t =>
    cases t
    exact .type
  | noType => exact .noType
  | error => exact .error ""

/-- The replies of the model can be sent. -/
theorem sendable_resp (w : World keyCount clientCount) (c : Fin clientCount)
    (command : Cmd keyCount clientCount) : (resp (execCmd w c command).2).Sendable := by
  have hcount : ∀ (p : Prop) [Decidable p], IsI64 (if p then 1 else 0) := by
    intro p _
    split_ifs <;> decide
  have hstr : ∀ value : Option Value, (resp (oldValueReply value : Reply keyCount)).Sendable := by
    rintro (_ | ⟨⟨s⟩⟩)
    · trivial
    · have hlength : s.asSlice.length ≤ 8 :=
        (List.length_take_le' _ _).trans List.length_ofFn.le
      exact BulkFits.of_le (by decide) hlength
  have hok : (Resp.simple "OK").Sendable := show '\r' ∉ "OK".toList by decide
  cases hop : keyOp? command with
  | some target =>
    obtain ⟨k, op⟩ := target
    rw [execCmd_eq_outcome w c hop]
    cases op with
    | set val cond ttl getOld =>
      simp only [KeyOp.reply]
      split_ifs
      · exact hstr _
      · exact hstr _
      · exact hok
      · trivial
    | get => exact hstr _
    | del => exact hcount _
    | existsKey => exact hcount _
    | type =>
      simp only [KeyOp.reply]
      split_ifs
      · cases (w.slots k).value
        exact show '\r' ∉ "string".toList by decide
      · exact show '\r' ∉ "none".toList by decide
    | expire time cond => exact hcount _
    | persist => exact hcount _
    | pttl =>
      show IsI64 _
      split_ifs
      · exact isI64_wrapI64 _
      · decide
      · decide
  | none =>
    obtain rfl | rfl | ⟨client, k, rfl⟩ | ⟨client, rfl⟩ := of_keyOp_eq_none hop
    · refine ⟨?_, (allSendable_iff _).mpr ?_⟩
      · rw [List.length_map]
        exact ArrayFits.of_le (by decide) (List.length_filter_le _ _)
      · rw [List.forall_mem_map]
        exact fun k _ ↦ (show ∀ k : Fin keyCount, BulkFits (asBytes (keyName k)).length by decide) k
    · show (resp (cmdDbsize w)).Sendable
      rw [cmdDbsize_eq]
      have hle : presentCount w.slots ≤ 3 := List.countP_le_length
      exact ⟨by omega, by omega⟩
    · exact hok
    · exact hok

/-- What the model makes of a request that is not that of a command. -/
theorem serve_other {args : List (List UInt8)}
    (hargs : ∀ command : Cmd keyCount clientCount, render command ≠ args) (s : Stored) :
    modelServer.serve s (cmdBytes args) =
      if args = [asBytes "FLUSHALL"] then (⟨fun _ ↦ Slot.absent, s.now⟩, respBytes (.simple "OK"))
      else if args = [asBytes "TIME"] then (s, respBytes (timeReply s.now))
      else (s, respBytes (.simple "OK")) := by
  have hother : ¬∃ command : Cmd keyCount clientCount,
      DrawnAtAll command ∧ cmdBytes (render command) = cmdBytes args := by
    rintro ⟨command, -, hbytes⟩
    exact hargs command (selfDelimiting_cmdBytes.injective hbytes)
  simp only [← selfDelimiting_cmdBytes.injective.eq_iff (a := args)]
  exact dif_neg hother

/-- The model behind a connection conforms to the model. -/
theorem modelServer_conforms :
    Conforms (C := clientCount) modelServer Stored.slots Stored.now where
  cmd s command hdrawn := by
    have hmatch : ∃ command' : Cmd keyCount clientCount,
        DrawnAtAll command' ∧ cmdBytes (render command') = cmdBytes (render command) :=
      ⟨command, hdrawn, rfl⟩
    have hchosen : hmatch.choose = command :=
      request_injective hmatch.choose_spec.1 hdrawn hmatch.choose_spec.2
    have hserved : modelServer.serve s (cmdBytes (render command)) =
        (⟨(execCmd (holding s.slots s.now : World keyCount clientCount) 0 command).1.slots, s.now⟩,
          respBytes (resp (execCmd (holding s.slots s.now : World keyCount clientCount) 0
            command).2)) :=
      (dif_pos hmatch).trans (by rw [hchosen])
    exact ⟨_, congrArg Prod.snd hserved, sendable_resp _ _ _, answers_resp _,
      congrArg (fun served ↦ served.1.slots) hserved⟩
  flushAll s := by
    have hargs : ∀ command : Cmd keyCount clientCount, render command ≠ [asBytes "FLUSHALL"] := by
      intro command
      cases command <;> simp [render, asBytes_inj]
    have hserved := (serve_other hargs s).trans (if_pos rfl)
    exact ⟨.simple "OK", congrArg Prod.snd hserved, show '\r' ∉ "OK".toList by decide,
      congrArg (fun served ↦ served.1.slots) hserved⟩
  sleep _ _ := rfl

theorem drifted_at_tick {base : ℤ} {ticks : ℕ} (hbase : 0 ≤ base)
    (hlast : base + 60 * ticks < 2 ^ 63) : Drifted base ticks (base + 60 * ticks) := by
  refine ⟨⟨?_, hlast⟩, ?_, ?_⟩
  · omega
  · show 0 ≤ base + 60 * (ticks : ℤ) - (base + 60 * ticks)
    omega
  · show base + 60 * (ticks : ℤ) - (base + 60 * ticks) < 30
    omega

theorem tick_eq (base : ℤ) (ticks : ℕ) :
    base + 60 * ticks + 60 = base + 60 * (ticks + 1 : ℕ) := by
  omega

theorem ticks_lt {base : ℤ} {ticks more : ℕ} (hlast : base + 60 * (ticks + more : ℕ) < 2 ^ 63) :
    base + 60 * (ticks : ℤ) < 2 ^ 63 := by
  omega

theorem now_serve (s : Stored) (bytes : List UInt8) :
    (modelServer.serve s bytes).1.now = s.now := by
  unfold modelServer
  simp only
  split_ifs <;> rfl

theorem modelServer_prompt {base : Ms} {ticks : ℕ} (n : ℕ) {s : Stored}
    (hdrift : Drifted base ticks s.now) :
    Prompt keyCount clientCount modelServer Stored.now base ticks n s := by
  induction n generalizing s with
  | zero => trivial
  | succ n ih => exact ⟨hdrift, fun command ↦ ih ((now_serve s _).symm ▸ hdrift)⟩

/-- The clock of the model moves with the ticks, so every schedule is served in time. -/
theorem modelServer_onTime {base : Ms} {schedule : List (DiffStep keyCount clientCount)}
    {ticks : ℕ} {s : Stored} (hnow : s.now = base + tickMs * ticks) (hbase : 0 ≤ base)
    (hlast : base + tickMs * (ticks + schedule.count .tick : ℕ) < 2 ^ 63) :
    OnTime modelServer Stored.now base ticks s schedule := by
  have hdrift : Drifted base ticks s.now := by
    rw [hnow]
    exact drifted_at_tick hbase (ticks_lt hlast)
  induction schedule generalizing ticks s with
  | nil => exact modelServer_prompt _ hdrift
  | cons step rest ih =>
    cases step with
    | tick =>
      rw [List.count_cons_self, Nat.add_comm _ 1, ← Nat.add_assoc] at hlast
      have hnext : (modelServer.sleep s tickMs).now = base + tickMs * (ticks + 1 : ℕ) := by
        rw [← show base + tickMs * ticks + tickMs = base + tickMs * (ticks + 1 : ℕ) from
          tick_eq base ticks, ← hnow]
        rfl
      refine ih hnext hlast ?_
      rw [hnext]
      exact drifted_at_tick hbase (ticks_lt hlast)
    | cmd command =>
      rw [List.count_cons_of_ne (by simp)] at hlast
      have hnext := now_serve s (cmdBytes (render command))
      exact ⟨hdrift, ih (hnext.trans hnow) hlast (hnext.symm ▸ hdrift)⟩

theorem lt_of_count_le {base : ℤ} {count len : ℕ} (hcount : count ≤ len)
    (hlast : base + 60 * len < 2 ^ 63) : base + 60 * (0 + count : ℕ) < 2 ^ 63 := by
  omega

theorem nonneg_of_base_le {base : ℤ} (hbase : 10001 ≤ base) : 0 ≤ base := by
  omega

theorem isI64_of_lt {base : ℤ} {len : ℕ} (hbase : 10001 ≤ base)
    (hlast : base + 60 * len < 2 ^ 63) : IsI64 base := by
  refine ⟨?_, ?_⟩ <;> omega

/-- The model serves the schedule of a seed in time. -/
theorem modelServer_seedOnTime (seed : UInt64) (len : ℕ) {s : Stored}
    (htime : serverMstime modelServer ⟨s, []⟩ = some (s.now, ⟨s, []⟩)) (hbase : 10001 ≤ s.now)
    (hlast : s.now + 60 * len < 2 ^ 63) : SeedsOnTime modelServer Stored.now len [seed] s := by
  have hstart : s.now = s.now + tickMs * (0 : ℕ) := (Int.add_zero s.now).symm
  have hcount := count_scheduleOf_le seed s.now len
  have hontime := modelServer_onTime ((now_serve s (cmdBytes [asBytes "FLUSHALL"])).trans hstart)
    (nonneg_of_base_le hbase) (lt_of_count_le hcount hlast)
  exact ⟨s.now, s, htime, hbase, isI64_of_lt hbase hlast, hontime, fun _ _ ↦ trivial⟩

/-- A server that has just been started. -/
def started : Stored := ⟨fun _ ↦ Slot.absent, 20000⟩

/-- The model passes its own test. -/
theorem test_passes_modelServer :
    ∃ progress, modelMatchesRealRedis modelServer 1 12 ⟨started, []⟩ = some progress ∧
      progress.passes = true ∧ progress.checked = 1 := by
  have hnotDebug : ∀ command : Cmd keyCount clientCount,
      render command ≠ ["DEBUG", "SET-ACTIVE-EXPIRE", "0"].map asBytes := by
    intro command
    cases command <;> simp [render, asBytes_inj]
  have hnotTime : ∀ command : Cmd keyCount clientCount, render command ≠ [asBytes "TIME"] := by
    intro command
    cases command <;> simp [render, asBytes_inj]
  have hdebugServed : modelServer.serve started
      (cmdBytes (["DEBUG", "SET-ACTIVE-EXPIRE", "0"].map asBytes)) =
        (started, respBytes (.simple "OK")) := by
    rw [serve_other hnotDebug, if_neg (by simp), if_neg (by simp)]
  have htimeServed : modelServer.serve started (cmdBytes [asBytes "TIME"]) =
      (started, respBytes (timeReply 20000)) := by
    rw [serve_other hnotTime, if_neg (by simp [asBytes_inj]), if_pos rfl]
    rfl
  have hdebug := clientCmd_of_sent (congrArg Prod.snd hdebugServed)
    (show '\r' ∉ "OK".toList by decide)
  have htime := clientCmd_of_sent (congrArg Prod.snd htimeServed)
    (show (timeReply 20000).Sendable from ⟨by decide, show BulkFits (asBytes _).length by decide,
      show BulkFits (asBytes _).length by decide, trivial⟩)
  rw [hdebugServed] at hdebug
  rw [htimeServed] at htime
  have hbase : serverMstime modelServer ⟨started, []⟩ = some (20000, ⟨started, []⟩) := by
    have hms : replyMs (timeReply 20000) = some 20000 := by decide
    rw [serverMstime, clientCmdS, List.map_singleton, htime]
    simp only [Except.toOption, Option.bind_eq_bind, Option.bind_some, hms]
    rfl
  have hseeds : seeds 1 = [1] := by decide
  refine test_passes modelServer_conforms (by decide) 1 started started hdebug ?_
  rw [hseeds]
  exact modelServer_seedOnTime 1 12 hbase (by decide) (by decide)

end ModelServer

end RedisCvlr.Driver
