import RedisCvlr.Driver.Reports

/-!
# Conforming servers

A server conforms to the model when it executes commands as the model does, at the time of its own
clock, and sends the replies in RESP2; the order of the keys in a reply to KEYS is free. Against
such a server `run_schedule` never reports a divergence, as long as every request is served while
the clock of the server is less than 30 milliseconds ahead of the clock of the model
(`runSchedule_silent`).

The proof couples the world of the model to the slots of the server. `Coupled.exchange` is one
request: the client reads exactly the reply to it, the replies agree, and the two sides stay
coupled.
-/

set_option autoImplicit false
set_option relaxedAutoImplicit false

namespace RedisCvlr.Driver

open RedisCvlr.Library RedisCvlr.Model RedisCvlr.Keyspace

variable {K C : ℕ} {σ : Type}

/-! ### Replies -/

/-- The replies of a server that stand for a reply of the model. -/
inductive Answers : Reply K → Resp → Prop
  | ok : Answers .ok (.simple "OK")
  | nil : Answers .nil .nil
  | int (n : ℤ) : Answers (.int n) (.int n)
  | str (s : Str) : Answers (.str s) (.bulk s.asSlice)
  | keySet (set : Fin K → Bool) (ks : List (Fin K)) : ks.Perm (reportedKeys (.keySet set)) →
      Answers (.keySet set) (.array (ks.map fun k ↦ .bulk (asBytes (keyName k))))
  | type : Answers (.type .str) (.simple "string")
  | noType : Answers .noType (.simple "none")
  | error (text : String) : Answers .error (.error text)

section Replies

variable {reply : Reply K} {server : Resp}

theorem replyNames_keys (ks : List (Fin K)) :
    replyNames (.array (ks.map fun k ↦ .bulk (asBytes (keyName k)))) = ks.map keyName := by
  rw [replyNames, List.filterMap_map, ← List.filterMap_eq_map]
  refine List.filterMap_congr fun k _ ↦ ?_
  exact congrArg some (fromUtf8Lossy_asBytes (keyName k))

theorem sortBy_names {ks ks' : List (Fin K)} (hperm : ks.Perm ks') :
    sortBy id (ks.map keyName) = sortBy id (ks'.map keyName) :=
  sortBy_eq_of_perm Function.injective_id (hperm.map keyName)

/-- An answer passes the comparison by value. -/
theorem valuesAgree_of_answers (h : Answers reply server) : valuesAgree reply server = true := by
  cases h with
  | keySet set ks hperm =>
    have hnames := replyNames_keys ks
    rw [replyNames] at hnames
    simp only [valuesAgree]
    rw [hnames, sortBy_names hperm]
    exact beq_self_eq_true _
  | ok => exact beq_self_eq_true "OK"
  | nil => rfl
  | int n => exact beq_self_eq_true n
  | str s => exact beq_self_eq_true s.asSlice
  | type => exact beq_self_eq_true "string"
  | noType => exact beq_self_eq_true "none"
  | error text => rfl

/-- The harness accepts an answer to a reply that it does not tell from that of the model. -/
theorem repliesAgree_of_answers {s : DiffStep K C} {reply reply' : Reply K}
    (hsame : SameReply s (some reply) (some reply')) (h : Answers reply' server) :
    repliesAgree reply server s.isPttl = true := by
  rw [repliesAgree_eq hsame server, repliesAgree]
  split_ifs with hpttl
  · rw [SameReply, if_pos hpttl] at hsame
    obtain ⟨m, n, -, hn, -⟩ := hsame
    obtain rfl := Option.some.inj hn
    cases h
    exact beq_self_eq_true (bucket n)
  · exact valuesAgree_of_answers h

theorem nonneg_iff_of_bucket {m n : ℤ} (h : bucket m = bucket n) : 0 ≤ m ↔ 0 ≤ n := by
  unfold bucket at h
  split_ifs at h <;> omega

end Replies

/-! ### Conforming servers -/

/-- The world of a standalone master that stores the given slots. -/
def holding (slots : Fin K → Slot) (now : Ms) : World K C :=
  { World.empty now with slots := slots }

/-- A drawn command, for whatever base. -/
def DrawnAtAll [NeZero K] (command : Cmd K C) : Prop := ∃ base, Drawn base command

/-- A server that executes what the harness sends as the model does, where `slots` is what it stores
and `clock` the time at which it serves the next request. -/
structure Conforms [NeZero K] [NeZero C] (server : Server σ) (slots : σ → Fin K → Slot)
    (clock : σ → Ms) : Prop where
  cmd : ∀ s (command : Cmd K C), DrawnAtAll command → ∃ reply,
    let executed := execCmd (holding (slots s) (clock s)) 0 command
    let served := server.serve s (cmdBytes (render command))
    served.2 = respBytes reply ∧ reply.Sendable ∧ Answers executed.2 reply ∧
      slots served.1 = executed.1.slots
  flushAll : ∀ s, ∃ reply,
    let served := server.serve s (cmdBytes [asBytes "FLUSHALL"])
    served.2 = respBytes reply ∧ reply.Sendable ∧ slots served.1 = fun _ ↦ Slot.absent
  sleep : ∀ s d, slots (server.sleep s d) = slots s

/-- The next requests, of the given number, are served in time. -/
def Prompt (K C : ℕ) (server : Server σ) (clock : σ → Ms) (base : Ms) (ticks : ℕ) : ℕ → σ → Prop
  | 0, _ => True
  | n + 1, s => Drifted base ticks (clock s) ∧ ∀ command : Cmd K C,
      Prompt K C server clock base ticks n (server.serve s (cmdBytes (render command))).1

/-- The requests of a schedule are served in time, and so are those of the snapshot after it. -/
def OnTime (server : Server σ) (clock : σ → Ms) (base : Ms) : ℕ → σ → List (DiffStep K C) → Prop
  | ticks, s, [] => Prompt K C server clock base ticks (2 + 2 * K) s
  | ticks, s, .tick :: rest => OnTime server clock base (ticks + 1) (server.sleep s tickMs) rest
  | ticks, s, .cmd command :: rest =>
    Drifted base ticks (clock s) ∧
      OnTime server clock base ticks (server.serve s (cmdBytes (render command))).1 rest

section Timing

variable {server : Server σ} {clock : σ → Ms} {base : Ms} {ticks n : ℕ} {s : σ}

theorem Prompt.mono {m : ℕ} (hle : m ≤ n) (h : Prompt K C server clock base ticks n s) :
    Prompt K C server clock base ticks m s := by
  induction m generalizing n s with
  | zero => trivial
  | succ m ih =>
    obtain ⟨n, rfl⟩ := Nat.exists_eq_add_of_le' (Nat.one_le_of_lt hle)
    exact ⟨h.1, fun command ↦ ih (Nat.le_of_succ_le_succ hle) (h.2 command)⟩

/-- A schedule that is served in time ends at a reading that no clock of the model exceeds. -/
theorem OnTime.exists_last {schedule : List (DiffStep K C)}
    (h : OnTime server clock base ticks s schedule) :
    ∃ last, base + tickMs * ticks ≤ last ∧ IsI64 last := by
  induction schedule generalizing ticks s with
  | nil =>
    have hend : Drifted base ticks (clock s) := by
      rw [OnTime, Nat.add_comm] at h
      exact h.1
    exact ⟨clock s, Int.sub_nonneg.mp hend.2.1, hend.1⟩
  | cons step rest ih =>
    cases step with
    | tick =>
      obtain ⟨last, hle, hi64⟩ := ih h
      exact ⟨last, (tick_le base ticks).trans hle, hi64⟩
    | cmd command => exact ih h.2

end Timing

/-! ### One request -/

/-- A world of a server is coupled to a world of the model that stores the same slots. -/
theorem Coupled.of_slots {base now : Ms} {ticks : ℕ} {w w' : World K C}
    (h : Coupled base ticks w w') {stored : Fin K → Slot} (hstored : stored = w'.slots) :
    Coupled base ticks w (holding stored now) where
  slots_eq := hstored.trans h.slots_eq
  config_eq := h.standard.symm
  standard := h.standard
  clock_eq := h.clock_eq
  stored := h.stored

section Exchange

variable [NeZero K] [NeZero C] {server : Server σ} {slots : σ → Fin K → Slot} {clock : σ → Ms}
  {base now : Ms} {ticks : ℕ} {w : World K C} {s : σ} {command : Cmd K C}

/-- A client reads the one reply that a server sends. -/
theorem clientCmd_of_sent {args : List (List UInt8)} {reply : Resp}
    (hsent : (server.serve s (cmdBytes args)).2 = respBytes reply) (hreply : reply.Sendable) :
    clientCmd server ⟨s, []⟩ args = .ok (reply, ⟨(server.serve s (cmdBytes args)).1, []⟩) := by
  have hread := read_respBytes hreply []
  rw [List.append_nil] at hread
  rw [clientCmd]
  simp only [List.nil_append]
  rw [hsent, hread]
  rfl

/-- One request: the client reads the reply to it and nothing else, the harness does not tell it
from the reply of the model, and both sides stay coupled. -/
theorem Coupled.exchange (hconforms : Conforms (C := C) server slots clock)
    (h : Coupled base ticks w (holding (slots s) now)) (hbase : 10001 ≤ base)
    (hbase64 : IsI64 base) (hticks : ticks ≤ 9999) (hdrift : Drifted base ticks (clock s))
    (hdrawn : Drawn base command) :
    ∃ reply reply' s', clientCmd server ⟨s, []⟩ (render command) = .ok (reply, ⟨s', []⟩) ∧
      s' = (server.serve s (cmdBytes (render command))).1 ∧
      SameReply (.cmd command) (some (execCmd w 0 command).2) (some reply') ∧
      Answers reply' reply ∧
      Coupled base ticks (execCmd w 0 command).1 (holding (slots s') now) := by
  obtain ⟨hnext, hsame⟩ := h.cmd hbase hbase64 hticks hdrift (asksNearBase_of_drawn hdrawn) 0
  obtain ⟨reply, hsent, hsendable, hanswers, hslots⟩ := hconforms.cmd s command ⟨base, hdrawn⟩
  exact ⟨reply, _, _, clientCmd_of_sent hsent hsendable, rfl, hsame, hanswers,
    hnext.of_slots hslots⟩

end Exchange

/-! ### The loop -/

section Loop

variable [NeZero K] [NeZero C] {server : Server σ} {slots : σ → Fin K → Slot} {clock : σ → Ms}
  {base : Ms}

/-- The loop of `run_schedule` runs to its end, by induction on the schedule. -/
theorem Coupled.runSteps (seed : UInt64) (i : ℕ) (hconforms : Conforms (C := C) server slots clock)
    (hbase : 10001 ≤ base) (hbase64 : IsI64 base) {schedule : List (DiffStep K C)} {ticks : ℕ}
    {w : World K C} {s : σ}
    (h : Coupled base ticks w (holding (slots s) base))
    (hdrawn : ∀ command, .cmd command ∈ schedule → Drawn base command)
    (hticks : ticks + schedule.count .tick ≤ 9999)
    (htime : OnTime server clock base ticks s schedule) :
    ∃ s' ticks', Driver.runSteps server seed i w ⟨s, []⟩ schedule =
        .ok (⟨s', []⟩, .inr (modelRun w schedule).1) ∧
      ticks' ≤ 9999 ∧ Coupled base ticks' (modelRun w schedule).1 (holding (slots s') base) ∧
      Prompt K C server clock base ticks' (2 + 2 * K) s' := by
  induction schedule generalizing i ticks w s with
  | nil => exact ⟨s, ticks, rfl, hticks, h, htime⟩
  | cons step rest ih =>
    have hrest : ∀ command, .cmd command ∈ rest → Drawn base command :=
      fun command hmem ↦ hdrawn command (List.mem_cons_of_mem _ hmem)
    cases step with
    | tick =>
      obtain ⟨last, hlast⟩ := OnTime.exists_last (show OnTime server clock base (ticks + 1) _ rest
        from htime)
      have hnext := h.tick hbase hlast
      rw [← hconforms.sleep s tickMs] at hnext
      rw [List.count_cons_self, ← Nat.add_assoc, Nat.add_right_comm] at hticks
      exact ih (i + 1) hnext hrest hticks htime
    | cmd command =>
      rw [List.count_cons_of_ne (by simp)] at hticks
      obtain ⟨reply, reply', s', hreply, rfl, hsame, hanswers, hnext⟩ :=
        h.exchange hconforms hbase hbase64 (Nat.le_of_add_right_le hticks) htime.1
          (hdrawn command List.mem_cons_self)
      obtain ⟨s'', ticks', hrun, hend⟩ := ih (i + 1) hnext hrest hticks htime.2
      refine ⟨s'', ticks', ?_, hend⟩
      show (clientCmd server ⟨s, []⟩ (render command) >>= _) = _
      rw [hreply, ok_bind]
      simp only [repliesAgree_of_answers hsame hanswers, if_true]
      exact hrun

end Loop

/-! ### The snapshot -/

section Drawn

variable [NeZero K] {base : Ms}

/-- A key can be drawn. -/
theorem ofNat_drawn (hK : K ≤ 2 ^ 64) (k : Fin K) : Fin.ofNat K (UInt64.ofNat k.val).toNat = k := by
  rw [UInt64.toNat_ofNat_of_lt' (lt_of_lt_of_le k.isLt hK)]
  exact Fin.ofNat_val_eq_self k

theorem drawn_dbSize : Drawn base (.dbSize : Cmd K C) :=
  ⟨Stream'.cons 0 (Stream'.const 10), rfl⟩

theorem drawn_keys : Drawn base (.keys : Cmd K C) :=
  ⟨Stream'.cons 0 (Stream'.const 9), rfl⟩

theorem drawn_get (hK : K ≤ 2 ^ 64) (k : Fin K) : Drawn base (.get k : Cmd K C) :=
  ⟨Stream'.cons (UInt64.ofNat k.val) (Stream'.const 2), congrArg Cmd.get (ofNat_drawn hK k)⟩

theorem drawn_pttl (hK : K ≤ 2 ^ 64) (k : Fin K) : Drawn base (.pttl k : Cmd K C) :=
  ⟨Stream'.cons (UInt64.ofNat k.val) (Stream'.const 8),
    congrArg Cmd.pttl (ofNat_drawn hK k)⟩

end Drawn

/-- A snapshot can be taken of a world that is coupled to a server. -/
theorem Coupled.observable {base now : Ms} {ticks : ℕ} {w w' : World K C}
    (h : Coupled base ticks w w') (hbase : 10001 ≤ base) (hdrift : Drifted base ticks now) :
    Observable w where
  strict := congrArg Config.allowAccessExpired h.standard
  clock_nonneg := h.clock_eq ▸ (nonneg_of_drift hbase hdrift.2.1).1
  clock_i64 := by
    obtain ⟨hlow, -⟩ := nonneg_of_drift hbase hdrift.2.1
    obtain ⟨⟨-, hhigh⟩, hpast, -⟩ := hdrift
    rw [h.clock_eq]
    exact ⟨le_trans (by decide) hlow, lt_of_le_of_lt (Int.sub_nonneg.mp hpast) hhigh⟩
  stored k hpresent := (h.stored k hpresent).imp_right And.right

/-- A key with a value adds an entry. -/
theorem snapshotKeys_bulk {server : Server σ} {name : String} {names : List String}
    {conn conn₁ conn₂ : Conn σ} {bytes : List UInt8} {ttl : Resp}
    {values : List (String × List UInt8 × Bool)}
    (hgot : clientCmdS server conn ["GET", name] = .ok (.bulk bytes, conn₁))
    (httl : clientCmdS server conn₁ ["PTTL", name] = .ok (ttl, conn₂)) :
    snapshotKeys server (name :: names) conn values =
      snapshotKeys server names conn₂
        (values ++ [(name, bytes, decide (0 ≤ ttl.asInt.getD (-2)))]) := by
  rw [snapshotKeys, hgot, ok_bind]
  simp only
  rw [httl, ok_bind]

section Snapshot

variable [NeZero K] [NeZero C] {server : Server σ} {slots : σ → Fin K → Slot} {clock : σ → Ms}
  {base : Ms} {ticks n : ℕ} {w : World K C} {s : σ}

/-- A request that changes nothing in the model. -/
theorem Coupled.ask (hconforms : Conforms (C := C) server slots clock)
    (h : Coupled base ticks w (holding (slots s) base)) (hbase : 10001 ≤ base)
    (hbase64 : IsI64 base) (hticks : ticks ≤ 9999)
    (hprompt : Prompt K C server clock base ticks (n + 1) s) {command : Cmd K C} {reply : Reply K}
    (hdrawn : Drawn base command) (hexec : execCmd w 0 command = (w, reply)) :
    ∃ resp reply' s', clientCmd server ⟨s, []⟩ (render command) = .ok (resp, ⟨s', []⟩) ∧
      SameReply (.cmd command) (some reply) (some reply') ∧ Answers reply' resp ∧
      Coupled base ticks w (holding (slots s') base) ∧
      Prompt K C server clock base ticks n s' := by
  obtain ⟨resp, reply', s', hsent, rfl, hsame, hanswers, hnext⟩ :=
    h.exchange hconforms hbase hbase64 hticks hprompt.1 hdrawn
  rw [hexec] at hsame hnext
  exact ⟨resp, reply', _, hsent, hsame, hanswers, hnext, hprompt.2 command⟩

/-- The loop of the snapshot finds the entries of the visible keys, by induction on the keys. -/
theorem Coupled.snapshotKeys (hconforms : Conforms (C := C) server slots clock)
    (hbase : 10001 ≤ base) (hbase64 : IsI64 base) (hticks : ticks ≤ 9999) (hK : K ≤ 2 ^ 64)
    (hobservable : Observable w) (ks : List (Fin K)) (hks : ∀ k ∈ ks, k ∈ visibleKeys w)
    {s : σ} (h : Coupled base ticks w (holding (slots s) base))
    (hprompt : Prompt K C server clock base ticks (2 * ks.length) s)
    (values : List (String × List UInt8 × Bool)) :
    ∃ s', Driver.snapshotKeys server (ks.map keyName) ⟨s, []⟩ values =
      .ok (values ++ ks.map (modelEntry w), ⟨s', []⟩) := by
  induction ks generalizing s values with
  | nil => exact ⟨s, by rw [List.map_nil, List.map_nil, List.append_nil]; rfl⟩
  | cons k ks ih =>
    rw [List.forall_mem_cons] at hks
    rw [List.length_cons, Nat.mul_succ] at hprompt
    obtain ⟨⟨v⟩, hvalue⟩ : ∃ value, (w.slots k).value = value := ⟨_, rfl⟩
    have hget := execCmd_get_of_mem hks.1 (0 : Fin C)
    rw [hvalue] at hget
    obtain ⟨got, reply, s₁, hgot, hsame, hanswers, h₁, hprompt₁⟩ :=
      h.ask hconforms hbase hbase64 hticks hprompt (drawn_get hK k) hget
    obtain rfl := Option.some.inj hsame
    obtain rfl : got = .bulk v.asSlice := by
      cases hanswers
      rfl
    obtain ⟨ttl, reply, s₂, httl, hsame, hanswers, h₂, hprompt₂⟩ :=
      h₁.ask hconforms hbase hbase64 hticks hprompt₁ (drawn_pttl hK k)
        (execCmd_pttl_of_mem hks.1 (0 : Fin C))
    obtain ⟨m, n, hm, hn, hbucket⟩ := hsame
    obtain rfl := Reply.int.inj (Option.some.inj hm)
    obtain rfl := Option.some.inj hn
    obtain rfl : ttl = .int n := by
      cases hanswers
      rfl
    have hentry : (keyName k, v.asSlice, decide (0 ≤ n)) = modelEntry w k := by
      rw [← decide_eq_decide.mpr (nonneg_iff_of_bucket hbucket), hobservable.pttl_sign hks.1,
        modelEntry, hvalue]
    obtain ⟨s', hrest⟩ := ih hks.2 h₂ hprompt₂ (values ++ [modelEntry w k])
    refine ⟨s', ?_⟩
    rw [List.map_cons, snapshotKeys_bulk hgot httl]
    show Driver.snapshotKeys server _ _ (values ++ [(keyName k, v.asSlice, decide (0 ≤ n))]) = _
    rw [hentry, hrest, List.append_assoc, List.map_cons, List.singleton_append]

/-- The snapshot of a server that is coupled to the model is the inspection of the model. -/
theorem Coupled.wireSnapshot (hconforms : Conforms (C := C) server slots clock)
    (hbase : 10001 ≤ base) (hbase64 : IsI64 base) (hticks : ticks ≤ 9999) (hK : K ≤ 2 ^ 64)
    (h : Coupled base ticks w (holding (slots s) base))
    (hprompt : Prompt K C server clock base ticks (2 + 2 * K) s) :
    ∃ s', Driver.wireSnapshot server ⟨s, []⟩ = .ok (modelSnapshot w, ⟨s', []⟩) := by
  rw [Nat.add_comm] at hprompt
  have hobservable := h.observable hbase hprompt.1
  obtain ⟨sized, reply, s₁, hsized, hsame, hanswers, h₁, hprompt₁⟩ :=
    h.ask hconforms hbase hbase64 hticks hprompt drawn_dbSize
      (show execCmd w 0 .dbSize = (w, _) from rfl)
  obtain rfl := Option.some.inj hsame
  obtain ⟨listed, reply, s₂, hlisted, hsame, hanswers', h₂, hprompt₂⟩ :=
    h₁.ask hconforms hbase hbase64 hticks hprompt₁ drawn_keys
      (show execCmd w 0 .keys = (w, _) from rfl)
  obtain rfl := Option.some.inj hsame
  obtain rfl : sized = .int (presentCount w.slots) := by
    rw [cmdDbsize_eq] at hanswers
    cases hanswers
    rfl
  obtain ⟨ks, hperm, rfl⟩ : ∃ ks : List (Fin K), ks.Perm (visibleKeys w) ∧
      listed = .array (ks.map fun k ↦ .bulk (asBytes (keyName k))) := by
    cases hanswers' with
    | keySet _ ks hperm => exact ⟨ks, hperm, rfl⟩
  have hvisible : sortBy id (replyNames (.array (ks.map fun k ↦ .bulk (asBytes (keyName k))))) =
      (sortBy keyName (visibleKeys w)).map keyName := by
    rw [replyNames_keys, sortBy_names hperm, map_sortBy]
  have hfew : (sortBy keyName (visibleKeys w)).length ≤ K := by
    rw [(sortBy_perm keyName _).length_eq]
    exact (List.length_filter_le _ _).trans List.length_finRange.le
  obtain ⟨s', hloop⟩ := Coupled.snapshotKeys hconforms hbase hbase64 hticks hK hobservable
    (sortBy keyName (visibleKeys w)) (fun k hk ↦ mem_sortBy.mp hk) h₂
    (hprompt₂.mono (Nat.mul_le_mul_left 2 hfew)) []
  have hsize : (presentCount w.slots : ℤ) =
      ((List.finRange K).filter fun k ↦ (w.slots k).present).length := by
    rw [presentCount, List.countP_eq_length_filter]
  have hvalues : sortBy entryOrder ((sortBy keyName (visibleKeys w)).map (modelEntry w)) =
      sortBy entryOrder ((visibleKeys w).map (modelEntry w)) :=
    sortBy_eq_of_perm entryOrder_injective ((sortBy_perm keyName _).map _)
  refine ⟨s', ?_⟩
  show (clientCmd server ⟨s, []⟩ (render (.dbSize : Cmd K C)) >>= _) = _
  rw [hsized, ok_bind]
  show (clientCmd server ⟨s₁, []⟩ (render (.keys : Cmd K C)) >>= _) = _
  rw [hlisted, ok_bind]
  simp only [hvisible, hloop, ok_bind, Resp.asInt, Option.getD_some, List.nil_append, hsize,
    hvalues]
  rw [map_sortBy]
  rfl

end Snapshot

/-! ### No false alarms -/

section Silence

variable {server : Server σ} {slots : σ → Fin keyCount → Slot} {clock : σ → Ms}

/-- Against a conforming server that serves every request in time, no schedule is reported, and
every byte that the server sends is read. -/
theorem runSchedule_silent (hconforms : Conforms (C := clientCount) server slots clock)
    (seed : UInt64) (base : Ms) (schedule : List (DiffStep keyCount clientCount)) (s : σ)
    (hbase : 10001 ≤ base) (hbase64 : IsI64 base)
    (hdrawn : ∀ command, .cmd command ∈ schedule → Drawn base command)
    (hticks : schedule.count .tick ≤ 9999)
    (htime : OnTime server clock base 0 (server.serve s (cmdBytes [asBytes "FLUSHALL"])).1
      schedule) :
    ∃ s', runSchedule server seed base schedule ⟨s, []⟩ = .ok (⟨s', []⟩, none) := by
  obtain ⟨ignored, hsent, hsendable, hempty⟩ := hconforms.flushAll s
  have hflush := clientCmd_of_sent hsent hsendable
  have hstart : Coupled base 0 (World.empty base : World keyCount clientCount)
      (holding (slots (server.serve s (cmdBytes [asBytes "FLUSHALL"])).1) base) := by
    refine ⟨hempty, rfl, rfl, ?_, fun _ hpresent ↦ absurd hpresent Bool.false_ne_true⟩
    exact (Int.add_zero base).symm
  obtain ⟨s₁, ticks, hloop, hticks', hend, hprompt⟩ :=
    Coupled.runSteps seed 0 hconforms hbase hbase64 hstart hdrawn (by rwa [Nat.zero_add]) htime
  obtain ⟨s', hobserved⟩ := hend.wireSnapshot hconforms hbase hbase64 hticks' (by decide) hprompt
  refine ⟨s', ?_⟩
  rw [runSchedule_of_inr hflush hloop, hobserved, ok_bind]
  exact if_pos rfl

end Silence

end RedisCvlr.Driver
