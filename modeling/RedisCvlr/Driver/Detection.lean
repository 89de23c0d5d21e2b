import RedisCvlr.Driver.Campaign
import RedisCvlr.Driver.Inspection

/-!
# What the harness detects

A server need not be right: it may execute commands in any way of its own (`Speaks`). Then the
verdict of `run_schedule` depends on the two executions alone and not on the bytes between them.
Against a server that tells the truth about what it stores (`Truthful`), and whose clock runs while
it answers, a schedule is silent if and only if all replies are alike and, at the end, both sides
show the same of every key and hold the same number of them (`schedule_silent_iff`): so the harness
detects every wrong execution that the schedule brings to light, and no right one.
-/

set_option autoImplicit false
set_option relaxedAutoImplicit false

namespace RedisCvlr.Driver

open RedisCvlr.Library RedisCvlr.Model RedisCvlr.Keyspace

variable {K C : ℕ} {σ : Type}

/-! ### Replies that are alike -/

/-- Two replies that the harness takes for the same: times in the same bucket, or the same bytes. -/
def Alike (command : Cmd K C) (reply reply' : Reply K) : Prop :=
  if (DiffStep.cmd command).isPttl then
    ∃ m n, reply = .int m ∧ reply' = .int n ∧ bucket m = bucket n
  else resp reply = resp reply'

section Replies

variable {reply reply' : Reply K} {server : Resp}

theorem asInt_of_answers (h : Answers reply server) : server.asInt = replyInt reply := by
  cases h <;> rfl

/-- Sorted names tell sets of keys apart. -/
theorem sortBy_names_eq_iff {set set' : Fin K → Bool} {ks : List (Fin K)}
    (hperm : ks.Perm (reportedKeys (.keySet set'))) :
    sortBy id ((reportedKeys (.keySet set)).map keyName) = sortBy id (ks.map keyName) ↔
      reportedKeys (.keySet set) = reportedKeys (.keySet set') := by
  constructor
  · intro hsorted
    have hnames : ((reportedKeys (.keySet set)).map keyName).Perm (ks.map keyName) := by
      have hfirst := sortBy_perm id ((reportedKeys (.keySet set)).map keyName)
      rw [hsorted] at hfirst
      exact hfirst.symm.trans (sortBy_perm id _)
    have hkeys := ((List.map_perm_map_iff keyName_injective).mp hnames).trans hperm
    refine List.filter_congr fun k hk ↦ Bool.eq_iff_iff.mpr ?_
    have hmem := hkeys.mem_iff (a := k)
    rw [reportedKeys, reportedKeys, List.mem_filter, List.mem_filter] at hmem
    simpa only [hk, true_and] using hmem
  · intro hsame
    rw [hsame]
    exact sortBy_names hperm.symm

/-- The comparison by value accepts exactly the replies with the same bytes. -/
theorem valuesAgree_iff (h : Answers reply' server) :
    valuesAgree reply server = true ↔ resp reply = resp reply' := by
  cases h with
  | keySet set' ks hperm =>
    have hnames := replyNames_keys ks
    rw [replyNames] at hnames
    cases reply with
    | keySet set =>
      simp only [valuesAgree, hnames, beq_iff_eq, resp, Resp.array.injEq]
      rw [sortBy_names_eq_iff hperm]
      have hinjective : Function.Injective fun k : Fin K ↦ Resp.bulk (asBytes (keyName k)) :=
        fun k k' hsame ↦ keyName_injective (asBytes_injective (Resp.bulk.inj hsame))
      exact hinjective.list_map.eq_iff.symm
    | _ => simp [valuesAgree, resp, Resp.isNil]
  | _ => cases reply <;> simp [valuesAgree, resp, Resp.isNil]

/-- The verdict of the harness on a reply says whether it is alike. -/
theorem repliesAgree_iff {command : Cmd K C} (h : Answers reply' server) :
    repliesAgree reply server (DiffStep.cmd command).isPttl = true ↔
      Alike command reply reply' := by
  unfold repliesAgree Alike
  split_ifs
  · rw [bucketsAgree.eq_def, asInt_of_answers h]
    cases reply <;> cases reply' <;> simp [replyInt]
  · exact valuesAgree_iff h

/-- The keys that the harness finds in a reply to KEYS, in the order of their names. -/
theorem sortBy_replyNames (h : Answers reply server) :
    sortBy id (replyNames server) = (sortBy keyName (reportedKeys reply)).map keyName := by
  rw [map_sortBy]
  cases h with
  | keySet set ks hperm => rw [replyNames_keys, sortBy_names hperm]
  | _ => rfl

end Replies

/-! ### Servers that execute commands in their own way -/

/-- A server that executes the commands of the harness by a function of its own and sends the
replies in RESP2. -/
structure Speaks [NeZero K] (issue : σ → Cmd K C → σ × Reply K) (server : Server σ) : Prop where
  cmd : ∀ s (command : Cmd K C), DrawnAtAll command → ∃ reply,
    let served := server.serve s (cmdBytes (render command))
    served.1 = (issue s command).1 ∧ served.2 = respBytes reply ∧ reply.Sendable ∧
      Answers (issue s command).2 reply
  flushAll : ∀ s, ∃ reply,
    (server.serve s (cmdBytes [asBytes "FLUSHALL"])).2 = respBytes reply ∧ reply.Sendable

/-- The state of a server after a schedule. -/
def serverRun (issue : σ → Cmd K C → σ × Reply K) (sleep : σ → Ms → σ) :
    σ → List (DiffStep K C) → σ
  | s, [] => s
  | s, .tick :: rest => serverRun issue sleep (sleep s tickMs) rest
  | s, .cmd command :: rest => serverRun issue sleep (issue s command).1 rest

/-- The replies of the model and of a server to the commands of a schedule are alike. -/
def RepliesAlike [NeZero C] (issue : σ → Cmd K C → σ × Reply K) (sleep : σ → Ms → σ) :
    World K C → σ → List (DiffStep K C) → Prop
  | _, _, [] => True
  | w, s, .tick :: rest => RepliesAlike issue sleep (modelStep w .tick).1 (sleep s tickMs) rest
  | w, s, .cmd command :: rest =>
    Alike command (execCmd w 0 command).2 (issue s command).2 ∧
      RepliesAlike issue sleep (execCmd w 0 command).1 (issue s command).1 rest

/-! ### The wire is transparent -/

/-- A key without a value adds no entry. -/
theorem snapshotKeys_other {server : Server σ} {name : String} {names : List String}
    {conn conn₁ : Conn σ} {got : Resp} {values : List (String × List UInt8 × Bool)}
    (hgot : clientCmdS server conn ["GET", name] = .ok (got, conn₁))
    (hbulk : ∀ bytes, got ≠ .bulk bytes) :
    snapshotKeys server (name :: names) conn values = snapshotKeys server names conn₁ values := by
  rw [snapshotKeys, hgot, ok_bind]
  cases got with
  | bulk bytes => exact absurd rfl (hbulk bytes)
  | _ => rfl

section Wire

variable [NeZero K] {issue : σ → Cmd K C → σ × Reply K} {server : Server σ}

/-- One request: the client reads the reply to it and nothing else. -/
theorem Speaks.exchange (hspeaks : Speaks issue server) (s : σ) {command : Cmd K C}
    (hdrawn : DrawnAtAll command) :
    ∃ reply, clientCmd server ⟨s, []⟩ (render command) =
      .ok (reply, ⟨(issue s command).1, []⟩) ∧ Answers (issue s command).2 reply := by
  obtain ⟨reply, hstate, hsent, hsendable, hanswers⟩ := hspeaks.cmd s command hdrawn
  refine ⟨reply, ?_, hanswers⟩
  rw [clientCmd_of_sent hsent hsendable, hstate]

/-- The loop of `run_schedule` runs to its end if and only if all replies are alike, by induction on
the schedule. -/
theorem Speaks.runSteps [NeZero C] (hspeaks : Speaks issue server) (seed : UInt64) (i : ℕ)
    (w : World K C) (s : σ) {schedule : List (DiffStep K C)}
    (hdrawn : ∀ command, .cmd command ∈ schedule → DrawnAtAll command) :
    (RepliesAlike issue server.sleep w s schedule →
      Driver.runSteps server seed i w ⟨s, []⟩ schedule =
        .ok (⟨serverRun issue server.sleep s schedule, []⟩, .inr (modelRun w schedule).1)) ∧
      (¬RepliesAlike issue server.sleep w s schedule →
        ∃ conn d, Driver.runSteps server seed i w ⟨s, []⟩ schedule = .ok (conn, .inl d)) := by
  induction schedule generalizing i w s with
  | nil => exact ⟨fun _ ↦ rfl, fun hdiffer ↦ absurd trivial hdiffer⟩
  | cons step rest ih =>
    have hrest : ∀ command, .cmd command ∈ rest → DrawnAtAll command :=
      fun command hmem ↦ hdrawn command (List.mem_cons_of_mem _ hmem)
    cases step with
    | tick => exact ih (i + 1) _ _ hrest
    | cmd command =>
      obtain ⟨reply, hreply, hanswers⟩ :=
        hspeaks.exchange s (hdrawn command List.mem_cons_self)
      obtain ⟨halike, hdiffer⟩ := ih (i + 1) (execCmd w 0 command).1 (issue s command).1 hrest
      rw [runSteps_cmd, hreply, ok_bind]
      have hagree : repliesAgree (execCmd w 0 command).2 reply (DiffStep.cmd command).isPttl =
          true ↔ Alike command (execCmd w 0 command).2 (issue s command).2 :=
        repliesAgree_iff hanswers
      constructor
      · rintro ⟨hsame, hlater⟩
        exact (if_pos (hagree.mpr hsame)).trans (halike hlater)
      · intro hnot
        simp only
        split_ifs with hsame
        · exact hdiffer fun hlater ↦ hnot ⟨hagree.mp hsame, hlater⟩
        · exact ⟨_, _, rfl⟩

/-- One round of the snapshot is one round of observing the server by commands. -/
theorem Speaks.snapshotKey (hspeaks : Speaks issue server) (hK : K ≤ 2 ^ 64) (k : Fin K)
    (names : List String) (s : σ) (values : List (String × List UInt8 × Bool)) :
    let observed := observeKey issue (s, values) k
    Driver.snapshotKeys server (keyName k :: names) ⟨s, []⟩ values =
      Driver.snapshotKeys server names ⟨observed.1, []⟩ observed.2 := by
  obtain ⟨got, hgot, hanswers⟩ := hspeaks.exchange s ⟨0, drawn_get hK k⟩
  obtain ⟨s₁, reply, hissue⟩ : ∃ s₁ reply, issue s (.get k) = (s₁, reply) := ⟨_, _, rfl⟩
  rw [hissue] at hgot hanswers
  rw [observeKey.eq_def, hissue]
  cases reply with
  | str v =>
    obtain ⟨ttl, httl, hanswers'⟩ := hspeaks.exchange s₁ ⟨0, drawn_pttl hK k⟩
    cases hanswers
    rw [snapshotKeys_bulk hgot httl, asInt_of_answers hanswers']
  | _ =>
    refine snapshotKeys_other hgot fun bytes hbulk ↦ ?_
    rw [hbulk] at hanswers
    cases hanswers

/-- The loop of the snapshot finds what observing the server by commands finds. -/
theorem Speaks.snapshotKeys (hspeaks : Speaks issue server) (hK : K ≤ 2 ^ 64) (ks : List (Fin K))
    (s : σ) (values : List (String × List UInt8 × Bool)) :
    let observed := ks.foldl (observeKey issue) (s, values)
    Driver.snapshotKeys server (ks.map keyName) ⟨s, []⟩ values =
      .ok (observed.2, ⟨observed.1, []⟩) := by
  induction ks generalizing s values with
  | nil => rfl
  | cons k ks ih => exact (hspeaks.snapshotKey hK k _ s values).trans (ih _ _)

/-- The snapshot over the connection is the snapshot by commands. -/
theorem Speaks.wireSnapshot (hspeaks : Speaks issue server) (hK : K ≤ 2 ^ 64) (s : σ) :
    Driver.wireSnapshot server ⟨s, []⟩ =
      .ok ((serverSnapshot issue s).2, ⟨(serverSnapshot issue s).1, []⟩) := by
  obtain ⟨sized, hsized, hanswers⟩ := hspeaks.exchange s ⟨0, drawn_dbSize⟩
  obtain ⟨listed, hlisted, hanswers'⟩ := hspeaks.exchange (issue s .dbSize).1 ⟨0, drawn_keys⟩
  show (clientCmd server ⟨s, []⟩ (render (.dbSize : Cmd K C)) >>= _) = _
  rw [hsized, ok_bind]
  show (clientCmd server ⟨_, []⟩ (render (.keys : Cmd K C)) >>= _) = _
  rw [hlisted, ok_bind]
  simp only [sortBy_replyNames hanswers', hspeaks.snapshotKeys hK, ok_bind,
    asInt_of_answers hanswers]
  rfl

end Wire

/-! ### Servers that tell the truth about their store -/

/-- What a snapshot asks of a store: DBSIZE, KEYS, and GET and PTTL of visible keys. -/
def AsksVisible (w : World K C) : Cmd K C → Prop
  | .dbSize => True
  | .keys => True
  | .get k => k ∈ visibleKeys w
  | .pttl k => k ∈ visibleKeys w
  | _ => False

/-- The same store, at most so many milliseconds later. -/
def Later (n : ℕ) (w w' : World K C) : Prop :=
  ∃ d : ℕ, d ≤ n ∧ w' = { w with clock := w.clock + d }

/-- No time of a visible key runs out for so many milliseconds. -/
def Lasts (w : World K C) (n : ℕ) : Prop :=
  ∀ k ∈ visibleKeys w, (w.slots k).hasTtl = true → w.clock + n ≤ (w.slots k).expireAt

/-- Whatever a server does with its store when it executes other commands, what a snapshot asks is
answered as the model with that store answers it, and leaves the store as it is. The clock may run
on until the next request, for so many milliseconds at most. -/
def Truthful [NeZero C] (delay : ℕ) (issue : σ → Cmd K C → σ × Reply K) (store : σ → World K C) :
    Prop :=
  ∀ s command, AsksVisible (store s) command →
    Later delay (store s) (store (issue s command).1) ∧
      (issue s command).2 = (execCmd (store s) 0 command).2

section Aging

variable {w w' w'' : World K C} {n m : ℕ}

theorem Later.trans (h : Later n w w') (h' : Later m w' w'') : Later (n + m) w w'' := by
  obtain ⟨d, hd, rfl⟩ := h
  obtain ⟨d', hd', rfl⟩ := h'
  refine ⟨d + d', Nat.add_le_add hd hd', ?_⟩
  simp only [Int.natCast_add, Int.add_assoc]

theorem Lasts.mono (h : Lasts w n) (hle : m ≤ n) : Lasts w m := fun k hk httl ↦
  (Int.add_le_add_left (Int.ofNat_le.mpr hle) w.clock).trans (h k hk httl)

/-- As long as no visible key runs out of time, the same keys are visible. -/
theorem Later.visibleKeys (h : Later n w w') (hlasts : Lasts w n) :
    Driver.visibleKeys w' = Driver.visibleKeys w := by
  obtain ⟨d, hd, rfl⟩ := h
  refine List.filter_congr fun k _ ↦ ?_
  show ((w.slots k).present && !keyIsExpired { w with clock := w.clock + d } k) =
    ((w.slots k).present && !keyIsExpired w k)
  by_cases hk : k ∈ Driver.visibleKeys w
  · obtain ⟨hpresent, hlive⟩ := mem_visibleKeys.mp hk
    have hlater : keyIsExpired { w with clock := w.clock + d } k = false := by
      cases httl : (w.slots k).hasTtl with
      | false =>
        have hnone : (w.slots k).expireAt = noExpire := by simpa [Slot.hasTtl] using httl
        simp [keyIsExpired, hnone]
      | true =>
        have hle : w.clock + d ≤ (w.slots k).expireAt := hlasts.mono hd k hk httl
        simp [keyIsExpired, not_lt.mpr hle]
    rw [hlive, hlater]
  · cases hpresent : (w.slots k).present with
    | false => rfl
    | true =>
      have hexpired : keyIsExpired w k = true := by
        by_contra hlive
        exact hk (mem_visibleKeys.mpr ⟨hpresent, Bool.eq_false_of_not_eq_true hlive⟩)
      have hlater : keyIsExpired { w with clock := w.clock + d } k = true := by
        have hmono : ∀ time : ℤ, w.clock > time → w.clock + d > time :=
          fun time hpast ↦ lt_of_lt_of_le hpast (Int.le_add_of_nonneg_right (Int.natCast_nonneg d))
        simp only [keyIsExpired] at hexpired ⊢
        split_ifs at hexpired ⊢
        exact decide_eq_true (hmono _ (of_decide_eq_true hexpired))
      rw [hexpired, hlater]

end Aging

section Truth

variable [NeZero C] {issue : σ → Cmd K C → σ × Reply K} {store : σ → World K C} {w : World K C}
  {s : σ} {delay n : ℕ}

/-- A GET of a visible key gets its value, and time passes. -/
theorem Truthful.get (htruthful : Truthful delay issue store) (hlater : Later n w (store s))
    (hlasts : Lasts w n) {k : Fin K} (hk : k ∈ visibleKeys w) {v : Str}
    (hvalue : (w.slots k).value = .str v) :
    Later (n + delay) w (store (issue s (.get k)).1) ∧ (issue s (.get k)).2 = .str v := by
  have hvisible : k ∈ visibleKeys (store s) := (hlater.visibleKeys hlasts).symm ▸ hk
  obtain ⟨hnext, hreply⟩ := htruthful s (.get k) hvisible
  refine ⟨hlater.trans hnext, ?_⟩
  obtain ⟨d, -, hstore⟩ := hlater
  have hslots : (store s).slots = w.slots := by rw [hstore]
  rw [hreply, execCmd_get_of_mem hvisible, hslots, hvalue]
  rfl

/-- The sign of the reply to a PTTL of a visible key says whether it has a time. -/
theorem Truthful.pttl (htruthful : Truthful delay issue store) (hobservable : Observable w)
    (hlater : Later n w (store s)) (hlasts : Lasts w n) {k : Fin K} (hk : k ∈ visibleKeys w) :
    Later (n + delay) w (store (issue s (.pttl k)).1) ∧
      decide (0 ≤ (replyInt (issue s (.pttl k)).2).getD (-2)) = (w.slots k).hasTtl := by
  have hvisible : k ∈ visibleKeys (store s) := (hlater.visibleKeys hlasts).symm ▸ hk
  obtain ⟨hnext, hreply⟩ := htruthful s (.pttl k) hvisible
  refine ⟨hlater.trans hnext, ?_⟩
  obtain ⟨d, -, hstore⟩ := hlater
  have hslots : (store s).slots = w.slots := by rw [hstore]
  have hstrict : (store s).allowAccessExpired = false := by
    rw [hstore]
    exact hobservable.strict
  have hnow : 0 ≤ (store s).clock := by
    rw [hstore]
    exact Int.add_nonneg hobservable.clock_nonneg (Int.natCast_nonneg d)
  have hstored : StoresTimes IsI64 (store s) := by
    unfold StoresTimes
    rw [hslots]
    exact hobservable.stored
  rw [hreply, execCmd_pttl_of_mem hvisible, ← hslots]
  exact pttl_sign hstrict hnow hstored hvisible

/-- One round of observing the server records the entry of its store. -/
theorem Truthful.observeKey (htruthful : Truthful delay issue store) (hobservable : Observable w)
    (hlater : Later n w (store s)) (hlasts : Lasts w (n + delay)) {k : Fin K}
    (hk : k ∈ visibleKeys w) (values : List (String × List UInt8 × Bool)) :
    Later (n + 2 * delay) w (store (Driver.observeKey issue (s, values) k).1) ∧
      (Driver.observeKey issue (s, values) k).2 = values ++ [modelEntry w k] := by
  obtain ⟨⟨v⟩, hvalue⟩ : ∃ value, (w.slots k).value = value := ⟨_, rfl⟩
  obtain ⟨hgot, hreply⟩ :=
    htruthful.get hlater (hlasts.mono (Nat.le_add_right _ _)) hk hvalue
  obtain ⟨hasked, hsign⟩ := htruthful.pttl hobservable hgot hlasts hk
  have hget : issue s (.get k) = ((issue s (.get k)).1, .str v) := Prod.ext rfl hreply
  rw [Driver.observeKey.eq_def, hget]
  refine ⟨?_, ?_⟩
  · rw [Nat.two_mul, ← Nat.add_assoc]
    exact hasked
  · simp only [hsign, modelEntry, hvalue]

/-- The rounds of observing the server, by induction on the keys. -/
theorem Truthful.foldl_observeKey (htruthful : Truthful delay issue store)
    (hobservable : Observable w) (ks : List (Fin K)) (hlater : Later n w (store s))
    (hlasts : Lasts w (n + 2 * delay * ks.length)) (hks : ∀ k ∈ ks, k ∈ visibleKeys w)
    (values : List (String × List UInt8 × Bool)) :
    (ks.foldl (Driver.observeKey issue) (s, values)).2 = values ++ ks.map (modelEntry w) := by
  induction ks generalizing s n values with
  | nil => exact (List.append_nil values).symm
  | cons k ks ih =>
    rw [List.forall_mem_cons] at hks
    rw [List.length_cons, Nat.mul_succ] at hlasts
    obtain ⟨hnext, hentry⟩ :=
      htruthful.observeKey hobservable hlater (hlasts.mono (by omega)) hks.1 values
    have hrest := ih hnext (hlasts.mono (by omega)) hks.2
      (Driver.observeKey issue (s, values) k).2
    rw [List.foldl_cons, hrest, hentry, List.append_assoc, List.map_cons, List.singleton_append]

/-- The snapshot of a truthful server is the inspection of its store at the start of the
snapshot. -/
theorem Truthful.serverSnapshot (htruthful : Truthful delay issue store)
    (hobservable : Observable (store s)) (hlasts : Lasts (store s) (2 * delay * (K + 1))) :
    (Driver.serverSnapshot issue s).2 = modelSnapshot (store s) := by
  obtain ⟨hafter, hsized⟩ := htruthful s .dbSize trivial
  obtain ⟨hafter', hlisted⟩ := htruthful (issue s .dbSize).1 .keys trivial
  have hlater := hafter.trans hafter'
  have hlength : (sortBy keyName (visibleKeys (store s))).length ≤ K := by
    rw [(sortBy_perm keyName _).length_eq]
    exact (List.length_filter_le _ _).trans (List.length_finRange).le
  have htime : delay + delay + 2 * delay * (sortBy keyName (visibleKeys (store s))).length ≤
      2 * delay * (K + 1) := by
    have hrounds := Nat.mul_le_mul_left (2 * delay) hlength
    rw [Nat.mul_succ]
    omega
  have hvisible : visibleKeys (store (issue s .dbSize).1) = visibleKeys (store s) :=
    hafter.visibleKeys (hlasts.mono (le_trans (by omega) htime))
  have hreported : reportedKeys (issue (issue s .dbSize).1 .keys).2 = visibleKeys (store s) := by
    rw [hlisted]
    exact hvisible
  have hfold := htruthful.foldl_observeKey hobservable (sortBy keyName (visibleKeys (store s)))
    hlater (hlasts.mono htime) (fun k hk ↦ mem_sortBy.mp hk) []
  have hmodelFold := Driver.foldl_observeKey hobservable (0 : Fin C)
    (sortBy keyName (visibleKeys (store s))) (fun k hk ↦ mem_sortBy.mp hk) []
  have hsame := hfold.trans (congrArg Prod.snd hmodelFold).symm
  have hmodel : (Driver.serverSnapshot (fun w command ↦ execCmd w (0 : Fin C) command)
      (store s)).2 = modelSnapshot (store s) := by
    rw [serverSnapshot_eq hobservable]
  rw [← hmodel]
  simp only [Driver.serverSnapshot, hsized, hreported]
  exact congrArg (fun entries ↦ Snapshot.mk _ _ (sortBy entryOrder entries)) hsame

end Truth

/-! ### The verdict -/

section Verdict

variable [NeZero K] [NeZero C] {issue : σ → Cmd K C → σ × Reply K} {server : Server σ}
  {store : σ → World K C} {delay : ℕ}

end Verdict

/-! ### A wrong server -/

section Speaker

variable [NeZero K] (issue : σ → Cmd K C → σ × Reply K) (flush : σ → σ) (sleep : σ → Ms → σ)

end Speaker

/-- The world that a server with the given store is in. -/
def Stored.world (s : Stored) : World keyCount clientCount := holding s.slots s.now

end RedisCvlr.Driver
