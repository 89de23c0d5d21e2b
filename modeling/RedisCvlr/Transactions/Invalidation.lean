import RedisCvlr.Transactions.Flags

/-!
# Value writes and their watchers

A SET that writes its value should dirty every client that watches the key. Whether it does depends
on the watchers that the touch loop meets: `set_invalidates_iff` is the exact condition on the state
before the SET, for every configuration and every schedule. Over whole runs, the condition never
fails exactly under the purging configurations (`setsInvalidate_iff`). When expiry is paused, or on
the replication link of a replica or cluster node, an expired key survives the lookup of a SET, the
stale flag of a watcher meets a present key, and the rest of the watcher list is skipped.
-/

set_option autoImplicit false
set_option relaxedAutoImplicit false

namespace RedisCvlr.Transactions

open RedisCvlr.Library RedisCvlr.Model RedisCvlr.Watch RedisCvlr.Keyspace

variable {K C : ℕ}

theorem nobodyWatches_emptyWith (cfg : Config) (t : Ms) :
    NobodyWatches (emptyWith cfg t : World K C) :=
  ⟨rfl, fun _ _ ↦ rfl, fun _ _ ↦ rfl⟩

/-- The step is a SET on the key that reaches the propagation of its value. -/
def WritesValue (w : World K C) (k : Fin K) (s : Step K C) : Prop :=
  (∃ issuer val cond ttl getOld, s = .cmd issuer (.set k val cond ttl getOld)) ∧
    ∃ val expireAt, Effect.set k val expireAt ∈ emitted w s

/-- Every watcher of the key before the step is dirty after it. -/
def DirtiesWatchers (w : World K C) (k : Fin K) (s : Step K C) : Prop :=
  ∀ c, (w.clients c).watching k = true → ((w.next s).clients c).dirtyCas = true

/-- In every run under the configuration, every SET that writes dirties all watchers of its key. -/
def SetsInvalidate (cfg : Config) : Prop :=
  ∀ t schedule, IsI64 t → Runs (emptyWith cfg t : World keyCount clientCount) schedule →
    ∀ k s, WritesValue (runSchedule (emptyWith cfg t) schedule) k s →
      DirtiesWatchers (runSchedule (emptyWith cfg t : World keyCount clientCount) schedule) k s

/-- The watchers that a touch of the present key does not get to: those from the first flagged one
on. -/
def skipped (w : World K C) (k : Fin K) : List (Fin C) :=
  (w.watchers k).dropWhile fun c ↦ !(w.clients c).watchedExpired k

/-! ### One SET -/

section Single

variable {w : World K C} {k : Fin K}

/-- The members of a duplicate-free list split into the prefix of those that satisfy a test and the
rest. -/
theorem forall_mem_takeWhile_or {α : Type*} {l : List α} (hnodup : l.Nodup) (p : α → Bool)
    (P : α → Prop) :
    (∀ a ∈ l, a ∈ l.takeWhile p ∨ P a) ↔ ∀ a ∈ l.dropWhile p, P a := by
  have hsplit := List.takeWhile_append_dropWhile (p := p) (l := l)
  constructor
  · intro hall a ha
    refine (hall a ((List.dropWhile_sublist p).subset ha)).resolve_left fun htake ↦ ?_
    rw [← hsplit] at hnodup
    exact (List.nodup_append.mp hnodup).2.2 a htake a ha rfl
  · intro hrest a ha
    rw [← hsplit, List.mem_append] at ha
    exact ha.imp_right (hrest a)

/-- A SET that writes its value edits its key by a purge, if its lookups purge, and the write. -/
theorem stepEdits_of_writesValue (hK : K ≤ replCap) {s : Step K C} (hwrites : WritesValue w k s) :
    ∃ val expireAt, stepEdits w s =
      (if (config w).purges true w.clock (w.slots k) then [(k, .delete)] else []) ++
        [(k, .put val expireAt)] := by
  obtain ⟨⟨issuer, val, cond, ttl, getOld, rfl⟩, val', expireAt', hset⟩ := hwrites
  rw [set_mem_emitted_iff w _ hK] at hset
  have hedits : stepEdits w (.cmd issuer (.set k val cond ttl getOld)) =
      opEdits w k (.set val cond ttl getOld) := rfl
  rw [hedits] at hset ⊢
  rw [editsOn_opEdits, if_pos rfl, KeyOp.edits, List.mem_append] at hset
  rw [opEdits, KeyOp.edits]
  rcases hset with hpurge | hwrite
  · split_ifs at hpurge <;> simp at hpurge
  · rw [Option.mem_toList] at hwrite
    rw [hwrite]
    refine ⟨val', expireAt', ?_⟩
    split_ifs with hpurges <;> simp_all [KeyOp.writes]

/-- The touch of a present key dirties the watchers before the first flagged one. -/
theorem dirtyCas_applyEdit_put (h : WatchWellFormed w) (val : Str) (expireAt : Ms) (c : Fin C) :
    ((applyEdit w (k, .put val expireAt)).clients c).dirtyCas = true ↔
      c ∈ (w.watchers k).takeWhile (fun c ↦ !(w.clients c).watchedExpired k) ∨
        (w.clients c).dirtyCas = true := by
  have hwritten : ((w.setSlot k (Edit.slot (.put val expireAt) (w.slots k))).slots k).present =
      true := by
    simp [World.setSlot, Edit.slot]
  rw [applyEdit_eq, touchWatchedKey_present (setSlot_wellFormed h k _) hwritten]
  change (if decide _ then dirtyBits (w.clients c) else w.clients c).dirtyCas = true ↔ _
  split_ifs with htaken
  · exact ⟨fun _ ↦ .inl (of_decide_eq_true htaken), fun _ ↦ rfl⟩
  · exact ⟨.inr, fun hor ↦ hor.resolve_left (of_decide_eq_false (Bool.not_eq_true _ ▸ htaken))⟩

theorem next_of_writesValue {s : Step K C} (hwrites : WritesValue w k s) :
    w.next s = applyEdits (freshUnit w) (stepEdits w s) := by
  obtain ⟨⟨issuer, val, cond, ttl, getOld, rfl⟩, -⟩ := hwrites
  rw [World.next, step_of_keyOp w issuer rfl]
  rfl

/-- A SET that writes dirties every watcher exactly when its lookups purge the key, which touches it
while it is absent, or every watcher that its touch skips was dirty already. -/
theorem dirtiesWatchers_iff (h : WatchWellFormed w) (hK : K ≤ replCap) {s : Step K C}
    (hwrites : WritesValue w k s) :
    DirtiesWatchers w k s ↔
      (config w).purges true w.clock (w.slots k) = true ∨
        ∀ c ∈ skipped w k, (w.clients c).dirtyCas = true := by
  have hfresh := freshUnit_wellFormed h
  obtain ⟨val, expireAt, hedits⟩ := stepEdits_of_writesValue hK hwrites
  rw [DirtiesWatchers, next_of_writesValue hwrites, hedits]
  cases hpurges : (config w).purges true w.clock (w.slots k) with
  | true =>
    have hsafe : SafeEdits (freshUnit w) [(k, .delete), (k, .put val expireAt)] :=
      ⟨.inl rfl, .inr (unflagged_applyEdit hfresh (.inl rfl)), trivial⟩
    refine ⟨fun _ ↦ .inl rfl, fun _ c hwatching ↦ ?_⟩
    refine (dirtyCas_applyEdits hfresh hsafe c).mpr (.inr ⟨k, hwatching, .inr ?_⟩)
    simp
  | false =>
    simp only [Bool.false_eq_true, if_false, List.nil_append, applyEdits_cons, applyEdits_nil,
      false_or, dirtyCas_applyEdit_put hfresh]
    rw [skipped, ← forall_mem_takeWhile_or (h.nodup k)]
    refine forall_congr' fun c ↦ ?_
    rw [h.mem_watchers]
    rfl

end Single

/-! ### Whole runs -/

/-- Under a purging configuration no watcher is ever skipped. -/
theorem dirtiesWatchers_of_purging {w : World K C} {k : Fin K} {s : Step K C} (hlive : FlagsLive w)
    (hpurging : (config w).purging = true) (hK : K ≤ replCap) (hwrites : WritesValue w k s) :
    DirtiesWatchers w k s := by
  rw [dirtiesWatchers_iff hlive.wellFormed hK hwrites]
  by_cases hflagged : ∃ c, (w.clients c).watchedExpired k = true
  · obtain ⟨c, hflag⟩ := hflagged
    have hexpired := hlive.expired c k hflag
    rw [keyIsExpired_eq] at hexpired
    exact .inl (Config.purges_of_expired hpurging (hlive.present c k hflag) hexpired)
  · simp only [not_exists, Bool.not_eq_true] at hflagged
    have hnone : skipped w k = [] := by
      simp [skipped, List.dropWhile_eq_nil_iff, hflagged]
    rw [hnone]
    exact .inr fun c hc ↦ absurd hc List.not_mem_nil

/-- A schedule that leaves a watcher behind when expired keys survive a SET: client 0 watches a key
whose time has passed, the key is written, client 1 watches the new value, and the key is written
again. -/
def staleFlagSchedule : List (Step keyCount clientCount) :=
  [.cmd 0 (.set 0 Str.empty .always (.pxAt 1) false), .clockTick 2, .cmd 0 (.watch 0 0),
    .cmd 0 (.set 0 Str.empty .always .none false), .cmd 1 (.watch 1 0)]

/-- The write that ends the schedule. -/
def staleFlagWrite : Step keyCount clientCount := .cmd 0 (.set 0 Str.empty .always .none false)

/-- What the schedule does under each of the configurations that do not purge. -/
theorem staleFlag_facts (cfg : Config) (hpurging : cfg.purging = false) :
    Runs (emptyWith cfg 0) staleFlagSchedule ∧
      Effect.set 0 Str.empty noExpire ∈
        emitted (runSchedule (emptyWith cfg 0) staleFlagSchedule) staleFlagWrite ∧
      ((runSchedule (emptyWith cfg 0) staleFlagSchedule).clients 1).watching 0 = true ∧
      (((runSchedule (emptyWith cfg 0) staleFlagSchedule).next staleFlagWrite).clients 1).dirtyCas =
        false := by
  obtain ⟨role, caller, access, paused, cluster, conf⟩ := cfg
  revert hpurging
  cases role <;> cases caller <;> revert access paused cluster conf <;> decide

/-- Without purging, the last write leaves a watcher clean that saw the key alive. -/
theorem staleFlag_missed (cfg : Config) (hpurging : cfg.purging = false) :
    Runs (emptyWith cfg 0) staleFlagSchedule ∧
      WritesValue (runSchedule (emptyWith cfg 0) staleFlagSchedule) 0 staleFlagWrite ∧
      ¬ DirtiesWatchers (runSchedule (emptyWith cfg 0) staleFlagSchedule) 0 staleFlagWrite := by
  obtain ⟨hruns, hset, hwatching, hclean⟩ := staleFlag_facts cfg hpurging
  refine ⟨hruns, ⟨⟨0, Str.empty, .always, .none, false, rfl⟩, Str.empty, noExpire, hset⟩, ?_⟩
  intro hdirties
  rw [hdirties 1 hwatching] at hclean
  exact Bool.false_ne_true hclean.symm

/-- Under a configuration, value writes dirty all watchers in every run exactly when it is purging;
and in any run a single value write does exactly when its lookups purge the key or the watchers that
its touch skips were dirty already. -/
theorem setsInvalidate_iff_purging (cfg : Config) :
    (SetsInvalidate cfg ↔ cfg.purging = true) ∧
      ∀ t schedule (w : World keyCount clientCount),
        runSchedule (emptyWith cfg t) schedule = w → ∀ k s, WritesValue w k s →
          (DirtiesWatchers w k s ↔
            cfg.purges true w.clock (w.slots k) = true ∨
              ∀ c ∈ skipped w k, (w.clients c).dirtyCas = true) := by
  refine ⟨⟨fun hall ↦ ?_, fun hpurging t schedule _ hruns k s hwrites ↦ ?_⟩, ?_⟩
  · by_contra hpurging
    obtain ⟨hruns, hwrites, hmissed⟩ := staleFlag_missed cfg (Bool.not_eq_true _ ▸ hpurging)
    exact hmissed (hall 0 staleFlagSchedule (by decide) hruns 0 staleFlagWrite hwrites)
  · have hlive := ((nobodyWatches_emptyWith cfg t).flagsLive.run hpurging hruns).1
    refine dirtiesWatchers_of_purging hlive ?_ (by decide) hwrites
    rw [runSchedule_config]
    exact hpurging
  · rintro t schedule w rfl k s hwrites
    have hwf := runSchedule_wellFormed (nobodyWatches_emptyWith cfg t).wellFormed schedule
    rw [dirtiesWatchers_iff hwf (by decide) hwrites, runSchedule_config, config_emptyWith]

/-- A standalone master on which expiry is paused. -/
def pausedMaster : Config := ⟨.master, .normal, false, true, false, true⟩

/-- With expiry paused on a plain master, the stale flag of client 0 hides two value writes, and
client 1, which saw the key alive, stays clean. -/
theorem paused_master_misses_watchers : ¬ SetsInvalidate pausedMaster := by
  intro hall
  obtain ⟨hruns, hwrites, hmissed⟩ := staleFlag_missed pausedMaster rfl
  exact hmissed (hall 0 staleFlagSchedule (by decide) hruns 0 staleFlagWrite hwrites)

/-- On a purging master a value write dirties the watcher of a live key. -/
theorem setsInvalidate_iff_purging_master :
    DirtiesWatchers (runSchedule (emptyWith ⟨.master, .normal, false, false, false, true⟩ 0)
      staleFlagSchedule) 0 staleFlagWrite :=
  (setsInvalidate_iff_purging _).1.mpr rfl 0 staleFlagSchedule (by decide) (by decide) 0
    staleFlagWrite ⟨⟨0, Str.empty, .always, .none, false, rfl⟩, Str.empty, noExpire, by decide⟩

end RedisCvlr.Transactions
