import RedisCvlr.Library.LogShipping
import RedisCvlr.Replication.Replay

/-!
# A replica follows its master

A master runs any steps and hands its log over after each. A read-only replica applies the effects
in order through `execCmd`, as the commands of its replication link, and between them serves reads,
runs its active cycle and lets its own clock pass. The clock and the flags of the replica do not
matter: for the caller of the link no key is expired, and a replica deletes nothing by itself.

`replication_refines` states this for every interleaving of the two.
-/

set_option autoImplicit false
set_option relaxedAutoImplicit false

namespace RedisCvlr.Replication

open RedisCvlr.Library RedisCvlr.Library.Machine RedisCvlr.Library.LogShipping RedisCvlr.Model
  RedisCvlr.Keyspace

variable {K C : ℕ}

/-! ### The two parties -/

/-- Hands the log over. -/
def drain (w : World K C) : World K C := { w with repl := ReplLog.new }

/-- The command by which a replica applies an effect. -/
def effectCmd : Effect K → Option (Cmd K C)
  | .multi => none
  | .exec => none
  | .set k val pxat =>
    some (.set k val .always (if pxat = noExpire then .none else .pxAt pxat) false)
  | .del k => some (.del k)
  | .pExpireAt k time => some (.expire k time .none)
  | .persist k => some (.persist k)

/-- A replica applies an effect. -/
def applyEffect (link : Fin C) (w : World K C) (e : Effect K) : World K C :=
  match effectCmd e with
  | some command => (execCmd { w with caller := .masterLink } link command).1
  | none => w

/-- A step that a replica takes by itself: it serves a read, runs the active cycle or lets time
pass. -/
def isReplicaStep : Step K C → Bool
  | .cmd _ command => isRead command
  | .activeExpire => true
  | .clockTick _ => true

/-- The steps that a replica takes by itself. -/
abbrev ReplicaStep (K C : ℕ) := { s : Step K C // isReplicaStep s = true }

/-- A replica takes a step by itself; its reads are those of a normal caller. -/
def replicaNext (w : World K C) (s : ReplicaStep K C) : World K C :=
  World.next { w with caller := .normal } s.1

/-- A master that drains its log after every step, and a replica. -/
def parties (link : Fin C) :
    Parties (World K C) (Step K C) (Effect K) (World K C) (ReplicaStep K C) where
  step := fun w s ↦ drain (w.next s)
  emit := fun w s ↦ (w.next s).repl.entries
  apply := applyEffect link
  own := replicaNext

/-! ### The replica -/

section Replica

variable {cfg : Config} {now : Ms} {s : Slot}

/-- For the caller of the link every present slot is there, and lookups delete nothing. -/
theorem sees_of_fromMaster (hlink : cfg.fromMaster = true) : cfg.sees now s = s.present := by
  simp [Config.sees, hlink]

theorem slotAfterLookup_of_fromMaster (hlink : cfg.fromMaster = true) (force : Bool) :
    cfg.slotAfterLookup force now s = s := by
  unfold Config.slotAfterLookup Config.purges
  simp [hlink]

/-- The operation of an effect, through the link of a replica, is the edit of the effect. -/
theorem slot_of_link (C : ℕ) (hlink : cfg.fromMaster = true) (hrole : cfg.role = .readOnlyReplica)
    (now : Ms) (k : Fin K) {e : Edit} (hfits : EditFits s e) :
    ∃ command op, effectCmd (e.effect k) = some (command : Cmd K C) ∧
      keyOp? command = some (k, op) ∧
      (op.edits cfg now s).foldl (fun s e ↦ e.slot s) s = e.slot s := by
  have helapsed : ∀ time, KeyOp.elapsed cfg now time = false := by
    intro time
    simp [KeyOp.elapsed, hrole]
  cases e with
  | delete =>
    have hpresent : s.present = true := hfits
    refine ⟨_, .del, rfl, rfl, ?_⟩
    rw [foldl_edits, slotAfterLookup_of_fromMaster hlink]
    simp only [KeyOp.write?, sees_of_fromMaster hlink, hpresent, if_true]
  | put val expireAt =>
    refine ⟨_, .set val .always (if expireAt = noExpire then .none else .pxAt expireAt) false, rfl,
      rfl, ?_⟩
    rw [foldl_edits, slotAfterLookup_of_fromMaster hlink]
    simp only [KeyOp.write?, setAllowed, if_true]
    by_cases hnone : expireAt = noExpire
    · simp only [hnone, if_true, KeyOp.ttlElapsed, Bool.false_eq_true, if_false, installedExpire]
    · simp only [hnone, if_false, KeyOp.ttlElapsed, helapsed, Bool.false_eq_true, installedExpire]
  | retime time =>
    have hpresent : s.present = true := hfits
    refine ⟨_, .expire time .none, rfl, rfl, ?_⟩
    rw [foldl_edits, slotAfterLookup_of_fromMaster hlink]
    simp only [KeyOp.write?, sees_of_fromMaster hlink, helapsed, hpresent, expireCondFails,
      Bool.not_false, Bool.and_self, Bool.false_eq_true, if_true, if_false]
  | persist =>
    have hpresent : s.present = true := hfits
    refine ⟨_, .persist, rfl, rfl, ?_⟩
    rw [foldl_edits, slotAfterLookup_of_fromMaster hlink]
    simp only [KeyOp.write?, sees_of_fromMaster hlink, hpresent, Bool.true_and]
    cases httl : s.hasTtl with
    | true => rfl
    | false =>
      have htime : s.expireAt = noExpire := by simpa [Slot.hasTtl] using httl
      show s = { s with expireAt := noExpire }
      rw [← htime]

section Worlds

variable {w : World K C}

theorem applyEffect_edit (link : Fin C) (hrole : w.role = .readOnlyReplica) {k : Fin K} {e : Edit}
    (hfits : EditFits (w.slots k) e) :
    (applyEffect link w (e.effect k)).role = .readOnlyReplica ∧
      (applyEffect link w (e.effect k)).slots =
        Function.update w.slots k (e.slot (w.slots k)) := by
  have hlink : (config { w with caller := .masterLink }).fromMaster = true := by
    simp [Config.fromMaster, hrole]
  obtain ⟨command, op, hcmd, hop, hslot⟩ := slot_of_link C hlink hrole w.clock k hfits
  have hworld : applyEffect link w (e.effect k) = applyEdits { w with caller := .masterLink }
      (opEdits { w with caller := .masterLink } k op) := by
    unfold applyEffect
    rw [hcmd]
    simp only
    rw [execCmd_eq_outcome _ link hop]
  rw [hworld]
  constructor
  · exact (congrArg Config.role (applyEdits_config _ _)).trans hrole
  · ext k' : 1
    rw [applyEdits_slots, editsOn_opEdits]
    by_cases hk : k = k'
    · subst hk
      rw [if_pos rfl, Function.update_self]
      exact hslot
    · rw [if_neg hk, Function.update_of_ne (Ne.symm hk)]
      rfl

/-- Applying a fitting effect on a read-only replica changes the slots as the effect says. -/
theorem applyEffect_spec (link : Fin C) (hrole : w.role = .readOnlyReplica) {e : Effect K}
    (hfits : Fits w.slots e) :
    (applyEffect link w e).role = .readOnlyReplica ∧
      (applyEffect link w e).slots = replay w.slots e := by
  cases e with
  | multi => exact ⟨hrole, rfl⟩
  | exec => exact ⟨hrole, rfl⟩
  | set k val pxat => exact applyEffect_edit link hrole (e := .put val pxat) trivial
  | del k => exact applyEffect_edit link hrole (e := .delete) hfits
  | pExpireAt k time => exact applyEffect_edit link hrole (e := .retime time) hfits
  | persist k => exact applyEffect_edit link hrole (e := .persist) hfits

/-- A read on a replica changes nothing. -/
theorem stepEdits_read {w : World K C} (hrole : w.role = .readOnlyReplica) (c : Fin C)
    {command : Cmd K C} (hread : isRead command = true) : stepEdits w (.cmd c command) = [] := by
  cases hop : keyOp? command with
  | none => exact stepEdits_of_keyless w c hop
  | some target =>
    obtain ⟨k, op⟩ := target
    have hwrites := not_writes_of_isRead hread hop
    have hpurges : (config w).purges op.writes w.clock (w.slots k) = false := by
      simp [Config.purges, hrole, hwrites]
    rw [stepEdits_of_keyOp w c hop]
    unfold opEdits KeyOp.edits
    rw [hpurges, KeyOp.write?_of_not_writes hwrites]
    rfl

/-- The steps of a read-only replica do not change its slots. -/
theorem replicaNext_spec (hrole : w.role = .readOnlyReplica) (s : ReplicaStep K C) :
    (replicaNext w s).role = .readOnlyReplica ∧ (replicaNext w s).slots = w.slots := by
  obtain ⟨s, hown⟩ := s
  have hnone : stepEdits { w with caller := .normal } s = [] := by
    cases s with
    | clockTick d => rfl
    | activeExpire => exact if_pos (by simp [hrole])
    | cmd c command => exact stepEdits_read (w := { w with caller := .normal }) hrole c hown
  constructor
  · exact (congrArg Config.role (next_config _ s)).trans hrole
  · ext k : 1
    unfold replicaNext
    rw [next_slots, hnone]
    rfl

end Worlds

end Replica

/-! ### The master -/

/-- The log of a drained master holds what the step emits. -/
theorem entries_next {w : World K C} (hdrained : w.repl = ReplLog.new) (s : Step K C) :
    (w.next s).repl.entries = emitted w s := by
  have hsame : { w with repl := ReplLog.new } = w := by rw [← hdrained]
  rw [emitted, hsame]

/-- The two parties owe each other what log shipping asks for. -/
theorem parties_faithful (hK : K ≤ replCap) (link : Fin C) :
    (parties link).Faithful replay Fits World.slots World.slots
      (fun w : World K C ↦ w.repl = ReplLog.new) (fun w ↦ w.role = .readOnlyReplica) where
  kept := fun _ _ _ ↦ rfl
  emitted := by
    intro w s hdrained
    show Admissible replay Fits w.slots (w.next s).repl.entries ∧
      run replay w.slots (w.next s).repl.entries = (w.next s).slots
    rw [entries_next hdrained]
    exact emitted_replays hK w s
  applied := fun _ _ hrole hfits ↦ applyEffect_spec link hrole hfits
  owned := fun _ s hrole ↦ replicaNext_spec hrole s

/-- A master after a schedule, drained after every step. -/
abbrev runMaster (w : World K C) (schedule : List (Step K C)) : World K C :=
  run (fun w s ↦ drain (w.next s)) w schedule

/-- The step drops no effect: the log holds the effect of every edit that the step applies, and as
many as the dirty counter counts. -/
def DropsNothing (w : World K C) (s : Step K C) : Prop :=
  (w.next s).repl.entries = (stepEdits w s).map (fun edit ↦ edit.2.effect edit.1) ∧
    ((∀ d, s ≠ .clockTick d) → (w.next s).dirty = (w.next s).repl.entries.length)

/-- A drained master between its steps. -/
structure Idle (w : World K C) : Prop where
  drained : w.repl = ReplLog.new
  outermost : w.nesting = 0

theorem Idle.run {w : World K C} (hw : Idle w) (schedule : List (Step K C)) :
    Idle (runMaster w schedule) := by
  have hstep : ∀ (w' : World K C) (s : Step K C), Idle w' → Idle (drain (w'.next s)) :=
    fun w' s hw' ↦ ⟨rfl, (next_nesting w' s).trans hw'.outermost⟩
  exact run_preserves Idle hstep schedule hw

theorem Idle.dropsNothing {w : World K C} (hw : Idle w) (hK : K ≤ replCap) (s : Step K C) :
    DropsNothing w s := by
  have hentries := (entries_next hw.drained s).trans (emitted_eq w s hK)
  refine ⟨hentries, fun htick ↦ ?_⟩
  rw [hentries, List.length_map]
  exact next_dirty hw.outermost htick

/-! ### The refinement -/

/-- Take any configuration of the master, any read-only replica without keys, and any interleaving
of the two. No step of the master drops an effect. When the replica has applied all effects it has
the slots of the master, and when it has applied those of a prefix of the master's steps it has the
slots that the master had after that prefix. Delivering what is in flight gets it there. -/
theorem replication_refines (cfg : Config) (t : Ms) (replica : World keyCount clientCount)
    (link : Fin clientCount) (hrole : replica.role = .readOnlyReplica)
    (habsent : ∀ k, replica.slots k = Slot.absent)
    (actions : List (Action (Step keyCount clientCount) (ReplicaStep keyCount clientCount))) :
    let final := run (parties link).next ⟨emptyWith cfg t, [], replica⟩ actions
    (∀ before s after, primaryLabels actions = before ++ s :: after →
      DropsNothing (runMaster (emptyWith cfg t) before) s) ∧
    (final.channel = [] → final.follower.slots = final.primary.slots) ∧
    (∀ before after, primaryLabels actions = before ++ after →
      final.channel = (parties link).emissions (runMaster (emptyWith cfg t) before) after →
      final.follower.slots = (runMaster (emptyWith cfg t) before).slots) ∧
    (run (parties link).next final (List.replicate final.channel.length .deliver)).follower.slots =
      final.primary.slots := by
  intro final
  have hidle : Idle (emptyWith cfg t : World keyCount clientCount) := ⟨rfl, rfl⟩
  have hviews : replica.slots = (emptyWith cfg t : World keyCount clientCount).slots :=
    funext habsent
  have hparties := parties_faithful (K := keyCount) (by decide) link
  refine ⟨fun before s after _ ↦ (hidle.run before).dropsNothing (by decide) s, fun hempty ↦ ?_,
    fun before after hsteps hpending ↦ ?_, ?_⟩
  · show final.follower.slots = final.primary.slots
    rw [(parties link).primary_run]
    exact hparties.view_follower rfl hrole hviews (List.append_nil _).symm hempty
  · exact hparties.view_follower rfl hrole hviews hsteps hpending
  · exact hparties.converges rfl hrole hviews actions

/-- A replica whose clock is ahead of its master's. -/
def aheadReplica : World keyCount clientCount :=
  { World.empty 100 with role := .readOnlyReplica, confAllowsExpireDel := false }

/-- A master sets a key with a time and lets it expire, while the replica is read. -/
def interleaving : List (Action (Step keyCount clientCount) (ReplicaStep keyCount clientCount)) :=
  [.primary (.cmd 0 (.set 1 Str.empty .nx (.pxAt 7) false)), .deliver,
    .follower ⟨.cmd 1 (.get 1), rfl⟩, .primary (.clockTick 7), .primary .activeExpire,
    .primary (.cmd 1 (.set 2 Str.empty .always .none true)), .follower ⟨.activeExpire, rfl⟩,
    .deliver, .deliver]

theorem replication_refines_ahead :
    (run (parties 0).next ⟨emptyWith ⟨.master, .normal, false, false, true, false⟩ 0, [],
        aheadReplica⟩ interleaving).follower.slots =
      (run (parties 0).next ⟨emptyWith ⟨.master, .normal, false, false, true, false⟩ 0, [],
        aheadReplica⟩ interleaving).primary.slots :=
  (replication_refines ⟨.master, .normal, false, false, true, false⟩ 0 aheadReplica 0 rfl
    (fun _ ↦ rfl) interleaving).2.1 (by decide)

end RedisCvlr.Replication
