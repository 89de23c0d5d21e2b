import RedisCvlr.Keyspace.Logical
import RedisCvlr.Library.Stutter

/-!
# The physical keyspace is unobservable

Two worlds that show their clients the same keyspace may hold different expired slots: one has
deleted them, the other has not. `Agree` is agreement on the configuration, the clock and the
snapshot. It is a bisimulation for every reply but that of DBSIZE, and it absorbs read commands, and
the active cycle when no present key is at the instant in which the lazy test still shows it and the
active test already removes it.
-/

set_option autoImplicit false
set_option relaxedAutoImplicit false

namespace RedisCvlr.Visibility

open RedisCvlr.Library RedisCvlr.Library.Machine RedisCvlr.Model RedisCvlr.Keyspace

variable {K C : ℕ}

/-! ### Agreement -/

/-- Two worlds with the same configuration, time and visible keyspace. -/
structure Agree (w w' : World K C) : Prop where
  config : config w = config w'
  clock : w.clock = w'.clock
  snapshot : ∀ k, w.snapshotVisible k = w'.snapshotVisible k

/-- What a client learns from a step: its reply, unless it is that of DBSIZE, and the snapshot after
it. -/
def observation (w : World K C) (s : Step K C) :
    Option (Reply K) × (Fin K → Option (VType × Str × Ms)) :=
  (observedReply w s, (w.next s).snapshotVisible)

/-- A step that clients do not notice: a read command, or the active cycle when no present key is
due at this very instant. -/
def Unnoticed (w : World K C) : Step K C → Prop
  | .cmd _ command => isRead command = true
  | .activeExpire => ∀ k, (w.slots k).present = true → (w.slots k).expireAt ≠ w.clock
  | .clockTick _ => False

instance (w : World K C) : ∀ s, Decidable (Unnoticed w s)
  | .cmd _ command => inferInstanceAs (Decidable (isRead command = true))
  | .activeExpire => inferInstanceAs (Decidable (∀ _, _ → _))
  | .clockTick _ => inferInstanceAs (Decidable False)

/-! ### Agreement as equality of logical stores -/

section Agreement

variable {w w' : World K C}

/-- Agreement is equality of the logical stores. -/
theorem agree_iff (hhides : (Keyspace.config w).hides = true) :
    Agree w w' ↔ Keyspace.config w = Keyspace.config w' ∧ logical w = logical w' := by
  constructor
  · intro hagree
    have hhides' : (Keyspace.config w').hides = true := hagree.config ▸ hhides
    refine ⟨hagree.config, ?_⟩
    ext k : 2
    · exact hagree.clock
    · apply Option.map_injective Entry.snapshot_injective
      rw [← snapshotVisible_eq hhides, ← snapshotVisible_eq hhides']
      exact hagree.snapshot k
  · rintro ⟨hconfig, hlogical⟩
    have hhides' : (Keyspace.config w').hides = true := hconfig ▸ hhides
    refine ⟨hconfig, congrArg Store.clock hlogical, fun k ↦ ?_⟩
    rw [snapshotVisible_eq hhides, snapshotVisible_eq hhides', hlogical]

/-- A common step keeps the agreement and shows the same in both worlds. -/
theorem Agree.next (hhides : (Keyspace.config w).hides = true) (hagree : Agree w w')
    {s : Step K C} (hadmits' : Admits w' s) :
    observation w' s = observation w s ∧ Agree (w.next s) (w'.next s) := by
  obtain ⟨hconfig, hlogical⟩ := (agree_iff hhides).mp hagree
  have hhides' : (Keyspace.config w').hides = true := hconfig ▸ hhides
  have hadmits : Admits w s := by
    cases s with
    | clockTick d =>
      show 0 ≤ d ∧ IsI64 (w.clock + d)
      rw [hagree.clock]
      exact hadmits'
    | cmd c command => trivial
    | activeExpire => trivial
  have hnext : Agree (w.next s) (w'.next s) := by
    rw [agree_iff (by rw [next_config]; exact hhides), next_config, next_config,
      logical_next hhides hadmits, logical_next hhides' hadmits', hlogical, hconfig]
    exact ⟨rfl, rfl⟩
  refine ⟨?_, hnext⟩
  unfold observation
  rw [observedReply_eq hhides, observedReply_eq hhides', hlogical, funext hnext.snapshot]

/-- A read leaves the logical store alone. -/
theorem entryNext_read (cfg : Config) (now : Ms) (k : Fin K) (old : Option Entry) (c : Fin C)
    {command : Cmd K C} (hread : isRead command = true) :
    Store.entryNext cfg now k old (.cmd c command) = old := by
  unfold Store.entryNext
  cases hop : keyOp? command with
  | none => simp only [hop]
  | some target =>
    obtain ⟨k', op⟩ := target
    simp only [hop]
    rw [KeyOp.entryAfter_of_not_writes (not_writes_of_isRead hread hop), ite_self]

/-- An entry that is seen is due only at the instant of its time. -/
theorem due_eq_false {e : Entry} {now : Ms} (hseen : e.gone now = false)
    (hnow : e.expireAt ≠ now) : e.due now = false := by
  simp only [Entry.gone, Entry.due, Bool.and_eq_false_iff, decide_eq_false_iff_not] at hseen ⊢
  apply hseen.imp_right
  intro hnot hge
  exact hnot (lt_of_le_of_ne hge hnow)

/-- The active cycle leaves the entries alone when no present key is at the instant of its time. -/
theorem entryNext_activeExpire (hhides : (Keyspace.config w).hides = true)
    (hnow : ∀ k, (w.slots k).present = true → (w.slots k).expireAt ≠ w.clock) (k : Fin K) :
    Store.entryNext (Keyspace.config w) w.clock k ((logical w).entries k)
      (.activeExpire : Step K C) = (logical w).entries k := by
  unfold Store.entryNext
  cases (Keyspace.config w).sweeps with
  | false => rfl
  | true =>
    rw [if_pos rfl]
    cases hold : (logical w).entries k with
    | none => rfl
    | some e =>
      obtain ⟨hpresent, rfl, hseen⟩ := (entry_eq_some hhides).mp hold
      apply Option.filter_some_pos
      rw [due_eq_false hseen (hnow k hpresent)]
      rfl

/-- An unnoticed step of the second world keeps the agreement. -/
theorem Agree.next_unnoticed (hhides : (Keyspace.config w).hides = true) (hagree : Agree w w')
    {s : Step K C} (hunnoticed : Unnoticed w' s) : Agree w (w'.next s) := by
  obtain ⟨hconfig, hlogical⟩ := (agree_iff hhides).mp hagree
  have hhides' : (Keyspace.config w').hides = true := hconfig ▸ hhides
  rw [agree_iff hhides, next_config]
  refine ⟨hconfig, hlogical.trans ?_⟩
  cases s with
  | clockTick d => exact hunnoticed.elim
  | cmd c command =>
    rw [logical_next hhides' (by trivial)]
    ext k : 2
    · rfl
    · exact (entryNext_read _ _ k _ c hunnoticed).symm
  | activeExpire =>
    rw [logical_next hhides' (by trivial)]
    ext k : 2
    · rfl
    · exact (entryNext_activeExpire hhides' hunnoticed k).symm

end Agreement

/-! ### The bisimulation over whole runs -/

/-- Physical presence of expired keys is unobservable. Two worlds that agree, of which the second
takes extra reads and extra active cycles, show the same at every common step and end in agreement.
With one world as both, these are two schedules from one start; without extra steps, these are the
same steps from two starts. -/
theorem presence_unobservable (w w' : World K C) (hhides : (config w).hides = true)
    (hagree : Agree w w') (marks : List (Mark (Step K C))) (hruns : Runs w' (allLabels marks))
    (hextra : ExtrasHidden World.next Unnoticed w' marks) :
    observeCommon World.next observation w' marks =
        observe World.next observation w (commonLabels marks) ∧
      Agree (runSchedule w (commonLabels marks)) (runSchedule w' (allLabels marks)) := by
  have hcommon : ∀ (v v' : World K C) (s : Step K C), Admits v' s →
      Agree v v' ∧ (config v).hides = true → observation v' s = observation v s ∧
        Agree (v.next s) (v'.next s) ∧ (config (v.next s)).hides = true := by
    intro v v' s hadmits ⟨hvv, hv⟩
    obtain ⟨hout, hnext⟩ := hvv.next hv hadmits
    exact ⟨hout, hnext, (next_config v s).symm ▸ hv⟩
  have hunnoticed : ∀ (v v' : World K C) (s : Step K C), Unnoticed v' s →
      Agree v v' ∧ (config v).hides = true → Agree v (v'.next s) ∧ (config v).hides = true :=
    fun v v' s hs hrelated ↦ ⟨hrelated.1.next_unnoticed hrelated.2 hs, hrelated.2⟩
  obtain ⟨hsame, hend, -⟩ :=
    observe_extra (fun v v' ↦ Agree v v' ∧ (config v).hides = true) hcommon hunnoticed
      ⟨hagree, hhides⟩ hruns hextra
  exact ⟨hsame, hend⟩

/-- A world that still holds a key that expired at time 3. -/
def staleAt (clock : Ms) : World keyCount clientCount :=
  (World.empty clock).setSlot 0 ⟨true, .str Str.empty, 3⟩

/-- A schedule with extra reads and an extra active cycle. -/
def markedSchedule : List (Mark (Step keyCount clientCount)) :=
  [.extra (.cmd 0 (.get 0)), .common (.cmd 1 (.set 0 Str.empty .nx .keep true)),
    .extra .activeExpire, .common (.clockTick 2), .extra (.cmd 0 .dbSize),
    .common (.cmd 1 (.pttl 0))]

theorem presence_unobservable_stale :
    observeCommon World.next observation (staleAt 5) markedSchedule =
        observe World.next observation (World.empty 5) (commonLabels markedSchedule) ∧
      Agree (runSchedule (World.empty 5) (commonLabels markedSchedule))
        (runSchedule (staleAt 5) (allLabels markedSchedule)) :=
  presence_unobservable (World.empty 5) (staleAt 5) (by decide)
    ⟨by decide, by decide, by decide⟩ markedSchedule (by decide)
    ⟨by decide, by decide, by decide, trivial⟩

end RedisCvlr.Visibility
