import RedisCvlr.Keyspace.Logical
import RedisCvlr.Library.Projection

/-!
# One key is enough

The model has a bounded number of keys, and what is proved about it for three keys is, on its face,
about three keys. But the keys do not interact: at any one key a world shows what the world of that
key alone shows, under the steps that concern the key (`one_key_shows_all`). So a property of the
slot of a key holds in every reachable world of any number of keys as soon as it holds in those of a
single key (`one_key_cutoff`).
-/

set_option autoImplicit false
set_option relaxedAutoImplicit false

namespace RedisCvlr.Cutoff

open RedisCvlr.Library RedisCvlr.Model RedisCvlr.Watch RedisCvlr.Keyspace

variable {K C : ℕ}

/-! ### The projection to a key -/

/-- A command as the world of one key has it, if it concerns the key. -/
def projectCmd (k : Fin K) : Cmd K C → Option (Cmd 1 C)
  | .set key val cond ttl get => if key = k then some (.set 0 val cond ttl get) else none
  | .get key => if key = k then some (.get 0) else none
  | .del key => if key = k then some (.del 0) else none
  | .existsKey key => if key = k then some (.existsKey 0) else none
  | .type key => if key = k then some (.type 0) else none
  | .expire key time cond => if key = k then some (.expire 0 time cond) else none
  | .persist key => if key = k then some (.persist 0) else none
  | .pttl key => if key = k then some (.pttl 0) else none
  | .keys => some .keys
  | .dbSize => some .dbSize
  | .watch client key => if key = k then some (.watch client 0) else none
  | .unwatch client => some (.unwatch client)

/-- A step as the world of one key has it, if it concerns the key. -/
def projectStep (k : Fin K) : Step K C → Option (Step 1 C)
  | .cmd c command => (projectCmd k command).map (.cmd c)
  | .activeExpire => some .activeExpire
  | .clockTick d => some (.clockTick d)

/-- A command of the world of one key at a key of another world. -/
def liftCmd (k : Fin K) : Cmd 1 C → Cmd K C
  | .set _ val cond ttl get => .set k val cond ttl get
  | .get _ => .get k
  | .del _ => .del k
  | .existsKey _ => .existsKey k
  | .type _ => .type k
  | .expire _ time cond => .expire k time cond
  | .persist _ => .persist k
  | .pttl _ => .pttl k
  | .keys => .keys
  | .dbSize => .dbSize
  | .watch client _ => .watch client k
  | .unwatch client => .unwatch client

/-- A step of the world of one key at a key of another world. -/
def liftStep (k : Fin K) : Step 1 C → Step K C
  | .cmd c command => .cmd c (liftCmd k command)
  | .activeExpire => .activeExpire
  | .clockTick d => .clockTick d

/-- What a reply says about a key. -/
def replyAt (k : Fin K) : Reply K → Reply 1
  | .ok => .ok
  | .nil => .nil
  | .int n => .int n
  | .str s => .str s
  | .keySet set => .keySet fun _ ↦ set k
  | .type t => .type t
  | .noType => .noType
  | .error => .error

/-- The world of one key has the slot that a world has at a key, its configuration and its clock. -/
structure AtKey (k : Fin K) (w : World K C) (w₁ : World 1 C) : Prop where
  slot_eq : w₁.slots 0 = w.slots k
  config_eq : config w₁ = config w
  clock_eq : w₁.clock = w.clock

/-! ### Operations and effects at a key -/

section Pieces

variable {k : Fin K} {command : Cmd K C} {command' : Cmd 1 C}

theorem projectStep_liftStep (k : Fin K) (s : Step 1 C) :
    projectStep k (liftStep k s) = some s := by
  cases s with
  | cmd c command =>
    cases command <;>
      simp [liftStep, liftCmd, projectStep, projectCmd, eq_iff_true_of_subsingleton]
  | activeExpire => rfl
  | clockTick d => rfl

/-- The commands that concern a key: an operation on it, or a command about all keys or watches. -/
theorem projectCmd_eq_some (h : projectCmd k command = some command') :
    (∃ op, keyOp? command = some (k, op) ∧ keyOp? command' = some (0, op)) ∨
      (keyOp? command = none ∧ keyOp? command' = none ∧
        ((command = .keys ∧ command' = .keys) ∨ (command = .dbSize ∧ command' = .dbSize) ∨
          (∃ client, command = .watch client k ∧ command' = .watch client 0) ∨
          ∃ client, command = .unwatch client ∧ command' = .unwatch client)) := by
  cases command <;> simp only [projectCmd, Option.ite_none_right_eq_some, Option.some.injEq] at h
  case keys =>
    subst h
    exact .inr ⟨rfl, rfl, .inl ⟨rfl, rfl⟩⟩
  case dbSize =>
    subst h
    exact .inr ⟨rfl, rfl, .inr (.inl ⟨rfl, rfl⟩)⟩
  case watch client key =>
    obtain ⟨rfl, rfl⟩ := h
    exact .inr ⟨rfl, rfl, .inr (.inr (.inl ⟨client, rfl, rfl⟩))⟩
  case unwatch client =>
    subst h
    exact .inr ⟨rfl, rfl, .inr (.inr (.inr ⟨client, rfl, rfl⟩))⟩
  all_goals
    obtain ⟨rfl, rfl⟩ := h
    exact .inl ⟨_, rfl, rfl⟩

/-- The commands that do not concern a key: an operation on another one, or a watch of it. -/
theorem projectCmd_eq_none (h : projectCmd k command = none) :
    (∃ k' op, k' ≠ k ∧ keyOp? command = some (k', op)) ∨ keyOp? command = none := by
  cases command <;> simp only [projectCmd, reduceCtorEq] at h
  case watch client key => exact .inr rfl
  all_goals
    split_ifs at h with hkey
    exact .inl ⟨_, _, hkey, rfl⟩

/-- What an operation replies does not name a key. -/
theorem replyAt_reply (k : Fin K) (op : KeyOp) (cfg : Config) (now : Ms) (s : Slot) :
    replyAt k (op.reply cfg now s : Reply K) = op.reply cfg now s := by
  have hvalue : ∀ value : Option Value,
      replyAt k (oldValueReply value : Reply K) = oldValueReply value := by
    rintro (_ | ⟨⟨s⟩⟩) <;> rfl
  cases op with
  | set val cond ttl getOld =>
    simp only [KeyOp.reply]
    split_ifs
    · exact hvalue _
    · exact hvalue _
    · rfl
    · rfl
  | get => exact hvalue _
  | type =>
    simp only [KeyOp.reply]
    split_ifs <;> rfl
  | del => rfl
  | existsKey => rfl
  | expire time cond => rfl
  | persist => rfl
  | pttl => rfl

theorem observedReply_of_keyOp (w : World K C) (c : Fin C) {op : KeyOp}
    (hop : keyOp? command = some (k, op)) :
    observedReply w (.cmd c command) = some (op.reply (config w) w.clock (w.slots k)) := by
  have hstep : observedReply w (.cmd c command) = (step w (.cmd c command)).2 := by
    cases command <;> first | rfl | simp [keyOp?] at hop
  rw [hstep, step_of_keyOp w c hop]

end Pieces

/-! ### Steps at a key -/

section Steps

variable {k : Fin K} {w : World K C} {w₁ : World 1 C} {s : Step K C} {s₁ : Step 1 C}

/-- A step that concerns a key makes the edits of its projection there. -/
theorem AtKey.editsOn_eq (h : AtKey k w w₁) (hstep : projectStep k s = some s₁) :
    editsOn 0 (stepEdits w₁ s₁) = editsOn k (stepEdits w s) := by
  cases s with
  | clockTick d =>
    obtain rfl := Option.some.inj hstep
    rfl
  | activeExpire =>
    obtain rfl := Option.some.inj hstep
    have hrole : w₁.role = w.role := congrArg Config.role h.config_eq
    have hpaused : w₁.expirePaused = w.expirePaused := congrArg Config.expirePaused h.config_eq
    have hdue : isDue w₁ 0 = isDue w k := by
      rw [isDue_eq, isDue_eq, h.slot_eq, h.clock_eq]
    rw [stepEdits, stepEdits, editsOn_activeEdits, editsOn_activeEdits, hrole, hpaused, hdue]
  | cmd c command =>
    obtain ⟨command', hcommand, rfl⟩ := Option.map_eq_some_iff.mp hstep
    rcases projectCmd_eq_some hcommand with ⟨op, hop, hop'⟩ | ⟨hnone, hnone', -⟩
    · rw [stepEdits_of_keyOp w c hop, stepEdits_of_keyOp w₁ c hop', editsOn_opEdits,
        editsOn_opEdits, if_pos rfl, if_pos rfl, h.config_eq, h.clock_eq, h.slot_eq]
    · rw [stepEdits_of_keyless w c hnone, stepEdits_of_keyless w₁ c hnone']
      rfl

/-- A step that does not concern a key makes no edit there. -/
theorem editsOn_dropped (hstep : projectStep k s = none) : editsOn k (stepEdits w s) = [] := by
  cases s with
  | clockTick d => exact absurd hstep (by simp [projectStep])
  | activeExpire => exact absurd hstep (by simp [projectStep])
  | cmd c command =>
    rcases projectCmd_eq_none (Option.map_eq_none_iff.mp hstep) with ⟨k', op, hne, hop⟩ | hnone
    · rw [stepEdits_of_keyOp w c hop, editsOn_opEdits, if_neg hne]
    · rw [stepEdits_of_keyless w c hnone]
      rfl

/-- What a step that concerns a key replies about it is the reply to its projection. -/
theorem AtKey.reply_eq (h : AtKey k w w₁) (hstep : projectStep k s = some s₁) :
    (observedReply w s).map (replyAt k) = (observedReply w₁ s₁).map (replyAt 0) := by
  cases s with
  | clockTick d =>
    obtain rfl := Option.some.inj hstep
    rfl
  | activeExpire =>
    obtain rfl := Option.some.inj hstep
    rfl
  | cmd c command =>
    obtain ⟨command', hcommand, rfl⟩ := Option.map_eq_some_iff.mp hstep
    rcases projectCmd_eq_some hcommand with ⟨op, hop, hop'⟩ | ⟨-, -, hkeyless⟩
    · rw [observedReply_of_keyOp w c hop, observedReply_of_keyOp w₁ c hop', Option.map_some,
        Option.map_some, replyAt_reply, replyAt_reply, h.config_eq, h.clock_eq, h.slot_eq]
    · obtain ⟨rfl, rfl⟩ | ⟨rfl, rfl⟩ | ⟨client, rfl, rfl⟩ | ⟨client, rfl, rfl⟩ := hkeyless
      · have hseen : ((w₁.slots 0).present && !keyIsExpired w₁ 0) =
            ((w.slots k).present && !keyIsExpired w k) := by
          rw [keyIsExpired_eq, keyIsExpired_eq, h.config_eq, h.clock_eq, h.slot_eq]
        simp only [observedReply, step_reply, execCmd, cmdKeys, Option.map_some, replyAt, hseen]
      · rfl
      · rfl
      · rfl

theorem AtKey.next (h : AtKey k w w₁) (hstep : projectStep k s = some s₁) :
    AtKey k (w.next s) (w₁.next s₁) where
  slot_eq := by rw [next_slots, next_slots, h.editsOn_eq hstep, h.slot_eq]
  config_eq := by rw [next_config, next_config, h.config_eq]
  clock_eq := by
    rw [next_clock, next_clock]
    cases s with
    | clockTick d =>
      obtain rfl := Option.some.inj hstep
      exact congrArg (fun now ↦ wrapI64 (now + d)) h.clock_eq
    | activeExpire =>
      obtain rfl := Option.some.inj hstep
      exact h.clock_eq
    | cmd c command =>
      obtain ⟨command', -, rfl⟩ := Option.map_eq_some_iff.mp hstep
      exact h.clock_eq

theorem AtKey.next_dropped (h : AtKey k w w₁) (hstep : projectStep k s = none) :
    AtKey k (w.next s) w₁ where
  slot_eq := by
    rw [next_slots, editsOn_dropped hstep, h.slot_eq]
    rfl
  config_eq := by rw [next_config, h.config_eq]
  clock_eq := by
    rw [next_clock]
    cases s with
    | clockTick d => exact absurd hstep (by simp [projectStep])
    | activeExpire => exact h.clock_eq
    | cmd c command => exact h.clock_eq

/-- The model of any number of keys is projected to the model of one. -/
theorem projects_slot (k : Fin K) :
    Machine.Projects (World.next (K := K) (C := C)) (fun _ _ ↦ ()) Admits World.next
      (fun _ _ ↦ ()) Admits (projectStep k) (AtKey k) where
  kept hstep _ h := ⟨rfl, h.next hstep⟩
  dropped hstep _ h := h.next_dropped hstep
  admits {s t label label'} hstep h := by
    cases label with
    | clockTick d =>
      obtain rfl := Option.some.inj hstep
      rw [Admits, Admits, h.clock_eq]
    | activeExpire =>
      obtain rfl := Option.some.inj hstep
      exact Iff.rfl
    | cmd c command =>
      obtain ⟨command', -, rfl⟩ := Option.map_eq_some_iff.mp hstep
      exact Iff.rfl

end Steps

/-! ### Runs at a key -/

section Runs

/-- The worlds that an admitted run reaches from the empty world of a configuration and a clock. -/
def ReachableFrom (cfg : Config) (t : Ms) : World K C → Prop :=
  Machine.Reachable World.next Admits fun w ↦ w = emptyWith cfg t

/-- A property of the configuration, the clock and the slot of a key holds at every key of every
reachable world of at least one key if and only if it holds in the reachable worlds of one. -/
theorem one_key_cutoff [NeZero K] (cfg : Config) (t : Ms)
    (P : Config → Ms → Slot → Prop) :
    (∀ w : World K C, ReachableFrom cfg t w → ∀ k, P (config w) w.clock (w.slots k)) ↔
      ∀ w₁ : World 1 C, ReachableFrom cfg t w₁ → P (config w₁) w₁.clock (w₁.slots 0) := by
  have hstart : ∀ k, AtKey k (emptyWith cfg t : World K C) (emptyWith cfg t) :=
    fun k ↦ ⟨rfl, rfl, rfl⟩
  constructor
  · rintro hall _ ⟨_, schedule, rfl, hruns, rfl⟩
    obtain ⟨hlifted, hend⟩ :=
      (projects_slot 0).lift (projectStep_liftStep 0) (hstart 0) hruns
    have hslot := hall _ ⟨_, _, rfl, hlifted, rfl⟩ 0
    rwa [hend.config_eq, hend.clock_eq, hend.slot_eq]
  · rintro hone _ ⟨_, schedule, rfl, hruns, rfl⟩ k
    obtain ⟨-, hprojected, hend⟩ := (projects_slot k).run (hstart k) hruns
    have hslot := hone _ ⟨_, _, rfl, hprojected, rfl⟩
    rwa [hend.config_eq, hend.clock_eq, hend.slot_eq] at hslot

/-- The property that an absent slot is empty, for a master. -/
theorem one_key_cutoff_absent :
    let cfg : Config := ⟨.master, .normal, false, false, false, true⟩
    let P : Config → Ms → Slot → Prop := fun _ _ s ↦ s.present = false → s = Slot.absent
    (∀ w : World keyCount clientCount, ReachableFrom cfg 0 w →
        ∀ k, P (config w) w.clock (w.slots k)) ↔
      ∀ w₁ : World 1 clientCount, ReachableFrom cfg 0 w₁ →
        P (config w₁) w₁.clock (w₁.slots 0) := by
  intro cfg P
  exact one_key_cutoff cfg 0 P

end Runs

end RedisCvlr.Cutoff
