import RedisCvlr.Cutoff.Keys
import RedisCvlr.Transactions.Flags

/-!
# One client is enough

Clients meet in the watcher lists: a flagged watcher in front of others can hide a change from them.
Under a configuration in which write lookups delete every expired key this never happens, and then a
client cannot tell what the others watch: it sees every reply, the propagated effects and its own
watches and dirty bit as if it were the only one and the WATCH and UNWATCH of the others had not
been sent (`one_client_sees_all`). So a property of the keyspace and of a client holds in every
reachable world of any number of clients as soon as it holds in those of a single client
(`one_client_cutoff`).
-/

set_option autoImplicit false
set_option relaxedAutoImplicit false

namespace RedisCvlr.Cutoff

open RedisCvlr.Library RedisCvlr.Model RedisCvlr.Watch RedisCvlr.Keyspace RedisCvlr.Transactions

variable {K C : ℕ}

/-! ### The projection to a client -/

/-- A command as the world of one client has it, unless it is a watch of another client. -/
def projectClientCmd (c : Fin C) : Cmd K C → Option (Cmd K 1)
  | .set key val cond ttl get => some (.set key val cond ttl get)
  | .get key => some (.get key)
  | .del key => some (.del key)
  | .existsKey key => some (.existsKey key)
  | .type key => some (.type key)
  | .expire key time cond => some (.expire key time cond)
  | .persist key => some (.persist key)
  | .pttl key => some (.pttl key)
  | .keys => some .keys
  | .dbSize => some .dbSize
  | .watch client key => if client = c then some (.watch ⟨0, Nat.one_pos⟩ key) else none
  | .unwatch client => if client = c then some (.unwatch ⟨0, Nat.one_pos⟩) else none

/-- A step as the world of one client has it, unless it is a watch of another client. -/
def projectClientStep (c : Fin C) : Step K C → Option (Step K 1)
  | .cmd _ command => (projectClientCmd c command).map (.cmd ⟨0, Nat.one_pos⟩)
  | .activeExpire => some .activeExpire
  | .clockTick d => some (.clockTick d)

/-- A command of the world of one client as a command of a client of another world. -/
def liftClientCmd (c : Fin C) : Cmd K 1 → Cmd K C
  | .set key val cond ttl get => .set key val cond ttl get
  | .get key => .get key
  | .del key => .del key
  | .existsKey key => .existsKey key
  | .type key => .type key
  | .expire key time cond => .expire key time cond
  | .persist key => .persist key
  | .pttl key => .pttl key
  | .keys => .keys
  | .dbSize => .dbSize
  | .watch _ key => .watch c key
  | .unwatch _ => .unwatch c

/-- A step of the world of one client as a step of a client of another world. -/
def liftClientStep (c : Fin C) : Step K 1 → Step K C
  | .cmd _ command => .cmd c (liftClientCmd c command)
  | .activeExpire => .activeExpire
  | .clockTick d => .clockTick d

/-- What a step shows to a client: its reply, the effects that it propagates, and the watches and
the dirty bit of the client after it. -/
def clientOutput (c : Fin C) (w : World K C) (s : Step K C) :
    Option (Reply K) × List (Effect K) × ClientState K :=
  ((step w s).2, emitted w s, (w.next s).clients c)

/-- The world of one client has the keyspace of a world and the state that a client has there. -/
structure AtClient (c : Fin C) (w : World K C) (w₁ : World K 1) : Prop where
  slots_eq : w₁.slots = w.slots
  config_eq : config w₁ = config w
  clock_eq : w₁.clock = w.clock
  client_eq : w₁.clients 0 = w.clients c
  purging : (config w).purging = true
  live : FlagsLive w
  live₁ : FlagsLive w₁

/-! ### Edits and clients -/

/-- A client after an edit of a key: dirtied if it watches the key without a flag, and otherwise
without its flag. -/
def noticed (client : ClientState K) (k : Fin K) : ClientState K :=
  if client.watching k && !client.watchedExpired k then dirtyBits client else clearBits client k

/-- A client after a watch of a key, which changes nothing if the client watches it already. -/
def watchingToo (client : ClientState K) (k : Fin K) (expired : Bool) : ClientState K :=
  if client.watching k then client else watchBits client k expired

section Edits

variable {w : World K C}

/-- What safe edits do to a client depends on the client only. -/
theorem clients_applyEdits {edits : List (Fin K × Edit)} (h : WatchWellFormed w)
    (hsafe : SafeEdits w edits) (c : Fin C) :
    (applyEdits w edits).clients c = (edits.map Prod.fst).foldl noticed (w.clients c) := by
  induction edits generalizing w with
  | nil => rfl
  | cons edit rest ih =>
    obtain ⟨k, e⟩ := edit
    rw [applyEdits_cons, ih (applyEdit_wellFormed h (k, e)) hsafe.2, clients_applyEdit h hsafe.1]
    rfl

/-- A watch changes the client that watches. -/
theorem clients_watchKey (h : WatchWellFormed w) (client : Fin C) (k : Fin K) (c : Fin C) :
    (watchKey w client k).clients c =
      if client = c then watchingToo (w.clients c) k ((w.slots k).present && keyIsExpired w k)
      else w.clients c := by
  cases hwatching : (w.clients client).watching k with
  | true =>
    rw [watchKey, if_pos hwatching]
    split_ifs with hc
    · subst hc
      rw [watchingToo, if_pos hwatching]
    · rfl
  | false =>
    rw [watchKey_eq h hwatching]
    by_cases hc : client = c
    · subst hc
      rw [if_pos rfl, watchingToo, if_neg (by simp [hwatching])]
      exact Function.update_self ..
    · rw [if_neg hc]
      exact Function.update_of_ne (Ne.symm hc) ..

/-- A step that is no watch and no unwatch. -/
def Watchless (s : Step K C) : Prop :=
  (∀ c client k, s ≠ .cmd c (.watch client k)) ∧ ∀ c client, s ≠ .cmd c (.unwatch client)

/-- A client after a step that is no watch and no unwatch. -/
theorem clients_next (hlive : FlagsLive w) (hpurging : (config w).purging = true) {s : Step K C}
    (hs : Watchless s) (c : Fin C) :
    (w.next s).clients c = ((stepEdits w s).map Prod.fst).foldl noticed (w.clients c) := by
  refine next_rule (fun w' ↦ w'.clients c = _) s (fun d hd ↦ ?_)
    (fun c' client k hwatch ↦ absurd hwatch (hs.1 c' client k))
    (fun c' client hunwatch ↦ absurd hunwatch (hs.2 c' client)) fun _ ↦ ?_
  · subst hd
    rfl
  · have hsafe : SafeEdits (freshUnit w) (stepEdits w s) :=
      safeEdits_stepEdits hlive.freshUnit hpurging s
    exact clients_applyEdits hlive.freshUnit.wellFormed hsafe c

end Edits

/-! ### Steps of a client -/

section Steps

variable {c : Fin C} {w : World K C} {w₁ : World K 1} {s : Step K C} {s₁ : Step K 1}
  {command : Cmd K C} {command' : Cmd K 1}

theorem projectClientStep_lift (c : Fin C) (s : Step K 1) :
    projectClientStep c (liftClientStep c s) = some s := by
  cases s with
  | cmd c' command =>
    have hfirst : c' = 0 := Subsingleton.elim c' 0
    subst hfirst
    cases command <;>
      simp [liftClientStep, liftClientCmd, projectClientStep, projectClientCmd,
        eq_iff_true_of_subsingleton]
  | activeExpire => rfl
  | clockTick d => rfl

/-- The commands that are no watches of other clients. -/
theorem projectClientCmd_eq_some (h : projectClientCmd c command = some command') :
    (∃ k op, keyOp? command = some (k, op) ∧ keyOp? command' = some (k, op)) ∨
      (keyOp? command = none ∧ keyOp? command' = none ∧
        ((command = .keys ∧ command' = .keys) ∨ (command = .dbSize ∧ command' = .dbSize) ∨
          (∃ k, command = .watch c k ∧ command' = .watch 0 k) ∨
          (command = .unwatch c ∧ command' = .unwatch 0))) := by
  cases command <;>
    simp only [projectClientCmd, Option.ite_none_right_eq_some, Option.some.injEq] at h
  case keys =>
    subst h
    exact .inr ⟨rfl, rfl, .inl ⟨rfl, rfl⟩⟩
  case dbSize =>
    subst h
    exact .inr ⟨rfl, rfl, .inr (.inl ⟨rfl, rfl⟩)⟩
  case watch client key =>
    obtain ⟨rfl, rfl⟩ := h
    exact .inr ⟨rfl, rfl, .inr (.inr (.inl ⟨key, rfl, rfl⟩))⟩
  case unwatch client =>
    obtain ⟨rfl, rfl⟩ := h
    exact .inr ⟨rfl, rfl, .inr (.inr (.inr ⟨rfl, rfl⟩))⟩
  all_goals
    subst h
    exact .inl ⟨_, _, rfl, rfl⟩

/-- The commands that are dropped are the watches and unwatches of other clients. -/
theorem projectClientCmd_eq_none (h : projectClientCmd c command = none) :
    ∃ client, client ≠ c ∧ ((∃ k, command = .watch client k) ∨ command = .unwatch client) := by
  cases command <;> simp only [projectClientCmd, reduceCtorEq] at h
  case watch client key =>
    split_ifs at h with hc
    exact ⟨client, hc, .inl ⟨key, rfl⟩⟩
  case unwatch client =>
    split_ifs at h with hc
    exact ⟨client, hc, .inr rfl⟩

theorem AtClient.purging₁ (h : AtClient c w w₁) : (config w₁).purging = true := by
  rw [h.config_eq, h.purging]

theorem watchless_of_keyOp {C : ℕ} {c : Fin C} {command : Cmd K C} {k : Fin K} {op : KeyOp}
    (hop : keyOp? command = some (k, op)) : Watchless (.cmd c command) := by
  constructor
  · rintro c' client k' hs
    obtain ⟨rfl, rfl⟩ := Step.cmd.inj hs
    exact absurd hop (by simp [keyOp?])
  · rintro c' client hs
    obtain ⟨rfl, rfl⟩ := Step.cmd.inj hs
    exact absurd hop (by simp [keyOp?])

theorem AtClient.isDue_eq (h : AtClient c w w₁) (k : Fin K) : isDue w₁ k = isDue w k := by
  rw [Keyspace.isDue_eq, Keyspace.isDue_eq, h.slots_eq, h.clock_eq]

/-- A step that is kept makes the edits of its projection. -/
theorem AtClient.stepEdits_eq (h : AtClient c w w₁) (hstep : projectClientStep c s = some s₁) :
    stepEdits w₁ s₁ = stepEdits w s := by
  cases s with
  | clockTick d =>
    obtain rfl := Option.some.inj hstep
    rfl
  | activeExpire =>
    obtain rfl := Option.some.inj hstep
    have hrole : w₁.role = w.role := congrArg Config.role h.config_eq
    have hpaused : w₁.expirePaused = w.expirePaused := congrArg Config.expirePaused h.config_eq
    have hdue : isDue w₁ = isDue w := funext h.isDue_eq
    rw [stepEdits, stepEdits, activeEdits, activeEdits, hrole, hpaused, hdue]
  | cmd c' command =>
    obtain ⟨command', hcommand, rfl⟩ := Option.map_eq_some_iff.mp hstep
    rcases projectClientCmd_eq_some hcommand with ⟨k, op, hop, hop'⟩ | ⟨hnone, hnone', -⟩
    · rw [stepEdits_of_keyOp w c' hop, stepEdits_of_keyOp w₁ _ hop', opEdits, opEdits,
        h.config_eq, h.clock_eq, h.slots_eq]
    · rw [stepEdits_of_keyless w c' hnone, stepEdits_of_keyless w₁ _ hnone']

/-- A step that is kept does to the client what its projection does. -/
theorem AtClient.client_next (h : AtClient c w w₁) (hstep : projectClientStep c s = some s₁) :
    (w₁.next s₁).clients 0 = (w.next s).clients c := by
  have hedits : Watchless s → Watchless s₁ → (w₁.next s₁).clients 0 = (w.next s).clients c := by
    intro hs hs₁
    rw [clients_next h.live₁ h.purging₁ hs₁, clients_next h.live h.purging hs,
      h.stepEdits_eq hstep, h.client_eq]
  cases s with
  | clockTick d =>
    obtain rfl := Option.some.inj hstep
    exact hedits (by simp [Watchless]) (by simp [Watchless])
  | activeExpire =>
    obtain rfl := Option.some.inj hstep
    exact hedits (by simp [Watchless]) (by simp [Watchless])
  | cmd c' command =>
    obtain ⟨command', hcommand, rfl⟩ := Option.map_eq_some_iff.mp hstep
    rcases projectClientCmd_eq_some hcommand with ⟨k, op, hop, hop'⟩ | ⟨-, -, hkeyless⟩
    · exact hedits (watchless_of_keyOp hop) (watchless_of_keyOp hop')
    · obtain ⟨rfl, rfl⟩ | ⟨rfl, rfl⟩ | ⟨k, rfl, rfl⟩ | ⟨rfl, rfl⟩ := hkeyless
      · exact hedits (by simp [Watchless]) (by simp [Watchless])
      · exact hedits (by simp [Watchless]) (by simp [Watchless])
      · have hexpired : keyIsExpired w₁ k = keyIsExpired w k := by
          rw [keyIsExpired_eq, keyIsExpired_eq, h.config_eq, h.clock_eq, h.slots_eq]
        rw [next_watch, next_watch, clients_watchKey h.live₁.freshUnit.wellFormed,
          clients_watchKey h.live.freshUnit.wellFormed, if_pos rfl, if_pos rfl]
        show watchingToo (w₁.clients 0) k ((w₁.slots k).present && keyIsExpired w₁ k) =
          watchingToo (w.clients c) k ((w.slots k).present && keyIsExpired w k)
        rw [hexpired, h.slots_eq, h.client_eq]
      · rw [next_unwatch, next_unwatch, clients_unwatchAll h.live₁.freshUnit.wellFormed,
          clients_unwatchAll h.live.freshUnit.wellFormed, if_pos rfl, if_pos rfl]
        exact congrArg forgetBits h.client_eq

/-- A watch or an unwatch of another client does nothing to the client. -/
theorem AtClient.client_dropped (h : AtClient c w w₁) (hstep : projectClientStep c s = none) :
    (w.next s).clients c = w.clients c := by
  cases s with
  | clockTick d => exact absurd hstep (by simp [projectClientStep])
  | activeExpire => exact absurd hstep (by simp [projectClientStep])
  | cmd c' command =>
    obtain ⟨client, hne, ⟨k, rfl⟩ | rfl⟩ :=
      projectClientCmd_eq_none (Option.map_eq_none_iff.mp hstep)
    · rw [next_watch, clients_watchKey h.live.freshUnit.wellFormed, if_neg hne]
      rfl
    · rw [next_unwatch, clients_unwatchAll h.live.freshUnit.wellFormed, if_neg (Ne.symm hne)]
      rfl

/-- A step that is kept has the reply of its projection. -/
theorem AtClient.reply_eq (h : AtClient c w w₁) (hstep : projectClientStep c s = some s₁) :
    (step w₁ s₁).2 = (step w s).2 := by
  cases s with
  | clockTick d =>
    obtain rfl := Option.some.inj hstep
    rfl
  | activeExpire =>
    obtain rfl := Option.some.inj hstep
    rfl
  | cmd c' command =>
    obtain ⟨command', hcommand, rfl⟩ := Option.map_eq_some_iff.mp hstep
    rcases projectClientCmd_eq_some hcommand with ⟨k, op, hop, hop'⟩ | ⟨-, -, hkeyless⟩
    · rw [step_of_keyOp w c' hop, step_of_keyOp w₁ _ hop', h.config_eq, h.clock_eq, h.slots_eq]
    · rw [step_reply, step_reply]
      obtain ⟨rfl, rfl⟩ | ⟨rfl, rfl⟩ | ⟨k, rfl, rfl⟩ | ⟨rfl, rfl⟩ := hkeyless
      · have hseen : ∀ k, ((w₁.slots k).present && !keyIsExpired w₁ k) =
            ((w.slots k).present && !keyIsExpired w k) := by
          intro k
          rw [keyIsExpired_eq, keyIsExpired_eq, h.config_eq, h.clock_eq, h.slots_eq]
        simp only [execCmd, cmdKeys, hseen]
      · show some (cmdDbsize w₁) = some (cmdDbsize w)
        rw [cmdDbsize_eq, cmdDbsize_eq, h.slots_eq]
      · rfl
      · rfl

theorem AtClient.clock_next (h : AtClient c w w₁) (hstep : projectClientStep c s = some s₁) :
    (w₁.next s₁).clock = (w.next s).clock := by
  rw [next_clock, next_clock]
  cases s with
  | clockTick d =>
    obtain rfl := Option.some.inj hstep
    exact congrArg (fun now ↦ wrapI64 (now + d)) h.clock_eq
  | activeExpire =>
    obtain rfl := Option.some.inj hstep
    exact h.clock_eq
  | cmd c' command =>
    obtain ⟨command', -, rfl⟩ := Option.map_eq_some_iff.mp hstep
    exact h.clock_eq

theorem AtClient.admits_iff (h : AtClient c w w₁) (hstep : projectClientStep c s = some s₁) :
    Admits w s ↔ Admits w₁ s₁ := by
  cases s with
  | clockTick d =>
    obtain rfl := Option.some.inj hstep
    rw [Admits, Admits, h.clock_eq]
  | activeExpire =>
    obtain rfl := Option.some.inj hstep
    exact Iff.rfl
  | cmd c' command =>
    obtain ⟨command', -, rfl⟩ := Option.map_eq_some_iff.mp hstep
    exact Iff.rfl

/-- A step that is kept leads to matching worlds. -/
theorem AtClient.next (h : AtClient c w w₁) (hstep : projectClientStep c s = some s₁)
    (hadmits : Admits w s) : AtClient c (w.next s) (w₁.next s₁) where
  slots_eq := by
    funext k
    rw [next_slots, next_slots, h.stepEdits_eq hstep, h.slots_eq]
  config_eq := by rw [next_config, next_config, h.config_eq]
  clock_eq := h.clock_next hstep
  client_eq := h.client_next hstep
  purging := by rw [next_config, h.purging]
  live := h.live.next h.purging hadmits
  live₁ := h.live₁.next h.purging₁ ((h.admits_iff hstep).mp hadmits)

theorem AtClient.next_dropped (h : AtClient c w w₁) (hstep : projectClientStep c s = none)
    (hadmits : Admits w s) : AtClient c (w.next s) w₁ := by
  have hedits : stepEdits w s = [] := by
    cases s with
    | clockTick d => rfl
    | activeExpire => exact absurd hstep (by simp [projectClientStep])
    | cmd c' command =>
      obtain ⟨client, -, ⟨k, rfl⟩ | rfl⟩ :=
        projectClientCmd_eq_none (Option.map_eq_none_iff.mp hstep) <;> rfl
  refine ⟨?_, ?_, ?_, ?_, ?_, h.live.next h.purging hadmits, h.live₁⟩
  · funext k
    rw [next_slots, hedits, h.slots_eq]
    rfl
  · rw [next_config, h.config_eq]
  · rw [next_clock, h.clock_eq]
    cases s with
    | clockTick d => exact absurd hstep (by simp [projectClientStep])
    | activeExpire => rfl
    | cmd c' command => rfl
  · rw [h.client_dropped hstep, h.client_eq]
  · rw [next_config, h.purging]

/-- The model of any number of clients is projected to the model of one. -/
theorem projects_clientState (c : Fin C) :
    Machine.Projects (World.next (K := K) (C := C)) (fun _ _ ↦ ()) Admits World.next
      (fun _ _ ↦ ()) Admits (projectClientStep c) (AtClient c) where
  kept hstep hadmits h := ⟨rfl, h.next hstep hadmits⟩
  dropped hstep hadmits h := h.next_dropped hstep hadmits
  admits hstep h := h.admits_iff hstep

/-- The projection keeps what the steps show to the client. -/
theorem projects_client (hK : K ≤ replCap) (c : Fin C) :
    Machine.Projects (World.next (K := K) (C := C)) (clientOutput c) Admits World.next
      (clientOutput 0) Admits (projectClientStep c) (AtClient c) where
  kept hstep hadmits h := by
    refine ⟨?_, h.next hstep hadmits⟩
    rw [clientOutput, clientOutput, h.reply_eq hstep, h.client_next hstep, emitted_eq _ _ hK,
      emitted_eq _ _ hK, h.stepEdits_eq hstep]
  dropped := (projects_clientState c).dropped
  admits := (projects_clientState c).admits

end Steps

/-! ### Runs of a client -/

section Runs

theorem atClient_emptyWith {cfg : Config} (hpurging : cfg.purging = true) (t : Ms) (c : Fin C) :
    AtClient c (emptyWith cfg t : World K C) (emptyWith cfg t) where
  slots_eq := rfl
  config_eq := rfl
  clock_eq := rfl
  client_eq := rfl
  purging := hpurging
  live := NobodyWatches.flagsLive ⟨rfl, fun _ _ ↦ rfl, fun _ _ ↦ rfl⟩
  live₁ := NobodyWatches.flagsLive ⟨rfl, fun _ _ ↦ rfl, fun _ _ ↦ rfl⟩

/-- Under a configuration in which write lookups delete every expired key, a client sees the
replies, the effects, its own watches and its dirty bit as if it were the only client and the
watches and unwatches of the others had not been sent. -/
theorem one_client_sees_all (hK : K ≤ replCap) (c : Fin C) {cfg : Config}
    (hpurging : cfg.purging = true) (t : Ms) {schedule : List (Step K C)}
    (hruns : Runs (emptyWith cfg t) schedule) :
    let schedule₁ := schedule.filterMap (projectClientStep c)
    Machine.observeKept World.next (clientOutput c) (projectClientStep c) (emptyWith cfg t)
        schedule = Machine.observe World.next (clientOutput 0) (emptyWith cfg t) schedule₁ ∧
      Runs (emptyWith cfg t) schedule₁ ∧
      AtClient c (runSchedule (emptyWith cfg t) schedule)
        (runSchedule (emptyWith cfg t) schedule₁) :=
  (projects_client hK c).run (atClient_emptyWith hpurging t c) hruns

/-- Two clients watch a key that has expired, one of them before it is overwritten. -/
def sharedWatches : List (Step keyCount clientCount) :=
  [.cmd 0 (.set 0 Str.empty .always (.pxAt 5) false), .clockTick 6, .cmd 0 (.watch 0 0),
    .cmd 1 (.set 0 Str.empty .always .none false), .cmd 1 (.watch 1 0), .cmd 0 (.del 0),
    .cmd 0 (.unwatch 0)]

theorem one_client_sees_all_shared :
    let cfg : Config := ⟨.master, .normal, false, false, false, true⟩
    let schedule₁ := sharedWatches.filterMap (projectClientStep 1)
    Machine.observeKept World.next (clientOutput 1) (projectClientStep 1) (emptyWith cfg 0)
        sharedWatches = Machine.observe World.next (clientOutput 0) (emptyWith cfg 0) schedule₁ ∧
      Runs (emptyWith cfg 0) schedule₁ ∧
      AtClient 1 (runSchedule (emptyWith cfg 0) sharedWatches)
        (runSchedule (emptyWith cfg 0) schedule₁) := by
  intro cfg
  have hruns : Runs (emptyWith cfg 0) sharedWatches := by decide
  exact one_client_sees_all (by decide) 1 (by decide) 0 hruns

/-- Under such a configuration a property of the clock, the slots and the state of a client holds of
every client in every reachable world of at least one client if and only if it holds in the
reachable worlds of one. -/
theorem one_client_cutoff [NeZero C] {cfg : Config} (hpurging : cfg.purging = true) (t : Ms)
    (P : Ms → (Fin K → Slot) → ClientState K → Prop) :
    (∀ w : World K C, ReachableFrom cfg t w → ∀ c, P w.clock w.slots (w.clients c)) ↔
      ∀ w₁ : World K 1, ReachableFrom cfg t w₁ → P w₁.clock w₁.slots (w₁.clients 0) := by
  constructor
  · rintro hall _ ⟨_, schedule, rfl, hruns, rfl⟩
    obtain ⟨hlifted, hend⟩ := (projects_clientState 0).lift (projectClientStep_lift 0)
      (atClient_emptyWith (C := C) hpurging t 0) hruns
    have hclient := hall _ ⟨_, _, rfl, hlifted, rfl⟩ 0
    rwa [hend.clock_eq, hend.slots_eq, hend.client_eq]
  · rintro hone _ ⟨_, schedule, rfl, hruns, rfl⟩ c
    obtain ⟨-, hprojected, hend⟩ :=
      (projects_clientState c).run (atClient_emptyWith hpurging t c) hruns
    have hclient := hone _ ⟨_, _, rfl, hprojected, rfl⟩
    rwa [hend.clock_eq, hend.slots_eq, hend.client_eq] at hclient

/-- The property that a flag stands on a watched key that is still present. -/
theorem one_client_cutoff_flags :
    let cfg : Config := ⟨.master, .normal, false, false, false, true⟩
    let P : Ms → (Fin keyCount → Slot) → ClientState keyCount → Prop := fun _ slots client ↦
      ∀ k, client.watchedExpired k = true → (slots k).present = true
    (∀ w : World keyCount clientCount, ReachableFrom cfg 0 w →
        ∀ c, P w.clock w.slots (w.clients c)) ↔
      ∀ w₁ : World keyCount 1, ReachableFrom cfg 0 w₁ → P w₁.clock w₁.slots (w₁.clients 0) := by
  intro cfg P
  exact one_client_cutoff (by decide) 0 P

end Runs

end RedisCvlr.Cutoff
