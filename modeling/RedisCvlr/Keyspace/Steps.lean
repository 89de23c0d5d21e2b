import RedisCvlr.Keyspace.Outcome
import RedisCvlr.Library.Machine

/-!
# What a step can do

A step lets time pass, adds or drops watches, or applies a list of edits to the slots: at most two
edits of one key for a command (`opEdits`), one deletion for every due key for the active expire
cycle (`activeEdits`). `next_rule` is this case distinction as a proof rule, and `editsOn_rule` is
the one on the edits of a single key; the invariants of the development are derived from the two.

`Admits` is the guard of the runs: time does not go back, and the clock stays an `i64`.
-/

set_option autoImplicit false
set_option relaxedAutoImplicit false

namespace RedisCvlr.Keyspace

open RedisCvlr.Library RedisCvlr.Model RedisCvlr.Watch

variable {K C : ℕ}

/-! ### Runs -/

/-- Time does not go back and the clock stays within `i64`; commands are not restricted. -/
def Admits (w : World K C) : Step K C → Prop
  | .clockTick d => 0 ≤ d ∧ IsI64 (w.clock + d)
  | .cmd _ _ => True
  | .activeExpire => True

instance (w : World K C) : ∀ s, Decidable (Admits w s)
  | .clockTick d => inferInstanceAs (Decidable (0 ≤ d ∧ IsI64 (w.clock + d)))
  | .cmd _ _ => inferInstanceAs (Decidable True)
  | .activeExpire => inferInstanceAs (Decidable True)

/-- The world after a schedule of steps. -/
abbrev runSchedule (w : World K C) (schedule : List (Step K C)) : World K C :=
  Machine.run World.next w schedule

/-- Every step of the schedule is admitted when it is taken. -/
abbrev Runs (w : World K C) (schedule : List (Step K C)) : Prop :=
  Machine.Admissible World.next Admits w schedule

/-! ### The edits of a step -/

/-- The key is physically present and due for the active expire cycle. -/
def isDue (w : World K C) (k : Fin K) : Bool := (w.slots k).present && activeCycleWouldExpire w k

theorem isDue_eq (w : World K C) (k : Fin K) :
    isDue w k = ((w.slots k).present && (w.slots k).hasTtl &&
      decide (w.clock ≥ (w.slots k).expireAt)) := by
  unfold isDue activeCycleWouldExpire Slot.hasTtl
  cases hnone : (w.slots k).expireAt == noExpire <;> simp [bne, hnone]

/-- The edits of the active expire cycle: the due keys are deleted in key order. -/
def activeEdits (w : World K C) : List (Fin K × Edit) :=
  if w.role == .readOnlyReplica || w.expirePaused then []
  else ((List.finRange K).filter (isDue w)).map fun k ↦ (k, .delete)

/-- The edits that a step applies to the slots. -/
def stepEdits (w : World K C) : Step K C → List (Fin K × Edit)
  | .cmd _ command =>
    match keyOp? command with
    | some (k, op) => opEdits w k op
    | none => []
  | .activeExpire => activeEdits w
  | .clockTick _ => []

theorem stepEdits_of_keyOp (w : World K C) (c : Fin C) {command : Cmd K C} {k : Fin K}
    {op : KeyOp} (hop : keyOp? command = some (k, op)) :
    stepEdits w (.cmd c command) = opEdits w k op := by
  rw [stepEdits, hop]

theorem stepEdits_of_keyless (w : World K C) (c : Fin C) {command : Cmd K C}
    (hop : keyOp? command = none) : stepEdits w (.cmd c command) = [] := by
  rw [stepEdits, hop]

/-- The world at the start of an execution unit: the outermost unit resets the dirty counter. -/
def freshUnit (w : World K C) : World K C :=
  withUnit w w.repl (if w.nesting = 0 then 0 else w.dirty) w.nesting

/-- Deleting the due keys one by one, each tested when its turn comes, deletes the keys that were
due at the start: a deletion changes no other slot. -/
theorem foldl_activeExpireKey_eq (ks : List (Fin K)) (hnodup : ks.Nodup) (w : World K C) :
    ks.foldl activeExpireKey w =
      applyEdits w ((ks.filter (isDue w)).map fun k ↦ (k, Edit.delete)) := by
  induction ks generalizing w with
  | nil => rfl
  | cons k rest ih =>
    obtain ⟨hnotin, hrest⟩ := List.nodup_cons.mp hnodup
    rw [List.foldl_cons, ih hrest]
    cases hdue : isDue w k with
    | false =>
      have hskip : activeExpireKey w k = w := by
        rw [activeExpireKey, ← isDue, hdue, if_neg Bool.false_ne_true]
      rw [hskip, List.filter_cons_of_neg (by simp [hdue])]
    | true =>
      have hdelete : activeExpireKey w k = applyEdit w (k, .delete) := by
        rw [activeExpireKey, ← isDue, hdue, if_pos rfl, deleteExpiredKeyAndPropagate_eq]
      have hlater : rest.filter (isDue (applyEdit w (k, .delete))) = rest.filter (isDue w) := by
        refine List.filter_congr fun k' hk' ↦ ?_
        have hne : k' ≠ k := fun heq ↦ hnotin (heq ▸ hk')
        simp only [isDue, activeCycleWouldExpire, applyEdit_slots, applyEdit_clock,
          Function.update_of_ne hne]
      rw [hdelete, hlater, List.filter_cons_of_pos hdue]
      rfl

theorem activeExpireCycle_eq (w : World K C) :
    activeExpireCycle w = applyEdits w (activeEdits w) := by
  rw [activeExpireCycle, activeEdits]
  split_ifs
  · rfl
  · exact foldl_activeExpireKey_eq _ (List.nodup_finRange K) w

/-! ### Execution units -/

section Fresh

variable (w : World K C)

@[simp] theorem freshUnit_slots : (freshUnit w).slots = w.slots := rfl

@[simp] theorem freshUnit_clock : (freshUnit w).clock = w.clock := rfl

@[simp] theorem freshUnit_config : config (freshUnit w) = config w := rfl

@[simp] theorem freshUnit_clients : (freshUnit w).clients = w.clients := rfl

@[simp] theorem freshUnit_repl : (freshUnit w).repl = w.repl := rfl

@[simp] theorem freshUnit_nesting : (freshUnit w).nesting = w.nesting := rfl

theorem freshUnit_dirty (hnesting : w.nesting = 0) : (freshUnit w).dirty = 0 := if_pos hnesting

end Fresh

section Units

variable {w : World K C}

/-- Entering a unit starts it fresh, one level deeper. -/
theorem enterExecutionUnit_eq (w : World K C) :
    enterExecutionUnit w = { freshUnit w with nesting := w.nesting + 1 } := by
  by_cases hnesting : w.nesting = 0 <;>
    simp [enterExecutionUnit, freshUnit, withUnit, hnesting]

/-- Leaving a unit returns to the level before it. -/
theorem exitExecutionUnit_eq (u : World K C) (n : ℕ) :
    exitExecutionUnit { u with nesting := n + 1 } = { u with nesting := n } := by
  simp [exitExecutionUnit]

/-- Edits inside a unit are edits of the world at its start. -/
theorem exit_applyEdits (w : World K C) (edits : List (Fin K × Edit)) :
    exitExecutionUnit (applyEdits (enterExecutionUnit w) edits) =
      applyEdits (freshUnit w) edits := by
  have hdepth : (applyEdits (freshUnit w) edits).nesting = w.nesting := by
    rw [applyEdits_nesting, freshUnit_nesting]
  rw [enterExecutionUnit_eq, applyEdits_withNesting, exitExecutionUnit_eq, ← hdepth]

theorem step_of_keyOp (w : World K C) (c : Fin C) {command : Cmd K C} {k : Fin K}
    {op : KeyOp} (hop : keyOp? command = some (k, op)) :
    step w (.cmd c command) =
      (applyEdits (freshUnit w) (opEdits w k op),
        some (op.reply (config w) w.clock (w.slots k))) := by
  have hinside : opEdits (enterExecutionUnit w) k op = opEdits w k op := by
    rw [enterExecutionUnit_eq]
    rfl
  have hreply : op.reply (config (enterExecutionUnit w)) (enterExecutionUnit w).clock
      ((enterExecutionUnit w).slots k) = (op.reply (config w) w.clock (w.slots k) : Reply K) := by
    rw [enterExecutionUnit_eq]
    rfl
  rw [step, execCmd_eq_outcome _ c hop]
  simp only
  rw [hreply, hinside, exit_applyEdits]

theorem next_activeExpire (w : World K C) :
    w.next .activeExpire = applyEdits (freshUnit w) (activeEdits w) := by
  have hinside : activeEdits (enterExecutionUnit w) = activeEdits w := by
    rw [enterExecutionUnit_eq]
    rfl
  rw [World.next, step, activeExpireCycle_eq]
  simp only
  rw [hinside, exit_applyEdits]

theorem next_watch (w : World K C) (c client : Fin C) (k : Fin K) :
    w.next (.cmd c (.watch client k)) = watchKey (freshUnit w) client k := by
  have hinside : watchKey (enterExecutionUnit w) client k =
      { withUnit (watchKey w client k) w.repl (if w.nesting = 0 then 0 else w.dirty) w.nesting with
        nesting := w.nesting + 1 } := by
    rw [enterExecutionUnit_eq]
    exact watchKey_withUnit w client k _ _ _
  rw [World.next, step, execCmd]
  simp only
  rw [hinside, exitExecutionUnit_eq]
  exact (watchKey_withUnit w client k _ _ _).symm

theorem next_unwatch (w : World K C) (c client : Fin C) :
    w.next (.cmd c (.unwatch client)) = unwatchAll (freshUnit w) client := by
  have hinside : unwatchAll (enterExecutionUnit w) client =
      { withUnit (unwatchAll w client) w.repl (if w.nesting = 0 then 0 else w.dirty) w.nesting with
        nesting := w.nesting + 1 } := by
    rw [enterExecutionUnit_eq]
    exact unwatchAll_withUnit w client _ _ _
  rw [World.next, step, execCmd]
  simp only
  rw [hinside, exitExecutionUnit_eq]
  exact (unwatchAll_withUnit w client _ _ _).symm

theorem next_keys (w : World K C) (c : Fin C) : w.next (.cmd c .keys) = freshUnit w :=
  exit_applyEdits w []

theorem next_dbSize (w : World K C) (c : Fin C) : w.next (.cmd c .dbSize) = freshUnit w :=
  exit_applyEdits w []

/-- The case distinction on a step: time passes, a watch is added, the watches of a client are
dropped, or the edits of the step are applied. -/
theorem next_rule (P : World K C → Prop) (s : Step K C)
    (htick : ∀ d, s = .clockTick d → P { w with clock := wrapI64 (w.clock + d) })
    (hwatch : ∀ c client k, s = .cmd c (.watch client k) → P (watchKey (freshUnit w) client k))
    (hunwatch : ∀ c client, s = .cmd c (.unwatch client) → P (unwatchAll (freshUnit w) client))
    (hedits : (∀ d, s ≠ .clockTick d) → P (applyEdits (freshUnit w) (stepEdits w s))) :
    P (w.next s) := by
  cases s with
  | clockTick d => exact htick d rfl
  | activeExpire =>
    rw [next_activeExpire]
    exact hedits (fun _ ↦ by simp)
  | cmd c command =>
    cases hop : keyOp? command with
    | some target =>
      have hworld : w.next (.cmd c command) =
          applyEdits (freshUnit w) (stepEdits w (.cmd c command)) := by
        rw [World.next, step_of_keyOp w c hop, stepEdits_of_keyOp w c hop]
      rw [hworld]
      exact hedits (fun _ ↦ by simp)
    | none =>
      rw [stepEdits_of_keyless w c hop] at hedits
      obtain rfl | rfl | ⟨client, k, rfl⟩ | ⟨client, rfl⟩ := of_keyOp_eq_none hop
      · rw [next_keys]
        exact hedits (fun _ ↦ by simp)
      · rw [next_dbSize]
        exact hedits (fun _ ↦ by simp)
      · rw [next_watch]
        exact hwatch c client k rfl
      · rw [next_unwatch]
        exact hunwatch c client rfl

end Units

/-! ### What every step leaves alone -/

section Frame

variable (w : World K C) (s : Step K C)

theorem config_of_frame {w w' : World K C} (h : WatchFrame w w') : config w' = config w := by
  obtain ⟨_, _, _, rfl⟩ := h
  rfl

theorem slots_of_frame {w w' : World K C} (h : WatchFrame w w') : w'.slots = w.slots := by
  obtain ⟨_, _, _, rfl⟩ := h
  rfl

theorem clock_of_frame {w w' : World K C} (h : WatchFrame w w') : w'.clock = w.clock := by
  obtain ⟨_, _, _, rfl⟩ := h
  rfl

theorem repl_of_frame {w w' : World K C} (h : WatchFrame w w') : w'.repl = w.repl := by
  obtain ⟨_, _, _, rfl⟩ := h
  rfl

theorem nesting_of_frame {w w' : World K C} (h : WatchFrame w w') : w'.nesting = w.nesting := by
  obtain ⟨_, _, _, rfl⟩ := h
  rfl

theorem dirty_of_frame {w w' : World K C} (h : WatchFrame w w') : w'.dirty = w.dirty := by
  obtain ⟨_, _, _, rfl⟩ := h
  rfl

/-- No step changes the configuration. -/
@[simp] theorem next_config : config (w.next s) = config w := by
  refine next_rule (fun w' ↦ config w' = config w) s (fun _ _ ↦ rfl) (fun _ client k _ ↦ ?_)
    (fun _ client _ ↦ ?_) fun _ ↦ ?_
  · exact (config_of_frame (watchKey_frame _ client k)).trans (freshUnit_config w)
  · exact (config_of_frame (unwatchAll_frame _ client)).trans (freshUnit_config w)
  · rw [applyEdits_config, freshUnit_config]

/-- No run changes the configuration. -/
theorem runSchedule_config (schedule : List (Step K C)) :
    config (runSchedule w schedule) = config w :=
  Machine.run_preserves (fun w' ↦ config w' = config w)
    (fun w' s hconfig ↦ (next_config w' s).trans hconfig) schedule rfl

/-- The slots after a step are those after its edits. -/
theorem next_slots (k : Fin K) :
    (w.next s).slots k =
      (editsOn k (stepEdits w s)).foldl (fun slot e ↦ e.slot slot) (w.slots k) := by
  refine next_rule (fun w' ↦ w'.slots k = _) s (fun d hs ↦ ?_) (fun _ client k' hs ↦ ?_)
    (fun _ client hs ↦ ?_) fun _ ↦ ?_
  · subst hs
    rfl
  · subst hs
    exact congrFun (slots_of_frame (watchKey_frame (freshUnit w) client k')) k
  · subst hs
    exact congrFun (slots_of_frame (unwatchAll_frame (freshUnit w) client)) k
  · rw [applyEdits_slots, freshUnit_slots]

/-- Time passes in ticks only. -/
theorem next_clock : (w.next s).clock =
    match s with
    | .clockTick d => wrapI64 (w.clock + d)
    | .cmd _ _ => w.clock
    | .activeExpire => w.clock := by
  cases s with
  | clockTick d => rfl
  | activeExpire => rw [next_activeExpire, applyEdits_clock, freshUnit_clock]
  | cmd c command =>
    refine next_rule (fun w' ↦ w'.clock = w.clock) (.cmd c command) (fun _ hs ↦ by simp at hs)
      (fun _ client k _ ↦ ?_) (fun _ client _ ↦ ?_) fun _ ↦ ?_
    · exact (clock_of_frame (watchKey_frame _ client k)).trans (freshUnit_clock w)
    · exact (clock_of_frame (unwatchAll_frame _ client)).trans (freshUnit_clock w)
    · rw [applyEdits_clock, freshUnit_clock]

/-- A step leaves the nesting depth as it was. -/
theorem next_nesting : (w.next s).nesting = w.nesting := by
  refine next_rule (fun w' ↦ w'.nesting = w.nesting) s (fun _ _ ↦ rfl) (fun _ client k _ ↦ ?_)
    (fun _ client _ ↦ ?_) fun _ ↦ ?_
  · exact (nesting_of_frame (watchKey_frame _ client k)).trans (freshUnit_nesting w)
  · exact (nesting_of_frame (unwatchAll_frame _ client)).trans (freshUnit_nesting w)
  · rw [applyEdits_nesting, freshUnit_nesting]

/-- The dirty counter counts the edits of an outermost step. -/
theorem next_dirty {w : World K C} {s : Step K C} (houtermost : w.nesting = 0)
    (htick : ∀ d, s ≠ .clockTick d) : (w.next s).dirty = (stepEdits w s).length := by
  refine next_rule (fun w' ↦ w'.dirty = (stepEdits w s).length) s
    (fun d hs ↦ (htick d hs).elim) (fun _ client k hs ↦ ?_) (fun _ client hs ↦ ?_) fun _ ↦ ?_
  · subst hs
    exact (dirty_of_frame (watchKey_frame (freshUnit w) client k)).trans
      (freshUnit_dirty w houtermost)
  · subst hs
    exact (dirty_of_frame (unwatchAll_frame (freshUnit w) client)).trans
      (freshUnit_dirty w houtermost)
  · rw [applyEdits_dirty, freshUnit_dirty w houtermost, Nat.zero_add]

/-- Along a run the clock does not go back, and it stays within `i64`. -/
theorem clock_le_next (hadmits : Admits w s) : w.clock ≤ (w.next s).clock := by
  rw [next_clock]
  cases s with
  | clockTick d =>
    simp only
    rw [wrapI64_eq hadmits.2]
    exact le_add_of_nonneg_right hadmits.1
  | activeExpire => exact le_refl _
  | cmd c command => exact le_refl _

end Frame

/-! ### Commands outside a unit -/

section Exec

variable (w : World K C) (c : Fin C) (command : Cmd K C)

/-- A command executed outside a unit applies the same edits or changes only what watches change. -/
theorem execCmd_rule (P : World K C → Prop)
    (hwatch : ∀ client k, command = .watch client k → P (watchKey w client k))
    (hunwatch : ∀ client, command = .unwatch client → P (unwatchAll w client))
    (hedits : P (applyEdits w (stepEdits w (.cmd c command)))) : P (execCmd w c command).1 := by
  cases hop : keyOp? command with
  | some target =>
    rw [execCmd_eq_outcome w c hop]
    rwa [stepEdits_of_keyOp w c hop] at hedits
  | none =>
    rw [stepEdits_of_keyless w c hop] at hedits
    obtain rfl | rfl | ⟨client, k, rfl⟩ | ⟨client, rfl⟩ := of_keyOp_eq_none hop
    · exact hedits
    · exact hedits
    · exact hwatch client k rfl
    · exact hunwatch client rfl

theorem execCmd_config : config (execCmd w c command).1 = config w :=
  execCmd_rule w c command (fun w' ↦ config w' = config w)
    (fun client k _ ↦ config_of_frame (watchKey_frame w client k))
    (fun client _ ↦ config_of_frame (unwatchAll_frame w client)) (applyEdits_config w _)

theorem execCmd_clock : (execCmd w c command).1.clock = w.clock :=
  execCmd_rule w c command (fun w' ↦ w'.clock = w.clock)
    (fun client k _ ↦ clock_of_frame (watchKey_frame w client k))
    (fun client _ ↦ clock_of_frame (unwatchAll_frame w client)) (applyEdits_clock w _)

/-- The slots do not depend on the execution unit around a command. -/
theorem execCmd_slots : (execCmd w c command).1.slots = (w.next (.cmd c command)).slots := by
  funext k
  rw [next_slots]
  refine execCmd_rule w c command (fun w' ↦ w'.slots k = _) (fun client k' hs ↦ ?_)
    (fun client hs ↦ ?_) (applyEdits_slots w _ k)
  · subst hs
    exact congrFun (slots_of_frame (watchKey_frame w client k')) k
  · subst hs
    exact congrFun (slots_of_frame (unwatchAll_frame w client)) k

end Exec

/-! ### The edits of one key in a step -/

section KeyEdits

variable (w : World K C)

theorem editsOn_opEdits (k k' : Fin K) (op : KeyOp) :
    editsOn k' (opEdits w k op) = if k = k' then op.edits (config w) w.clock (w.slots k) else [] :=
  editsOn_map k k' _

theorem editsOn_deletes {ks : List (Fin K)} (hnodup : ks.Nodup) (k : Fin K) :
    editsOn k (ks.map fun k' ↦ (k', .delete)) = if k ∈ ks then [.delete] else [] := by
  induction ks with
  | nil => rfl
  | cons k' rest ih =>
    obtain ⟨hnotin, hrest⟩ := List.nodup_cons.mp hnodup
    rw [List.map_cons]
    by_cases hk : k' = k
    · subst hk
      rw [editsOn_cons_self, ih hrest, if_neg hnotin, if_pos List.mem_cons_self]
    · rw [editsOn_cons_of_ne hk, ih hrest]
      simp [Ne.symm hk]

/-- The active cycle has one deletion for a due key. -/
theorem editsOn_activeEdits (k : Fin K) :
    editsOn k (activeEdits w) =
      if !(w.role == .readOnlyReplica || w.expirePaused) && isDue w k then [.delete] else [] := by
  rw [activeEdits]
  split_ifs with hoff hdue hdue
  · simp [hoff] at hdue
  · rfl
  · simp only [Bool.and_eq_true] at hdue
    rw [editsOn_deletes ((List.nodup_finRange K).filter _), if_pos (by simp [hdue.2])]
  · rw [editsOn_deletes ((List.nodup_finRange K).filter _), if_neg]
    intro hmem
    simp only [hoff, Bool.not_false, Bool.true_and] at hdue
    exact hdue (List.mem_filter.mp hmem).2

/-- The case distinction on the edits of one key in a step: none, the deletion of a due key by the
active cycle, or the edits of the operation of a command on the key. -/
theorem editsOn_rule (P : List Edit → Prop) (k : Fin K) (s : Step K C) (hnone : P [])
    (hdue : s = .activeExpire → isDue w k = true → P [.delete])
    (hop : ∀ c command op, s = .cmd c command → keyOp? command = some (k, op) →
      P (op.edits (config w) w.clock (w.slots k))) :
    P (editsOn k (stepEdits w s)) := by
  cases s with
  | clockTick d => exact hnone
  | activeExpire =>
    rw [stepEdits, editsOn_activeEdits]
    split_ifs with hruns
    · exact hdue rfl (Bool.and_eq_true_iff.mp hruns).2
    · exact hnone
  | cmd c command =>
    cases hkey : keyOp? command with
    | none =>
      rw [stepEdits_of_keyless w c hkey]
      exact hnone
    | some target =>
      obtain ⟨k', op⟩ := target
      rw [stepEdits_of_keyOp w c hkey, editsOn_opEdits]
      split_ifs with heq
      · subst heq
        exact hop c command op rfl hkey
      · exact hnone

end KeyEdits

/-- The reply to a command does not depend on the execution unit around it. -/
theorem step_reply (w : World K C) (c : Fin C) (command : Cmd K C) :
    (step w (.cmd c command)).2 = some (execCmd w c command).2 := by
  cases hop : keyOp? command with
  | some target => rw [step_of_keyOp w c hop, execCmd_eq_outcome w c hop]
  | none =>
    have hinside := enterExecutionUnit_eq w
    obtain rfl | rfl | ⟨client, k, rfl⟩ | ⟨client, rfl⟩ := of_keyOp_eq_none hop <;>
      simp only [step, hinside] <;> rfl

/-! ### Emitted effects -/

/-- The effects that a step propagates: what it logs when the log starts empty. -/
def emitted (w : World K C) (s : Step K C) : List (Effect K) :=
  (World.next { w with repl := ReplLog.new } s).repl.entries

/-- What a step shows: its reply and the effects that it propagates. -/
def stepOutput (w : World K C) (s : Step K C) : Option (Reply K) × List (Effect K) :=
  ((step w s).2, emitted w s)

section Emission

variable (w : World K C) (s : Step K C)

/-- An operation has at most a purge and a write. -/
theorem length_opEdits_le (k : Fin K) (op : KeyOp) : (opEdits w k op).length ≤ 2 := by
  simp only [opEdits, KeyOp.edits, List.length_map, List.length_append]
  have hpurge : (if (config w).purges op.writes w.clock (w.slots k) then [Edit.delete]
      else []).length ≤ 1 := by
    split_ifs <;> simp
  have hwrite : (op.write? (config w) w.clock (w.slots k)).toList.length ≤ 1 :=
    Option.length_toList_le
  omega

/-- The active cycle has at most one deletion for each key. -/
theorem length_activeEdits_le : (activeEdits w).length ≤ K := by
  rw [activeEdits]
  split_ifs
  · exact Nat.zero_le _
  · rw [List.length_map]
    refine (List.length_filter_le _ _).trans ?_
    rw [List.length_finRange]

theorem length_stepEdits_le_max : (stepEdits w s).length ≤ max 2 K := by
  cases s with
  | clockTick d => exact Nat.zero_le _
  | activeExpire => exact (length_activeEdits_le w).trans (le_max_right 2 K)
  | cmd c command =>
    rw [stepEdits]
    cases keyOp? command with
    | none => exact Nat.zero_le _
    | some target => exact (length_opEdits_le w target.1 target.2).trans (le_max_left 2 K)

theorem length_stepEdits_le (hK : K ≤ replCap) : (stepEdits w s).length ≤ replCap :=
  (length_stepEdits_le_max w s).trans (max_le (by decide) hK)

theorem stepEdits_newLog : stepEdits { w with repl := ReplLog.new } s = stepEdits w s := by
  cases s <;> rfl

/-- A step with room in the log appends the effects of its edits. -/
theorem repl_next (hroom : w.repl.len + (stepEdits w s).length ≤ replCap) :
    (w.next s).repl.entries =
        w.repl.entries ++ (stepEdits w s).map (fun edit ↦ edit.2.effect edit.1) ∧
      (w.next s).repl.len = w.repl.len + (stepEdits w s).length := by
  revert hroom
  refine next_rule (fun w' ↦ w.repl.len + (stepEdits w s).length ≤ replCap →
    w'.repl.entries = _ ∧ w'.repl.len = _) s
    (fun d hs ↦ ?_) (fun _ client k' hs ↦ ?_) (fun _ client hs ↦ ?_) fun _ hroom ↦ ?_
  · subst hs
    simp [stepEdits]
  · subst hs
    rw [repl_of_frame (watchKey_frame _ client k')]
    simp [stepEdits, keyOp?]
  · subst hs
    rw [repl_of_frame (unwatchAll_frame _ client)]
    simp [stepEdits, keyOp?]
  · exact entries_applyEdits (freshUnit w) _ hroom

theorem emitted_eq (hK : K ≤ replCap) :
    emitted w s = (stepEdits w s).map fun edit ↦ edit.2.effect edit.1 := by
  have hroom := length_stepEdits_le w s hK
  have hnew : (ReplLog.new : ReplLog K).len +
      (stepEdits { w with repl := ReplLog.new } s).length ≤ replCap := by
    rw [stepEdits_newLog]
    simpa [ReplLog.new] using hroom
  rw [emitted, (repl_next { w with repl := ReplLog.new } s hnew).1, stepEdits_newLog]
  rfl

/-- A key is changed by a step exactly when an effect on it is emitted. -/
theorem exists_emitted_on_iff (hK : K ≤ replCap) (k : Fin K) :
    (∃ e ∈ emitted w s, e.key? = some k) ↔ editsOn k (stepEdits w s) ≠ [] := by
  rw [emitted_eq w s hK]
  simp only [List.mem_map, exists_exists_and_eq_and, Edit.effect_key, Option.some.injEq, ne_eq]
  constructor
  · rintro ⟨⟨k', e⟩, hmem, rfl⟩
    exact List.ne_nil_of_mem (mem_editsOn.mpr hmem)
  · intro hne
    obtain ⟨e, hmem⟩ := List.exists_mem_of_ne_nil _ hne
    exact ⟨(k, e), mem_editsOn.mp hmem, rfl⟩

/-- A SET effect on a key is the effect of a write of its value. -/
theorem set_mem_emitted_iff (hK : K ≤ replCap) (k : Fin K) (val : Str) (expireAt : Ms) :
    .set k val expireAt ∈ emitted w s ↔ .put val expireAt ∈ editsOn k (stepEdits w s) := by
  rw [emitted_eq w s hK, List.mem_map, mem_editsOn]
  constructor
  · rintro ⟨⟨k', e⟩, hmem, heffect⟩
    cases e with
    | put val' expireAt' =>
      obtain ⟨rfl, rfl, rfl⟩ := Effect.set.inj heffect
      exact hmem
    | delete => simp [Edit.effect] at heffect
    | retime time => simp [Edit.effect] at heffect
    | persist => simp [Edit.effect] at heffect
  · intro hmem
    exact ⟨(k, .put val expireAt), hmem, rfl⟩

end Emission

end RedisCvlr.Keyspace
