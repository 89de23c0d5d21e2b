import RedisCvlr.Keyspace.Steps

/-!
# Maps of worlds

Runs are compared with runs that do the same with other data: with other values, or at another time.
Such a map acts on each slot, each edit and each effect on its own, and on the clock, and it keeps
which keys are present. Watching and touching read nothing else of a slot than its presence, so a
mapped list of edits leads to the mapped world (`Mapping.applyEdits_map`), and a command does as
soon as its edits are mapped and expired keys are told alike (`Mapping.execCmd_map`).
-/

set_option autoImplicit false
set_option relaxedAutoImplicit false

namespace RedisCvlr.Keyspace

open RedisCvlr.Library RedisCvlr.Model RedisCvlr.Watch

variable {K C : ℕ}

/-- A map of slots, edits, effects and the clock. A mapped edit does to a mapped slot what the edit
does to the slot, and propagates the mapped effect. -/
structure Mapping (K : ℕ) where
  slot : Slot → Slot
  edit : Edit → Edit
  effect : Effect K → Effect K
  clock : Ms → Ms
  slot_present : ∀ s, (slot s).present = s.present
  edit_delete : edit .delete = .delete
  edit_slot : ∀ e s, (edit e).slot (slot s) = slot (e.slot s)
  edit_effect : ∀ k e, (edit e).effect k = effect (e.effect k)

namespace Mapping

/-- A log under a map. -/
def log (M : Mapping K) (log : ReplLog K) : ReplLog K :=
  ⟨fun i ↦ (log.ops i).map M.effect, log.len⟩

/-- A world under a map. -/
def world (M : Mapping K) (w : World K C) : World K C :=
  { w with
    slots := fun k ↦ M.slot (w.slots k)
    clock := M.clock w.clock
    repl := M.log w.repl }

/-- An edit under a map with its key. -/
def editOn (M : Mapping K) (edit : Fin K × Edit) : Fin K × Edit := (edit.1, M.edit edit.2)

variable (M : Mapping K) (w : World K C)

/-! ### Watches -/

section Watches

theorem watchKey_map (c : Fin C) {k : Fin K}
    (hexpired : (w.slots k).present = true → keyIsExpired (M.world w) k = keyIsExpired w k) :
    watchKey (M.world w) c k = M.world (watchKey w c k) := by
  have hnow : (((M.world w).slots k).present && keyIsExpired (M.world w) k) =
      ((w.slots k).present && keyIsExpired w k) := by
    rw [show ((M.world w).slots k).present = _ from M.slot_present _]
    cases hpresent : (w.slots k).present with
    | false => rfl
    | true => rw [hexpired hpresent]
  by_cases hwatching : (w.clients c).watching k = true
  · rw [watchKey, watchKey, if_pos hwatching]
    exact if_pos hwatching
  · rw [watchKey, watchKey, if_neg hwatching, hnow]
    exact if_neg hwatching

theorem unwatchAll_map (c : Fin C) : unwatchAll (M.world w) c = M.world (unwatchAll w c) := by
  have hfold : ∀ (ks : List (Fin K)) (w : World K C),
      ks.foldl (unwatchOne c) (M.world w) = M.world (ks.foldl (unwatchOne c) w) := by
    intro ks
    induction ks with
    | nil => exact fun _ ↦ rfl
    | cons k rest ih =>
      intro w
      rw [List.foldl_cons, List.foldl_cons, ← ih]
      congr 1
      by_cases hwatching : (w.clients c).watching k = true
      · rw [unwatchOne, unwatchOne, if_pos hwatching]
        exact if_pos hwatching
      · rw [unwatchOne, unwatchOne, if_neg hwatching]
        exact if_neg hwatching
  exact hfold (List.finRange K) w

/-- Touching reads of a slot only whether it is present. -/
theorem touchLoop_map (k : Fin K) (snapshot : List (Option (Fin C))) :
    touchLoop k snapshot (M.world w) = M.world (touchLoop k snapshot w) := by
  induction snapshot generalizing w with
  | nil => rfl
  | cons cell rest ih =>
    cases cell with
    | none => exact ih w
    | some c =>
      have hpresent : ((M.world w).slots k).present = (w.slots k).present := M.slot_present _
      have hdirty : dirtyClient (M.world w) c = M.world (dirtyClient w c) :=
        M.unwatchAll_map (w.setClient c { w.clients c with dirtyCas := true }) c
      have hclear : clearFlag (M.world w) c k = M.world (clearFlag w c k) := rfl
      rw [touchLoop, touchLoop, hpresent, hdirty, hclear, ih, ih, apply_ite M.world,
        apply_ite M.world]
      rfl

end Watches

/-! ### Edits -/

section Edits

theorem push_map (log : ReplLog K) (e : Effect K) :
    (M.log log).push (M.effect e) = M.log (log.push e) := by
  by_cases hroom : log.len < replCap
  · rw [ReplLog.push, ReplLog.push, if_pos hroom]
    refine (if_pos hroom).trans ?_
    exact congrArg (ReplLog.mk · _) (PrefixArray.write_map M.effect log.ops log.len (some e))
  · rw [ReplLog.push, ReplLog.push, if_neg hroom]
    exact if_neg hroom

theorem entries_map (log : ReplLog K) : (M.log log).entries = log.entries.map M.effect :=
  PrefixArray.contents_map M.effect log.ops log.len

theorem setSlot_map (k : Fin K) (s : Slot) :
    (M.world w).setSlot k (M.slot s) = M.world (w.setSlot k s) := by
  have hslots : Function.update (fun k ↦ M.slot (w.slots k)) k (M.slot s) =
      fun k' ↦ M.slot (Function.update w.slots k s k') := by
    funext k'
    rw [Function.apply_update (fun _ ↦ M.slot)]
  exact congrArg (fun slots ↦ { M.world w with slots := slots }) hslots

theorem applyEdit_map (edit : Fin K × Edit) :
    applyEdit (M.world w) (M.editOn edit) = M.world (applyEdit w edit) := by
  obtain ⟨k, e⟩ := edit
  have hslot : (M.edit e).slot ((M.world w).slots k) = M.slot (e.slot (w.slots k)) :=
    M.edit_slot e _
  rw [editOn, applyEdit_eq, applyEdit_eq, hslot, setSlot_map, touchWatchedKey, touchWatchedKey]
  show withUnit (touchLoop k _ (M.world _)) ((M.log w.repl).push _) _ _ = _
  rw [touchLoop_map, M.edit_effect, push_map]
  rfl

/-- Mapped edits lead to the mapped world, by induction on the edits. -/
theorem applyEdits_map (edits : List (Fin K × Edit)) :
    applyEdits (M.world w) (edits.map M.editOn) = M.world (applyEdits w edits) := by
  induction edits generalizing w with
  | nil => rfl
  | cons edit rest ih => rw [List.map_cons, applyEdits_cons, applyEdit_map, ih, applyEdits_cons]

end Edits

/-! ### Steps -/

section Steps

variable {M w} {c : Fin C} {command command' : Cmd K C} {mapOp : KeyOp → KeyOp}

/-- A command whose edits are mapped leads to the mapped world. -/
theorem execCmd_map
    (hop : keyOp? command' = (keyOp? command).map fun target ↦ (target.1, mapOp target.2))
    (hkeyless : keyOp? command = none → command' = command)
    (hedits : ∀ k op, keyOp? command = some (k, op) →
      (mapOp op).edits (config w) (M.clock w.clock) (M.slot (w.slots k)) =
        (op.edits (config w) w.clock (w.slots k)).map M.edit)
    (hexpired : ∀ k, (w.slots k).present = true → keyIsExpired (M.world w) k = keyIsExpired w k) :
    (execCmd (M.world w) c command').1 = M.world (execCmd w c command).1 := by
  cases hkeyed : keyOp? command with
  | some target =>
    obtain ⟨k, op⟩ := target
    have hmapped : opEdits (M.world w) k (mapOp op) = (opEdits w k op).map M.editOn := by
      have hlist := congrArg (List.map fun e ↦ (k, e)) (hedits k op hkeyed)
      rw [List.map_map] at hlist
      rw [opEdits, opEdits, List.map_map]
      exact hlist
    rw [hkeyed] at hop
    rw [execCmd_eq_outcome _ c hop, execCmd_eq_outcome w c hkeyed, hmapped, applyEdits_map]
  | none =>
    rw [hkeyless hkeyed]
    obtain rfl | rfl | ⟨client, k, rfl⟩ | ⟨client, rfl⟩ := of_keyOp_eq_none hkeyed
    · rfl
    · rfl
    · exact watchKey_map M w client (hexpired k)
    · exact unwatchAll_map M w client

/-- The step of such a command leads to the mapped world. -/
theorem next_cmd
    (hop : keyOp? command' = (keyOp? command).map fun target ↦ (target.1, mapOp target.2))
    (hkeyless : keyOp? command = none → command' = command)
    (hedits : ∀ k op, keyOp? command = some (k, op) →
      (mapOp op).edits (config w) (M.clock w.clock) (M.slot (w.slots k)) =
        (op.edits (config w) w.clock (w.slots k)).map M.edit)
    (hexpired : ∀ k, (w.slots k).present = true → keyIsExpired (M.world w) k = keyIsExpired w k) :
    (M.world w).next (.cmd c command') = M.world (w.next (.cmd c command)) := by
  have henter : enterExecutionUnit (M.world w) = M.world (enterExecutionUnit w) := by
    rw [enterExecutionUnit_eq, enterExecutionUnit_eq]
    rfl
  have hinside : (execCmd (M.world (enterExecutionUnit w)) c command').1 =
      M.world (execCmd (enterExecutionUnit w) c command).1 := by
    rw [enterExecutionUnit_eq]
    exact execCmd_map hop hkeyless hedits hexpired
  have hexit : ∀ u : World K C, exitExecutionUnit (M.world u) = M.world (exitExecutionUnit u) := by
    intro u
    rw [exitExecutionUnit, exitExecutionUnit, apply_ite M.world]
    rfl
  show exitExecutionUnit (execCmd (enterExecutionUnit (M.world w)) c command').1 = _
  rw [henter, hinside, hexit]
  rfl

/-- The active expire cycle leads to the mapped world if the same keys are due. -/
theorem next_activeExpire (hdue : ∀ k, isDue (M.world w) k = isDue w k) :
    (M.world w).next .activeExpire = M.world (w.next .activeExpire) := by
  have hguard : ((M.world w).role == .readOnlyReplica || (M.world w).expirePaused) =
      (w.role == .readOnlyReplica || w.expirePaused) := rfl
  have hdelete : M.editOn ∘ (fun k ↦ (k, .delete)) = fun k : Fin K ↦ (k, .delete) :=
    funext fun k ↦ congrArg (Prod.mk k) M.edit_delete
  have hmapped : activeEdits (M.world w) = (activeEdits w).map M.editOn := by
    rw [activeEdits, activeEdits, funext hdue, hguard, apply_ite (List.map M.editOn),
      List.map_map, hdelete]
    rfl
  rw [Keyspace.next_activeExpire, Keyspace.next_activeExpire, hmapped]
  exact applyEdits_map M (freshUnit w) _

/-- What a step emits is mapped if the step is, from an empty log. -/
theorem emitted_map {s s' : Step K C}
    (hnext : (M.world { w with repl := ReplLog.new }).next s' =
      M.world (World.next { w with repl := ReplLog.new } s)) :
    emitted (M.world w) s' = (emitted w s).map M.effect := by
  rw [emitted, emitted, ← entries_map]
  exact congrArg (fun w' ↦ w'.repl.entries) hnext

/-- A command on no key gets the same reply. -/
theorem reply_keyless (hkeyless : keyOp? command = none)
    (hexpired : ∀ k, (w.slots k).present = true → keyIsExpired (M.world w) k = keyIsExpired w k) :
    (execCmd (M.world w) c command).2 = (execCmd w c command).2 := by
  have hpresent : ∀ k, ((M.world w).slots k).present = (w.slots k).present :=
    fun k ↦ M.slot_present _
  obtain rfl | rfl | ⟨client, k, rfl⟩ | ⟨client, rfl⟩ := of_keyOp_eq_none hkeyless
  · refine congrArg Reply.keySet (funext fun k ↦ ?_)
    rw [hpresent]
    cases hp : (w.slots k).present with
    | false => rfl
    | true => rw [hexpired k hp]
  · show cmdDbsize (M.world w) = cmdDbsize w
    rw [cmdDbsize_eq, cmdDbsize_eq, presentCount, presentCount]
    simp only [hpresent]
  · rfl
  · rfl

end Steps

end Mapping

end RedisCvlr.Keyspace
