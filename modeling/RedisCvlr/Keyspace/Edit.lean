import RedisCvlr.Watch.Touch

/-!
# Edits of a slot

Every change of the keyspace in the source is one of four edits of one slot, and each is written out
by hand where it happens: the slot is changed, the dirty counter is incremented, the watchers of
the key are touched, and an effect is logged. `applyEdit` is that sequence, and
`deleteExpiredKeyAndPropagate_eq` shows that the deletion of an expired key, which logs before it
touches, is the same edit as a DEL.

The lemmas of the second half say what a sequence of edits leaves alone, what it does to the slots
and to the dirty counter, and what it appends to the log when there is room.
-/

set_option autoImplicit false
set_option relaxedAutoImplicit false

namespace RedisCvlr.Keyspace

open RedisCvlr.Library RedisCvlr.Model RedisCvlr.Watch

variable {K C : ℕ}

/-! ### Configurations -/

/-- The configuration fields of a world; no step changes them. -/
structure Config where
  role : Role
  caller : Caller
  allowAccessExpired : Bool
  expirePaused : Bool
  clusterEnabled : Bool
  confAllowsExpireDel : Bool
  deriving DecidableEq

/-- The configuration of a world. -/
def config (w : World K C) : Config :=
  ⟨w.role, w.caller, w.allowAccessExpired, w.expirePaused, w.clusterEnabled, w.confAllowsExpireDel⟩

section Config

variable (w : World K C)

@[simp] theorem config_role : (config w).role = w.role := rfl

@[simp] theorem config_caller : (config w).caller = w.caller := rfl

@[simp] theorem config_allowAccessExpired :
    (config w).allowAccessExpired = w.allowAccessExpired := rfl

@[simp] theorem config_expirePaused : (config w).expirePaused = w.expirePaused := rfl

@[simp] theorem config_clusterEnabled : (config w).clusterEnabled = w.clusterEnabled := rfl

@[simp] theorem config_confAllowsExpireDel :
    (config w).confAllowsExpireDel = w.confAllowsExpireDel := rfl

end Config

/-- An empty world that carries the given configuration. -/
def emptyWith (cfg : Config) (t : Ms) : World K C :=
  { World.empty t with
    role := cfg.role
    caller := cfg.caller
    allowAccessExpired := cfg.allowAccessExpired
    expirePaused := cfg.expirePaused
    clusterEnabled := cfg.clusterEnabled
    confAllowsExpireDel := cfg.confAllowsExpireDel }

@[simp] theorem config_emptyWith (cfg : Config) (t : Ms) :
    config (emptyWith cfg t : World K C) = cfg := rfl

/-! ### Edits -/

/-- A change of one slot. -/
inductive Edit
  | delete
  | put (val : Str) (expireAt : Ms)
  | retime (time : Ms)
  | persist
  deriving DecidableEq

/-- The slot after an edit. -/
def Edit.slot : Edit → Slot → Slot
  | .delete, _ => Slot.absent
  | .put val expireAt, _ => ⟨true, .str val, expireAt⟩
  | .retime time, s => { s with expireAt := time }
  | .persist, s => { s with expireAt := noExpire }

/-- The effect that propagates an edit. -/
def Edit.effect (k : Fin K) : Edit → Effect K
  | .delete => .del k
  | .put val expireAt => .set k val expireAt
  | .retime time => .pExpireAt k time
  | .persist => .persist k

@[simp] theorem Edit.effect_key (k : Fin K) (e : Edit) : (e.effect k).key? = some k := by
  cases e <;> rfl

/-- Applies an edit to the slot of a key, with the bookkeeping of a write. -/
def applyEdit (w : World K C) (edit : Fin K × Edit) : World K C :=
  propagate (w.setSlot edit.1 (edit.2.slot (w.slots edit.1))) edit.1 (edit.2.effect edit.1)

/-- Applies a list of edits in order. -/
def applyEdits (w : World K C) (edits : List (Fin K × Edit)) : World K C := edits.foldl applyEdit w

@[simp] theorem applyEdits_nil (w : World K C) : applyEdits w [] = w := rfl

@[simp] theorem applyEdits_cons (w : World K C) (edit : Fin K × Edit)
    (edits : List (Fin K × Edit)) :
    applyEdits w (edit :: edits) = applyEdits (applyEdit w edit) edits := rfl

/-- An edit is a slot change, a touch, and the bookkeeping of the log and the counter. -/
theorem applyEdit_eq (w : World K C) (k : Fin K) (e : Edit) :
    applyEdit w (k, e) =
      withUnit (touchWatchedKey (w.setSlot k (e.slot (w.slots k))) k false)
        (w.repl.push (e.effect k)) (w.dirty + 1) w.nesting := by
  have htouch := touchWatchedKey_withUnit (w.setSlot k (e.slot (w.slots k))) k false w.repl
    (w.dirty + 1) w.nesting
  have hcounted : withUnit (w.setSlot k (e.slot (w.slots k))) w.repl (w.dirty + 1) w.nesting =
      { w.setSlot k (e.slot (w.slots k)) with
        dirty := (w.setSlot k (e.slot (w.slots k))).dirty + 1 } := rfl
  rw [applyEdit, propagate]
  simp only
  rw [keyModified, ← hcounted, htouch]
  rfl

/-- The deletion of an expired key is the edit of a DEL. -/
theorem deleteExpiredKeyAndPropagate_eq (w : World K C) (k : Fin K) :
    deleteExpiredKeyAndPropagate w k = applyEdit w (k, .delete) := by
  rw [applyEdit_eq]
  exact touchWatchedKey_withUnit (w.setSlot k Slot.absent) k true _ _ _

/-! ### What edits change -/

section Frame

variable (w : World K C) (k : Fin K) (e : Edit)

/-- An edit changes the slot of its key, the log and the dirty counter, and what a touch changes. -/
theorem applyEdit_frame : WatchFrame
    (withUnit (w.setSlot k (e.slot (w.slots k))) (w.repl.push (e.effect k)) (w.dirty + 1) w.nesting)
    (applyEdit w (k, e)) := by
  obtain ⟨clients, watched, earlyReturns, htouch⟩ :=
    touchWatchedKey_frame (w.setSlot k (e.slot (w.slots k))) k false
  rw [applyEdit_eq, htouch]
  exact ⟨clients, watched, earlyReturns, rfl⟩

@[simp] theorem applyEdit_slots :
    (applyEdit w (k, e)).slots = Function.update w.slots k (e.slot (w.slots k)) := by
  obtain ⟨_, _, _, h⟩ := applyEdit_frame w k e
  rw [h]
  rfl

@[simp] theorem applyEdit_clock : (applyEdit w (k, e)).clock = w.clock := by
  obtain ⟨_, _, _, h⟩ := applyEdit_frame w k e
  rw [h]
  rfl

@[simp] theorem applyEdit_config : config (applyEdit w (k, e)) = config w := by
  obtain ⟨_, _, _, h⟩ := applyEdit_frame w k e
  rw [h]
  rfl

@[simp] theorem applyEdit_repl : (applyEdit w (k, e)).repl = w.repl.push (e.effect k) := by
  obtain ⟨_, _, _, h⟩ := applyEdit_frame w k e
  rw [h]
  rfl

@[simp] theorem applyEdit_dirty : (applyEdit w (k, e)).dirty = w.dirty + 1 := by
  obtain ⟨_, _, _, h⟩ := applyEdit_frame w k e
  rw [h]
  rfl

@[simp] theorem applyEdit_nesting : (applyEdit w (k, e)).nesting = w.nesting := by
  obtain ⟨_, _, _, h⟩ := applyEdit_frame w k e
  rw [h]
  rfl

/-- Edits do not read the nesting depth. -/
theorem applyEdit_withNesting (n : ℕ) :
    applyEdit { w with nesting := n } (k, e) = { applyEdit w (k, e) with nesting := n } := by
  rw [applyEdit_eq, applyEdit_eq]
  change withUnit (touchWatchedKey (withUnit (w.setSlot k (e.slot (w.slots k))) w.repl w.dirty n)
    k false) _ _ _ = _
  rw [touchWatchedKey_withUnit]
  rfl

end Frame

section Sequences

variable (w : World K C) (edits : List (Fin K × Edit))

@[simp] theorem applyEdits_clock : (applyEdits w edits).clock = w.clock := by
  induction edits generalizing w with
  | nil => rfl
  | cons edit rest ih => rw [applyEdits_cons, ih, applyEdit_clock]

@[simp] theorem applyEdits_config : config (applyEdits w edits) = config w := by
  induction edits generalizing w with
  | nil => rfl
  | cons edit rest ih => rw [applyEdits_cons, ih, applyEdit_config]

@[simp] theorem applyEdits_nesting : (applyEdits w edits).nesting = w.nesting := by
  induction edits generalizing w with
  | nil => rfl
  | cons edit rest ih => rw [applyEdits_cons, ih, applyEdit_nesting]

@[simp] theorem applyEdits_dirty : (applyEdits w edits).dirty = w.dirty + edits.length := by
  induction edits generalizing w with
  | nil => rfl
  | cons edit rest ih =>
    rw [applyEdits_cons, ih, applyEdit_dirty, List.length_cons]
    omega

theorem applyEdits_withNesting (n : ℕ) :
    applyEdits { w with nesting := n } edits = { applyEdits w edits with nesting := n } := by
  induction edits generalizing w with
  | nil => rfl
  | cons edit rest ih => rw [applyEdits_cons, applyEdits_cons, applyEdit_withNesting, ih]

end Sequences

/-! ### The edits of one key -/

/-- The edits of a list that are about a key. -/
def editsOn (k : Fin K) (edits : List (Fin K × Edit)) : List Edit :=
  (edits.filter fun edit ↦ edit.1 == k).map Prod.snd

@[simp] theorem editsOn_nil (k : Fin K) : editsOn k [] = [] := rfl

@[simp] theorem editsOn_cons_self (k : Fin K) (e : Edit) (edits : List (Fin K × Edit)) :
    editsOn k ((k, e) :: edits) = e :: editsOn k edits := by
  simp [editsOn]

theorem editsOn_cons_of_ne {k k' : Fin K} (hne : k' ≠ k) (e : Edit)
    (edits : List (Fin K × Edit)) : editsOn k ((k', e) :: edits) = editsOn k edits := by
  simp [editsOn, hne]

theorem mem_editsOn {k : Fin K} {e : Edit} {edits : List (Fin K × Edit)} :
    e ∈ editsOn k edits ↔ (k, e) ∈ edits := by
  simp [editsOn]

/-- Edits of one key. -/
theorem editsOn_map (k k' : Fin K) (es : List Edit) :
    editsOn k' (es.map fun e ↦ (k, e)) = if k = k' then es else [] := by
  induction es with
  | nil => simp
  | cons e rest ih =>
    by_cases hk : k = k'
    · subst hk
      rw [List.map_cons, editsOn_cons_self, ih, if_pos rfl, if_pos rfl]
    · rw [List.map_cons, editsOn_cons_of_ne hk, ih, if_neg hk, if_neg hk]

/-- The slot of a key after a list of edits is its slot after the edits of that key. -/
theorem applyEdits_slots (w : World K C) (edits : List (Fin K × Edit)) (k : Fin K) :
    (applyEdits w edits).slots k = (editsOn k edits).foldl (fun s e ↦ e.slot s) (w.slots k) := by
  induction edits generalizing w with
  | nil => rfl
  | cons edit rest ih =>
    obtain ⟨k', e⟩ := edit
    rw [applyEdits_cons, ih, applyEdit_slots]
    by_cases hk : k' = k
    · subst hk
      rw [editsOn_cons_self, Function.update_self, List.foldl_cons]
    · rw [editsOn_cons_of_ne hk, Function.update_of_ne (Ne.symm hk)]

/-! ### The log -/

section Log

/-- Pushing with room appends to the entries. -/
theorem entries_push {log : ReplLog K} (hroom : log.len < replCap) (e : Effect K) :
    (log.push e).entries = log.entries ++ [e] ∧ (log.push e).len = log.len + 1 := by
  rw [ReplLog.push, if_pos hroom]
  refine ⟨?_, rfl⟩
  rw [ReplLog.entries, PrefixArray.contents_write_push _ hroom]
  rfl

/-- Edits with room in the log append their effects, in order. -/
theorem entries_applyEdits (w : World K C) (edits : List (Fin K × Edit))
    (hroom : w.repl.len + edits.length ≤ replCap) :
    (applyEdits w edits).repl.entries =
        w.repl.entries ++ edits.map (fun edit ↦ edit.2.effect edit.1) ∧
      (applyEdits w edits).repl.len = w.repl.len + edits.length := by
  induction edits generalizing w with
  | nil => simp
  | cons edit rest ih =>
    rw [List.length_cons] at hroom
    obtain ⟨hentries, hlen⟩ := entries_push (show w.repl.len < replCap by omega)
      (edit.2.effect edit.1)
    obtain ⟨hrest, hrestLen⟩ := ih (applyEdit w edit)
      (by rw [applyEdit_repl, hlen]; omega)
    rw [applyEdits_cons, hrest, hrestLen, applyEdit_repl, hentries, hlen]
    refine ⟨by simp, by rw [List.length_cons]; omega⟩

end Log

end RedisCvlr.Keyspace
