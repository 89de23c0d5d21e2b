import RedisCvlr.Keyspace.Steps

/-!
# What the log says

An effect describes a change of the keyspace without naming the command that caused it. `replay` is
that change, and `Fits` says where it makes sense: only a present key can be deleted or given a
time. `emitted_replays` says that the log of a step is complete and in order, for every
configuration: its effects fit one after the other, and replaying them takes the slots before the
step to the slots after it.
-/

set_option autoImplicit false
set_option relaxedAutoImplicit false

namespace RedisCvlr.Replication

open RedisCvlr.Library RedisCvlr.Library.Machine RedisCvlr.Model RedisCvlr.Keyspace

variable {K C : ℕ}

/-! ### Effects on a keyspace -/

/-- The keyspace after an effect. -/
def replay (slots : Fin K → Slot) : Effect K → Fin K → Slot
  | .multi => slots
  | .exec => slots
  | .set k val pxat => Function.update slots k ⟨true, .str val, pxat⟩
  | .del k => Function.update slots k Slot.absent
  | .pExpireAt k time => Function.update slots k { slots k with expireAt := time }
  | .persist k => Function.update slots k { slots k with expireAt := noExpire }

/-- A deletion or a change of the time is about a present key. -/
def Fits (slots : Fin K → Slot) : Effect K → Prop
  | .multi => True
  | .exec => True
  | .set _ _ _ => True
  | .del k => (slots k).present = true
  | .pExpireAt k _ => (slots k).present = true
  | .persist k => (slots k).present = true

/-- An edit other than a write of a value is about a present slot. -/
def EditFits (s : Slot) : Edit → Prop
  | .put _ _ => True
  | .delete => s.present = true
  | .retime _ => s.present = true
  | .persist => s.present = true

theorem EditFits.of_present {s : Slot} (hpresent : s.present = true) (e : Edit) : EditFits s e := by
  cases e with
  | put => trivial
  | delete => exact hpresent
  | retime => exact hpresent
  | persist => exact hpresent

theorem replay_effect (slots : Fin K → Slot) (k : Fin K) (e : Edit) :
    replay slots (e.effect k) = Function.update slots k (e.slot (slots k)) := by
  cases e <;> rfl

theorem fits_effect {slots : Fin K → Slot} {k : Fin K} {e : Edit} :
    Fits slots (e.effect k) ↔ EditFits (slots k) e := by
  cases e <;> exact Iff.rfl

/-- Effects fit one after the other when those of each key do. -/
theorem admissible_effects {slots : Fin K → Slot} {edits : List (Fin K × Edit)}
    (hkeys : ∀ k, Admissible (fun s e ↦ Edit.slot e s) EditFits (slots k) (editsOn k edits)) :
    Admissible replay Fits slots (edits.map fun edit ↦ edit.2.effect edit.1) := by
  induction edits generalizing slots with
  | nil => trivial
  | cons edit rest ih =>
    obtain ⟨k, e⟩ := edit
    have hk := hkeys k
    rw [editsOn_cons_self] at hk
    refine ⟨fits_effect.mpr hk.1, ih fun k' ↦ ?_⟩
    rw [replay_effect]
    by_cases heq : k' = k
    · subst heq
      rw [Function.update_self]
      exact hk.2
    · have hk' := hkeys k'
      rw [editsOn_cons_of_ne (Ne.symm heq)] at hk'
      rw [Function.update_of_ne heq]
      exact hk'

/-- Replaying the effects of edits applies the edits of each key to its slot. -/
theorem run_effects (slots : Fin K → Slot) (edits : List (Fin K × Edit)) (k : Fin K) :
    run replay slots (edits.map fun edit ↦ edit.2.effect edit.1) k =
      (editsOn k edits).foldl (fun s e ↦ e.slot s) (slots k) := by
  induction edits generalizing slots with
  | nil => rfl
  | cons edit rest ih =>
    obtain ⟨k', e⟩ := edit
    rw [List.map_cons, run_cons, ih, replay_effect]
    by_cases hk : k' = k
    · subst hk
      rw [editsOn_cons_self, Function.update_self, List.foldl_cons]
    · rw [editsOn_cons_of_ne hk, Function.update_of_ne (Ne.symm hk)]

/-! ### The edits of a step fit -/

/-- The write of an operation fits the slot that its lookups leave. -/
theorem write?_fits {op : KeyOp} {cfg : Config} {now : Ms} {s : Slot} {e : Edit}
    (hwrite : op.write? cfg now s = some e) : EditFits (cfg.slotAfterLookup op.writes now s) e := by
  have hseen : cfg.sees now s = true → (cfg.slotAfterLookup true now s).present = true := by
    intro hsees
    rw [slotAfterLookup_of_sees hsees]
    exact Config.present_of_sees hsees
  unfold KeyOp.write? at hwrite
  cases op with
  | set val cond ttl getOld =>
    simp only at hwrite
    split_ifs at hwrite with hallowed helapsed hspared
    · rw [Bool.and_eq_true, Bool.not_eq_true'] at hspared
      apply EditFits.of_present
      show (if cfg.purges true now s then Slot.absent else s).present = true
      rw [hspared.2, if_neg Bool.false_ne_true, hspared.1]
    · obtain rfl := Option.some.inj hwrite
      trivial
  | del =>
    simp only at hwrite
    split_ifs at hwrite with hsees
    exact EditFits.of_present (hseen hsees) e
  | expire time cond =>
    simp only at hwrite
    split_ifs at hwrite with hsees
    all_goals exact EditFits.of_present (hseen (Bool.and_eq_true_iff.mp hsees).1) e
  | persist =>
    simp only at hwrite
    split_ifs at hwrite with hsees
    exact EditFits.of_present (hseen (Bool.and_eq_true_iff.mp hsees).1) e
  | get => exact nomatch hwrite
  | existsKey => exact nomatch hwrite
  | type => exact nomatch hwrite
  | pttl => exact nomatch hwrite

theorem admissible_edits (op : KeyOp) (cfg : Config) (now : Ms) (s : Slot) :
    Admissible (fun s e ↦ Edit.slot e s) EditFits s (op.edits cfg now s) := by
  have hlookup : run (fun s e ↦ Edit.slot e s) s
      (if cfg.purges op.writes now s then [.delete] else []) =
        cfg.slotAfterLookup op.writes now s := by
    unfold Config.slotAfterLookup
    split_ifs <;> rfl
  unfold KeyOp.edits
  rw [admissible_append, hlookup]
  constructor
  · split_ifs with hpurges
    · simp only [Config.purges, Bool.and_eq_true] at hpurges
      exact ⟨hpurges.1.1.1.1, trivial⟩
    · trivial
  · cases hwrite : op.write? cfg now s with
    | none => trivial
    | some e => exact ⟨write?_fits hwrite, trivial⟩

/-- The log of a step is complete and in order. -/
theorem emitted_replays (hK : K ≤ replCap) (w : World K C) (s : Step K C) :
    Admissible replay Fits w.slots (emitted w s) ∧
      run replay w.slots (emitted w s) = (w.next s).slots := by
  rw [emitted_eq w s hK]
  constructor
  · apply admissible_effects
    intro k
    apply editsOn_rule w _ k s trivial
    · intro _ hdue
      exact ⟨(Bool.and_eq_true_iff.mp hdue).1, trivial⟩
    · intro _ _ op _ _
      exact admissible_edits op _ _ _
  · ext k : 1
    rw [run_effects, next_slots]

end RedisCvlr.Replication
