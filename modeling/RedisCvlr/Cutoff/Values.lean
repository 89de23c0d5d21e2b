import RedisCvlr.Keyspace.Mapping
import RedisCvlr.Library.Stutter
import RedisCvlr.Model.Nondet

/-!
# Four values are enough

No step looks into a value: values are stored, replied and propagated. So renaming the values of a
run, injectively or not, renames what the run shows and changes nothing else (`values_opaque`). The
comment of `draw_str` relies on this: its four values are as discriminating as all values for
properties that compare values for equality. `drawn_values_cutoff` makes that precise: three of the
drawn values stand for any three given ones, and the fourth for all others.
-/

set_option autoImplicit false
set_option relaxedAutoImplicit false

namespace RedisCvlr.Cutoff

open RedisCvlr.Library RedisCvlr.Model RedisCvlr.Watch RedisCvlr.Keyspace

variable {K C : ℕ}

/-! ### Renaming -/

section Renaming

variable (f : Str → Str)

/-- A value under a renaming. -/
def renameValue : Value → Value
  | .str s => .str (f s)

/-- A slot under a renaming; the value of an absent slot is not one of the keyspace. -/
def renameSlot (s : Slot) : Slot :=
  if s.present then { s with value := renameValue f s.value } else s

/-- An edit under a renaming. -/
def renameEdit : Edit → Edit
  | .put val expireAt => .put (f val) expireAt
  | .delete => .delete
  | .retime time => .retime time
  | .persist => .persist

/-- An operation under a renaming. -/
def renameOp : KeyOp → KeyOp
  | .set val cond ttl getOld => .set (f val) cond ttl getOld
  | op => op

/-- A command under a renaming. -/
def renameCmd : Cmd K C → Cmd K C
  | .set key val cond ttl get => .set key (f val) cond ttl get
  | command => command

/-- A step under a renaming. -/
def renameStep : Step K C → Step K C
  | .cmd c command => .cmd c (renameCmd f command)
  | .activeExpire => .activeExpire
  | .clockTick d => .clockTick d

/-- A reply under a renaming. -/
def renameReply : Reply K → Reply K
  | .str s => .str (f s)
  | reply => reply

/-- An effect under a renaming. -/
def renameEffect : Effect K → Effect K
  | .set key val pxat => .set key (f val) pxat
  | effect => effect

/-- A log under a renaming. -/
def renameLog (log : ReplLog K) : ReplLog K :=
  ⟨fun i ↦ (log.ops i).map (renameEffect f), log.len⟩

/-- A world under a renaming. -/
def renameWorld (w : World K C) : World K C :=
  { w with
    slots := fun k ↦ renameSlot f (w.slots k)
    repl := renameLog f w.repl }

end Renaming

variable {f : Str → Str}

/-! ### One slot -/

section Slots

variable {cfg : Config} {now : Ms} {s : Slot}

@[simp] theorem renameSlot_present : (renameSlot f s).present = s.present := by
  unfold renameSlot
  split_ifs <;> rfl

@[simp] theorem renameSlot_expireAt : (renameSlot f s).expireAt = s.expireAt := by
  unfold renameSlot
  split_ifs <;> rfl

@[simp] theorem renameSlot_hasTtl : (renameSlot f s).hasTtl = s.hasTtl := by
  rw [Slot.hasTtl, renameSlot_expireAt, Slot.hasTtl]

theorem renameSlot_value (hpresent : s.present = true) :
    (renameSlot f s).value = renameValue f s.value := by
  rw [renameSlot, if_pos hpresent]

@[simp] theorem expired_rename : cfg.expired now (renameSlot f s) = cfg.expired now s := by
  rw [Config.expired, Config.expired, renameSlot_hasTtl, renameSlot_expireAt]

@[simp] theorem sees_rename : cfg.sees now (renameSlot f s) = cfg.sees now s := by
  rw [Config.sees, Config.sees, renameSlot_present, expired_rename]

@[simp] theorem purges_rename (force : Bool) :
    cfg.purges force now (renameSlot f s) = cfg.purges force now s := by
  rw [Config.purges, Config.purges, renameSlot_present, expired_rename]

theorem slot_rename (e : Edit) :
    (renameEdit f e).slot (renameSlot f s) = renameSlot f (e.slot s) := by
  cases e with
  | delete => rfl
  | put val expireAt => rfl
  | retime time =>
    cases hpresent : s.present <;> simp [renameEdit, Edit.slot, renameSlot, hpresent]
  | persist =>
    cases hpresent : s.present <;> simp [renameEdit, Edit.slot, renameSlot, hpresent]

end Slots

/-! ### One operation -/

section Operations

variable {cfg : Config} {now : Ms} {s : Slot} {op : KeyOp}

@[simp] theorem renameOp_writes : (renameOp f op).writes = op.writes := by
  cases op <;> rfl

theorem write?_rename :
    (renameOp f op).write? cfg now (renameSlot f s) = (op.write? cfg now s).map (renameEdit f) := by
  cases op with
  | set val cond ttl getOld =>
    simp only [renameOp, KeyOp.write?, sees_rename, purges_rename, renameSlot_present,
      renameSlot_expireAt]
    split_ifs <;> rfl
  | del =>
    simp only [renameOp, KeyOp.write?, sees_rename]
    split_ifs <;> rfl
  | expire time cond =>
    simp only [renameOp, KeyOp.write?, sees_rename, renameSlot_expireAt]
    split_ifs <;> rfl
  | persist =>
    simp only [renameOp, KeyOp.write?, sees_rename, renameSlot_hasTtl]
    split_ifs <;> rfl
  | get => rfl
  | existsKey => rfl
  | type => rfl
  | pttl => rfl

/-- The edits of a renamed operation are the renamed edits. -/
theorem edits_rename :
    (renameOp f op).edits cfg now (renameSlot f s) = (op.edits cfg now s).map (renameEdit f) := by
  rw [KeyOp.edits, KeyOp.edits, write?_rename, renameOp_writes, purges_rename, List.map_append,
    Option.toList_map]
  split_ifs <;> rfl

/-- The old value in a reply is the renamed one. -/
theorem oldValueReply_rename :
    (oldValueReply (if cfg.sees now s then some (renameSlot f s).value else none) : Reply K) =
      renameReply f (oldValueReply (if cfg.sees now s then some s.value else none)) := by
  cases hsees : cfg.sees now s with
  | false => rfl
  | true =>
    rw [if_pos rfl, if_pos rfl, renameSlot_value (Config.present_of_sees hsees)]
    cases s.value
    rfl

/-- The reply to a renamed operation is the renamed reply. -/
theorem reply_rename :
    ((renameOp f op).reply cfg now (renameSlot f s) : Reply K) =
      renameReply f (op.reply cfg now s) := by
  cases op with
  | set val cond ttl getOld =>
    simp only [renameOp, KeyOp.reply, sees_rename, oldValueReply_rename]
    split_ifs <;> rfl
  | get => simp only [renameOp, KeyOp.reply, sees_rename, oldValueReply_rename]
  | type =>
    simp only [renameOp, KeyOp.reply, sees_rename]
    split_ifs <;> rfl
  | expire time cond =>
    simp only [renameOp, KeyOp.reply, sees_rename, renameSlot_expireAt]
    rfl
  | persist =>
    simp only [renameOp, KeyOp.reply, sees_rename, renameSlot_hasTtl]
    rfl
  | pttl =>
    simp only [renameOp, KeyOp.reply, sees_rename, renameSlot_hasTtl, renameSlot_expireAt]
    rfl
  | del =>
    simp only [renameOp, KeyOp.reply, sees_rename]
    rfl
  | existsKey =>
    simp only [renameOp, KeyOp.reply, sees_rename]
    rfl

end Operations

/-! ### The map of worlds -/

/-- The renaming as a map of worlds. -/
def renameMap (f : Str → Str) : Mapping K where
  slot := renameSlot f
  edit := renameEdit f
  effect := renameEffect f
  clock := id
  slot_present _ := renameSlot_present
  edit_delete := rfl
  edit_slot e _ := slot_rename e
  edit_effect _ e := by cases e <;> rfl

/-! ### Steps -/

/-- What a step shows under a renaming. -/
def renameOutput (f : Str → Str) (output : Option (Reply K) × List (Effect K)) :
    Option (Reply K) × List (Effect K) :=
  (output.1.map (renameReply f), output.2.map (renameEffect f))

section Steps

variable (w : World K C)

theorem keyOp?_renameCmd (command : Cmd K C) :
    keyOp? (renameCmd f command) =
      (keyOp? command).map fun target ↦ (target.1, renameOp f target.2) := by
  cases command <;> rfl

theorem keyIsExpired_rename (k : Fin K) :
    keyIsExpired (renameWorld f w) k = keyIsExpired w k := by
  rw [keyIsExpired_eq, keyIsExpired_eq]
  exact expired_rename

theorem isDue_rename (k : Fin K) : isDue (renameWorld f w) k = isDue w k := by
  rw [isDue_eq, isDue_eq]
  show ((renameSlot f (w.slots k)).present && (renameSlot f (w.slots k)).hasTtl &&
    decide (w.clock ≥ (renameSlot f (w.slots k)).expireAt)) = _
  rw [renameSlot_present, renameSlot_hasTtl, renameSlot_expireAt]

theorem renameCmd_of_keyless {command : Cmd K C} (hkeyless : keyOp? command = none) :
    renameCmd f command = command := by
  obtain rfl | rfl | ⟨client, k, rfl⟩ | ⟨client, rfl⟩ := of_keyOp_eq_none hkeyless <;> rfl

/-- A renamed step leads to the renamed world. -/
theorem next_rename (s : Step K C) :
    (renameWorld f w).next (renameStep f s) = renameWorld f (w.next s) := by
  cases s with
  | clockTick d => rfl
  | activeExpire => exact Mapping.next_activeExpire (M := renameMap f) (isDue_rename w)
  | cmd c command =>
    exact Mapping.next_cmd (M := renameMap f) (keyOp?_renameCmd command) renameCmd_of_keyless
      (fun _ _ _ ↦ edits_rename) fun k _ ↦ keyIsExpired_rename w k

/-- A renamed command gets the renamed reply. -/
theorem execCmd_reply_rename (c : Fin C) (command : Cmd K C) :
    (execCmd (renameWorld f w) c (renameCmd f command)).2 =
      renameReply f (execCmd w c command).2 := by
  have hrenamed := keyOp?_renameCmd (f := f) command
  cases hop : keyOp? command with
  | some target =>
    obtain ⟨k, op⟩ := target
    rw [hop] at hrenamed
    rw [execCmd_eq_outcome w c hop, execCmd_eq_outcome _ c hrenamed]
    exact reply_rename
  | none =>
    have hsame : (execCmd (renameWorld f w) c command).2 = (execCmd w c command).2 :=
      Mapping.reply_keyless (M := renameMap f) hop fun k _ ↦ keyIsExpired_rename w k
    rw [renameCmd_of_keyless hop, hsame]
    obtain rfl | rfl | ⟨client, k, rfl⟩ | ⟨client, rfl⟩ := of_keyOp_eq_none hop <;> rfl

/-- A renamed step shows the renamed output. -/
theorem stepOutput_rename (s : Step K C) :
    stepOutput (renameWorld f w) (renameStep f s) = renameOutput f (stepOutput w s) := by
  have hemitted : emitted (renameWorld f w) (renameStep f s) =
      (emitted w s).map (renameEffect f) :=
    Mapping.emitted_map (M := renameMap f) (next_rename { w with repl := ReplLog.new } s)
  refine Prod.ext ?_ hemitted
  cases s with
  | clockTick d => rfl
  | activeExpire => rfl
  | cmd c command =>
    show (step _ (.cmd c (renameCmd f command))).2 = (step w (.cmd c command)).2.map (renameReply f)
    rw [step_reply, step_reply, Option.map_some, execCmd_reply_rename]

end Steps

/-! ### Runs -/

/-- Renaming the values of a run renames what it shows and where it ends, and changes nothing else;
the renaming need not be injective. -/
theorem values_opaque (f : Str → Str) (w : World K C) (schedule : List (Step K C)) :
    Machine.observe World.next stepOutput (renameWorld f w) (schedule.map (renameStep f)) =
        (Machine.observe World.next stepOutput w schedule).map (renameOutput f) ∧
      runSchedule (renameWorld f w) (schedule.map (renameStep f)) =
        renameWorld f (runSchedule w schedule) := by
  induction schedule generalizing w with
  | nil => exact ⟨rfl, rfl⟩
  | cons s rest ih =>
    obtain ⟨hrest, hend⟩ := ih (w.next s)
    rw [← next_rename] at hrest hend
    exact ⟨congrArg₂ List.cons (stepOutput_rename w s) hrest, hend⟩

/-! ### The drawn values -/

/-- A value that `draw_str` draws. -/
def DrawnStr (val : Str) : Prop := ∃ stream, drawStr.value stream = val

/-- A step that sets no value but drawn ones. -/
def SetsDrawn : Step K C → Prop
  | .cmd _ (.set _ val _ _ _) => DrawnStr val
  | _ => True

/-- A renaming that keeps three values apart from each other and from all others. -/
def Separates (f : Str → Str) (vs : Fin 3 → Str) : Prop := ∀ v i, f v = f (vs i) ↔ v = vs i

/-- Three of the drawn values. -/
def drawnThree (i : Fin 3) : Str := drawnStr i.castSucc

section Drawn

theorem drawnStr_injective : Function.Injective drawnStr :=
  fun _ _ hsame ↦ Fin.ext (congrArg Str.len hsame)

theorem drawnThree_injective : Function.Injective drawnThree :=
  drawnStr_injective.comp (Fin.castSucc_injective 3)

/-- Each of the four values is drawn, from the stream of its id. -/
theorem drawnStr_drawn (id : Fin 4) : DrawnStr (drawnStr id) := by
  refine ⟨Stream'.const (UInt64.ofNat id), ?_⟩
  revert id
  decide

/-- The renaming of three values to drawn ones, and of all others to the fourth. -/
noncomputable def collapse (vs : Fin 3 → Str) : Str → Str :=
  Function.extend vs drawnThree fun _ ↦ drawnStr (Fin.last 3)

variable {vs : Fin 3 → Str}

theorem collapse_comp (hvs : Function.Injective vs) : collapse vs ∘ vs = drawnThree :=
  Function.extend_comp hvs _ _

theorem collapse_other {v : Str} (hother : ¬∃ i, vs i = v) :
    collapse vs v = drawnStr (Fin.last 3) :=
  Function.extend_apply' _ _ v hother

theorem collapse_separates (hvs : Function.Injective vs) : Separates (collapse vs) vs := by
  intro v i
  have hi : collapse vs (vs i) = drawnThree i := congrFun (collapse_comp hvs) i
  rw [hi]
  by_cases hv : ∃ j, vs j = v
  · obtain ⟨j, rfl⟩ := hv
    have hj : collapse vs (vs j) = drawnThree j := congrFun (collapse_comp hvs) j
    rw [hj, drawnThree_injective.eq_iff, hvs.eq_iff]
  · rw [collapse_other hv]
    refine iff_of_false (fun hsame ↦ ?_) fun hsame ↦ hv ⟨i, hsame.symm⟩
    exact Fin.castSucc_ne_last i (drawnStr_injective hsame).symm

theorem collapse_drawn (hvs : Function.Injective vs) (v : Str) : DrawnStr (collapse vs v) := by
  by_cases hv : ∃ j, vs j = v
  · obtain ⟨j, rfl⟩ := hv
    have hj : collapse vs (vs j) = drawnThree j := congrFun (collapse_comp hvs) j
    rw [hj]
    exact drawnStr_drawn j.castSucc
  · rw [collapse_other hv]
    exact drawnStr_drawn (Fin.last 3)

/-- A renaming to drawn values makes every step set drawn values. -/
theorem setsDrawn_rename {f : Str → Str} (hf : ∀ v, DrawnStr (f v)) (s : Step K C) :
    SetsDrawn (renameStep f s) := by
  cases s with
  | clockTick d => trivial
  | activeExpire => trivial
  | cmd c command =>
    cases command with
    | set key val cond ttl get => exact hf val
    | _ => trivial

/-- Renamed runs are admitted, for the guard reads the clock only. -/
theorem runs_rename {w : World K C} {schedule : List (Step K C)} (hruns : Runs w schedule) :
    Runs (renameWorld f w) (schedule.map (renameStep f)) := by
  induction schedule generalizing w with
  | nil => trivial
  | cons s rest ih =>
    refine ⟨?_, ?_⟩
    · cases s <;> exact hruns.1
    · rw [next_rename]
      exact ih hruns.2

end Drawn

/-- A property of runs that compares values with three given ones, and looks at them in no other
way, holds of every run from the empty world, for any three values, if and only if it holds for
three drawn values of the runs that set drawn values only. -/
theorem drawn_values_cutoff
    {P : (Fin 3 → Str) → World K C → List (Option (Reply K) × List (Effect K)) → Prop}
    (hP : ∀ f vs w outputs, Separates f vs →
      (P (f ∘ vs) (renameWorld f w) (outputs.map (renameOutput f)) ↔ P vs w outputs))
    (cfg : Config) (t : Ms) :
    let start : World K C := emptyWith cfg t
    (∀ vs, Function.Injective vs → ∀ schedule, Runs start schedule →
        P vs (runSchedule start schedule) (Machine.observe World.next stepOutput start schedule)) ↔
      ∀ schedule, Runs start schedule → (∀ s ∈ schedule, SetsDrawn s) →
        P drawnThree (runSchedule start schedule)
          (Machine.observe World.next stepOutput start schedule) := by
  intro start
  constructor
  · intro hall schedule hruns _
    exact hall drawnThree drawnThree_injective schedule hruns
  · intro hdrawn vs hvs schedule hruns
    have hstart : renameWorld (collapse vs) start = start := rfl
    obtain ⟨houtputs, hend⟩ := values_opaque (collapse vs) start schedule
    have hruns' : Runs start (schedule.map (renameStep (collapse vs))) :=
      runs_rename (f := collapse vs) hruns
    have hsets : ∀ s ∈ schedule.map (renameStep (collapse vs)), SetsDrawn s := by
      intro s hmem
      obtain ⟨s', -, rfl⟩ := List.mem_map.mp hmem
      exact setsDrawn_rename (collapse_drawn hvs) s'
    have hrenamed := hdrawn _ hruns' hsets
    rw [hstart] at houtputs hend
    rw [houtputs, hend, ← collapse_comp hvs] at hrenamed
    exact (hP _ _ _ _ (collapse_separates hvs)).mp hrenamed

/-- Where the first of three values is stored, it has been propagated. -/
def StoredPropagated (vs : Fin 3 → Str) (w : World K C)
    (outputs : List (Option (Reply K) × List (Effect K))) : Prop :=
  ∀ k, (w.slots k).present = true → (w.slots k).value = .str (vs 0) →
    ∃ output ∈ outputs, ∃ pxat, .set k (vs 0) pxat ∈ output.2

theorem storedPropagated_rename {f : Str → Str} {vs : Fin 3 → Str} (hf : Separates f vs)
    (w : World K C) (outputs : List (Option (Reply K) × List (Effect K))) :
    StoredPropagated (f ∘ vs) (renameWorld f w) (outputs.map (renameOutput f)) ↔
      StoredPropagated vs w outputs := by
  refine forall_congr' fun k ↦ ?_
  have hpresent : ((renameWorld f w).slots k).present = (w.slots k).present := renameSlot_present
  rw [hpresent]
  refine forall_congr' fun hstored ↦ imp_congr ?_ ?_
  · have hvalue : ((renameWorld f w).slots k).value = renameValue f (w.slots k).value :=
      renameSlot_value hstored
    rw [hvalue]
    cases (w.slots k).value with
    | str v => rw [renameValue, Value.str.injEq, Value.str.injEq, Function.comp_apply, hf v 0]
  · constructor
    · rintro ⟨_, houtput, pxat, hset⟩
      obtain ⟨output, hmem, rfl⟩ := List.mem_map.mp houtput
      obtain ⟨e, he, hrenamed⟩ := List.mem_map.mp hset
      cases e with
      | set key val time =>
        obtain ⟨rfl, hval, rfl⟩ := Effect.set.inj hrenamed
        rw [(hf val 0).mp hval] at he
        exact ⟨output, hmem, time, he⟩
      | _ => exact nomatch hrenamed
    · rintro ⟨output, hmem, pxat, hset⟩
      exact ⟨_, List.mem_map_of_mem hmem, pxat, List.mem_map_of_mem hset⟩

theorem drawn_values_cutoff_stored :
    let cfg : Config := ⟨.master, .normal, false, false, false, true⟩
    let start : World keyCount clientCount := emptyWith cfg 0
    (∀ vs, Function.Injective vs → ∀ schedule, Runs start schedule →
        StoredPropagated vs (runSchedule start schedule)
          (Machine.observe World.next stepOutput start schedule)) ↔
      ∀ schedule, Runs start schedule → (∀ s ∈ schedule, SetsDrawn s) →
        StoredPropagated drawnThree (runSchedule start schedule)
          (Machine.observe World.next stepOutput start schedule) :=
  drawn_values_cutoff (fun _ _ w outputs hf ↦ storedPropagated_rename hf w outputs) _ 0

end RedisCvlr.Cutoff
