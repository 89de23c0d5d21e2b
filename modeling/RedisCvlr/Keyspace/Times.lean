import RedisCvlr.Keyspace.Steps

/-!
# The expire times that slots hold

A slot gets its expire time from a SET or an EXPIRE that names it and whose time has not elapsed on
a master, keeps the time that it had, or has none. `slot_next_rule` is the case distinction on the
slot of a key in a step, and `mayStore_next` the one on its time: a property of the times that may
be installed is a property of the times that are stored (`StoresTimes.next`).
-/

set_option autoImplicit false
set_option relaxedAutoImplicit false

namespace RedisCvlr.Keyspace

open RedisCvlr.Library RedisCvlr.Model RedisCvlr.Watch

variable {K C : ℕ}

/-! ### Times in requests -/

/-- The absolute time that an operation asks for. -/
def KeyOp.time? : KeyOp → Option Ms
  | .set _ _ (.pxAt time) _ => some time
  | .expire time _ => some time
  | _ => none

/-- The key and the absolute time that a step asks for. -/
def requestedTime? : Step K C → Option (Fin K × Ms)
  | .cmd _ command =>
    match keyOp? command with
    | some (k, op) => op.time?.map fun time ↦ (k, time)
    | none => none
  | .activeExpire => none
  | .clockTick _ => none

/-! ### One operation -/

section Operation

variable {cfg : Config} {now : Ms} {s : Slot}

/-- The slot of a key after an operation on it. -/
def KeyOp.slotAfter (op : KeyOp) (cfg : Config) (now : Ms) (s : Slot) : Slot :=
  (op.edits cfg now s).foldl (fun s e ↦ e.slot s) s

/-- The times that a key may carry after an operation: none, the one that it had, or the one that
the operation asks for, when that has not elapsed. -/
def KeyOp.MayStore (op : KeyOp) (cfg : Config) (now : Ms) (s : Slot) (time : Ms) : Prop :=
  time = noExpire ∨ (s.present = true ∧ time = s.expireAt) ∨
    (op.time? = some time ∧ KeyOp.elapsed cfg now time = false)

/-- The case distinction on the slot after an operation: emptied, left alone, or written with a time
that the operation may store. -/
theorem slotAfter_rule (P : Slot → Prop) (op : KeyOp) (habsent : P Slot.absent) (hsame : P s)
    (hwritten : ∀ value time, op.MayStore cfg now s time → P ⟨true, value, time⟩) :
    P (op.slotAfter cfg now s) := by
  have hlookup : P (cfg.slotAfterLookup op.writes now s) := by
    unfold Config.slotAfterLookup
    split_ifs
    · exact habsent
    · exact hsame
  have hretimed : ∀ time, cfg.sees now s = true → op.MayStore cfg now s time →
      P { cfg.slotAfterLookup true now s with expireAt := time } := by
    intro time hsees htime
    rw [slotAfterLookup_of_sees hsees]
    show P ⟨s.present, s.value, time⟩
    rw [Config.present_of_sees hsees]
    exact hwritten s.value time htime
  unfold KeyOp.slotAfter
  rw [foldl_edits]
  cases hwrite : op.write? cfg now s with
  | none => exact hlookup
  | some e =>
    cases op with
    | set val cond ttl getOld =>
      simp only [KeyOp.write?] at hwrite
      split_ifs at hwrite with hallowed helapsed hspared
      · obtain rfl := Option.some.inj hwrite
        exact habsent
      · obtain rfl := Option.some.inj hwrite
        refine hwritten _ _ ?_
        cases ttl with
        | none => exact .inl rfl
        | keep =>
          cases hsees : cfg.sees now s with
          | true => exact .inr (.inl ⟨Config.present_of_sees hsees, rfl⟩)
          | false => exact .inl rfl
        | pxAt time => exact .inr (.inr ⟨rfl, (Bool.not_eq_true _).mp helapsed⟩)
    | del =>
      simp only [KeyOp.write?] at hwrite
      split_ifs at hwrite
      obtain rfl := Option.some.inj hwrite
      exact habsent
    | expire time cond =>
      simp only [KeyOp.write?] at hwrite
      split_ifs at hwrite with hallowed helapsed
      · obtain rfl := Option.some.inj hwrite
        exact habsent
      · obtain rfl := Option.some.inj hwrite
        exact hretimed time (Bool.and_eq_true_iff.mp hallowed).1
          (.inr (.inr ⟨rfl, (Bool.not_eq_true _).mp helapsed⟩))
    | persist =>
      simp only [KeyOp.write?] at hwrite
      split_ifs at hwrite with hallowed
      obtain rfl := Option.some.inj hwrite
      exact hretimed noExpire (Bool.and_eq_true_iff.mp hallowed).1 (.inl rfl)
    | get => simp [KeyOp.write?] at hwrite
    | existsKey => simp [KeyOp.write?] at hwrite
    | type => simp [KeyOp.write?] at hwrite
    | pttl => simp [KeyOp.write?] at hwrite

end Operation

/-! ### One step -/

section Step

variable (w : World K C) (s : Step K C) (k : Fin K)

/-- The times that a key may carry after a step. -/
def MayStore (time : Ms) : Prop :=
  time = noExpire ∨ ((w.slots k).present = true ∧ time = (w.slots k).expireAt) ∨
    (requestedTime? s = some (k, time) ∧ KeyOp.elapsed (config w) w.clock time = false)

/-- The case distinction on a slot after a step. -/
theorem slot_next_rule (P : Slot → Prop) (habsent : P Slot.absent) (hsame : P (w.slots k))
    (hwritten : ∀ value time, MayStore w s k time → P ⟨true, value, time⟩) :
    P ((w.next s).slots k) := by
  rw [next_slots]
  refine editsOn_rule w (fun edits ↦ P (edits.foldl (fun s (e : Edit) ↦ e.slot s) (w.slots k))) k s
    hsame (fun _ _ ↦ habsent) fun c command op hs hop ↦ ?_
  refine slotAfter_rule P op habsent hsame fun value time htime ↦ hwritten value time ?_
  refine htime.imp_right (Or.imp_right fun hasked ↦ ⟨?_, hasked.2⟩)
  simp [requestedTime?, hs, hop, hasked.1]

/-- A slot that is absent after a step is empty or was the same before. -/
theorem absent_next (habsent : ((w.next s).slots k).present = false) :
    (w.next s).slots k = Slot.absent ∨ (w.next s).slots k = w.slots k := by
  revert habsent
  exact slot_next_rule w s k
    (fun slot ↦ slot.present = false → slot = Slot.absent ∨ slot = w.slots k)
    (fun _ ↦ .inl rfl) (fun _ ↦ .inr rfl) fun _ _ _ hpresent ↦ absurd hpresent (by simp)

/-- The time of a key that is present after a step. -/
theorem mayStore_next (hpresent : ((w.next s).slots k).present = true) :
    MayStore w s k ((w.next s).slots k).expireAt := by
  revert hpresent
  exact slot_next_rule w s k
    (fun slot ↦ slot.present = true → MayStore w s k slot.expireAt)
    (fun hpresent ↦ absurd hpresent Bool.false_ne_true)
    (fun hpresent ↦ .inr (.inl ⟨hpresent, rfl⟩)) fun _ _ htime _ ↦ htime

end Step

/-! ### Properties of all stored times -/

/-- Every present key has no TTL or a time with the property. -/
def StoresTimes (P : Ms → Prop) (w : World K C) : Prop :=
  ∀ k, (w.slots k).present = true → (w.slots k).expireAt = noExpire ∨ P (w.slots k).expireAt

/-- Every absent slot is empty: it has no value and no TTL. -/
def AbsentEmpty (w : World K C) : Prop :=
  ∀ k, (w.slots k).present = false → w.slots k = Slot.absent

section Stored

variable {w : World K C} {s : Step K C}

theorem AbsentEmpty.next (h : AbsentEmpty w) (s : Step K C) : AbsentEmpty (w.next s) := by
  intro k habsent
  rcases absent_next w s k habsent with hempty | hsame
  · exact hempty
  · rw [hsame] at habsent ⊢
    exact h k habsent

/-- A property of the times that may be installed is a property of the times that are stored. -/
theorem StoresTimes.next {P : Ms → Prop} (h : StoresTimes P w)
    (hrequested : ∀ k time, requestedTime? s = some (k, time) →
      KeyOp.elapsed (config w) w.clock time = false → P time) : StoresTimes P (w.next s) := by
  intro k hpresent
  rcases mayStore_next w s k hpresent with hnone | ⟨hold, hsame⟩ | ⟨hasked, hfuture⟩
  · exact .inl hnone
  · rw [hsame]
    exact h k hold
  · exact .inr (hrequested k _ hasked hfuture)

/-- The same for a command outside a unit. -/
theorem StoresTimes.execCmd {P : Ms → Prop} {c : Fin C} {command : Cmd K C} (h : StoresTimes P w)
    (hrequested : ∀ k time, requestedTime? (.cmd c command) = some (k, time) →
      KeyOp.elapsed (config w) w.clock time = false → P time) :
    StoresTimes P (execCmd w c command).1 := by
  intro k
  rw [execCmd_slots]
  exact h.next hrequested k

theorem absentEmpty_emptyWith (cfg : Config) (t : Ms) :
    AbsentEmpty (emptyWith cfg t : World K C) := fun _ _ ↦ rfl

theorem storesTimes_emptyWith (P : Ms → Prop) (cfg : Config) (t : Ms) :
    StoresTimes P (emptyWith cfg t : World K C) :=
  fun _ hpresent ↦ absurd hpresent Bool.false_ne_true

end Stored

end RedisCvlr.Keyspace
