import RedisCvlr.Keyspace.Steps

/-!
# The logical store

What clients are meant to see is a map from keys to values with an expire time, in which a key whose
time has passed does not exist. `Store` is that map with its own step function: an abstract account
of the commands that knows nothing of lazy deletion, of the seven exits of `expireIfNeeded` or of
the physical presence of an expired slot.

`logical_next` and `observedReply_eq` show that the model refines the logical store under every
configuration that hides expired keys, for every reply but that of DBSIZE. `snapshotVisible_eq` says
that the snapshot of the source is the logical store.
-/

set_option autoImplicit false
set_option relaxedAutoImplicit false

namespace RedisCvlr.Keyspace

open RedisCvlr.Library RedisCvlr.Model RedisCvlr.Watch

variable {K C : ℕ}

/-! ### Entries -/

/-- A value with its expire time. -/
structure Entry where
  value : Value
  expireAt : Ms
  deriving DecidableEq

namespace Entry

/-- The entry carries a time. -/
def hasTtl (e : Entry) : Bool := e.expireAt != noExpire

/-- The time of the entry has passed. -/
def gone (now : Ms) (e : Entry) : Bool := e.hasTtl && decide (now > e.expireAt)

/-- The active cycle removes the entry. -/
def due (now : Ms) (e : Entry) : Bool := e.hasTtl && decide (now ≥ e.expireAt)

/-- What `World.snapshotVisible` shows of an entry. -/
def snapshot (e : Entry) : VType × Str × Ms :=
  match e.value with
  | .str s => (.str, s, e.expireAt)

theorem snapshot_injective : Function.Injective snapshot := by
  intro ⟨⟨s⟩, expireAt⟩ ⟨⟨s'⟩, expireAt'⟩ hsame
  obtain ⟨-, rfl, rfl⟩ : VType.str = VType.str ∧ s = s' ∧ expireAt = expireAt' := by
    simpa [snapshot] using hsame
  rfl

end Entry

/-- An entry as it is seen: it does not exist when its time has passed. -/
def alive (now : Ms) (entry : Option Entry) : Option Entry := entry.filter fun e ↦ !e.gone now

/-! ### Operations on an entry -/

namespace KeyOp

/-- The entry of a key after an operation. -/
def entryAfter (op : KeyOp) (cfg : Config) (now : Ms) (old : Option Entry) : Option Entry :=
  match op with
  | set val cond ttl _ =>
    if !setAllowed cond old.isSome then old
    else if ttlElapsed cfg now ttl then none
    else alive now (some ⟨.str val,
      installedExpire ttl old.isSome ((old.map Entry.expireAt).getD noExpire)⟩)
  | del => none
  | expire time cond =>
    match old with
    | none => none
    | some e =>
      if expireCondFails cond e.expireAt time then some e
      else if elapsed cfg now time then none
      else alive now (some { e with expireAt := time })
  | persist => old.map fun e ↦ { e with expireAt := noExpire }
  | get => old
  | existsKey => old
  | type => old
  | pttl => old

theorem entryAfter_of_not_writes {op : KeyOp} (hwrites : op.writes = false) (cfg : Config)
    (now : Ms) (old : Option Entry) : op.entryAfter cfg now old = old := by
  cases op <;> first | rfl | exact nomatch hwrites

/-- The reply of an operation on an entry. -/
def entryReply (op : KeyOp) (now : Ms) (old : Option Entry) : Reply K :=
  match op with
  | set _ cond _ getOld =>
    if getOld then oldValueReply (old.map Entry.value)
    else if setAllowed cond old.isSome then .ok
    else .nil
  | get => oldValueReply (old.map Entry.value)
  | del => .int (if old.isSome then 1 else 0)
  | existsKey => .int (if old.isSome then 1 else 0)
  | type =>
    match old with
    | some e => .type e.value.vtype
    | none => .noType
  | expire time cond =>
    .int (if old.any fun e ↦ !expireCondFails cond e.expireAt time then 1 else 0)
  | persist => .int (if old.any Entry.hasTtl then 1 else 0)
  | pttl =>
    match old with
    | some e => .int (if e.hasTtl then wrapI64 (e.expireAt - now) else -1)
    | none => .int (-2)

end KeyOp

/-! ### The store -/

/-- The active cycle runs. -/
def Config.sweeps (cfg : Config) : Bool := !(cfg.role == .readOnlyReplica || cfg.expirePaused)

/-- The keyspace that clients see, and the time. -/
@[ext] structure Store (K : ℕ) where
  clock : Ms
  entries : Fin K → Option Entry

namespace Store

/-- The entry of a key after a step. -/
def entryNext (cfg : Config) (now : Ms) (k : Fin K) (old : Option Entry) :
    Step K C → Option Entry
  | .cmd _ command =>
    match keyOp? command with
    | some (k', op) => if k' = k then op.entryAfter cfg now old else old
    | none => old
  | .activeExpire =>
    if cfg.sweeps then old.filter fun e ↦ !e.due now else old
  | .clockTick d => alive (wrapI64 (now + d)) old

/-- The step of the logical store. -/
def next (cfg : Config) (st : Store K) (s : Step K C) : Store K where
  clock :=
    match s with
    | .clockTick d => wrapI64 (st.clock + d)
    | .cmd _ _ => st.clock
    | .activeExpire => st.clock
  entries := fun k ↦ entryNext cfg st.clock k (st.entries k) s

/-- The reply to a step; the physical count of DBSIZE is not part of the logical store. -/
def reply (st : Store K) : Step K C → Option (Reply K)
  | .cmd _ command =>
    match keyOp? command with
    | some (k, op) => some (op.entryReply st.clock (st.entries k))
    | none =>
      match command with
      | .keys => some (.keySet fun k ↦ (st.entries k).isSome)
      | .dbSize => none
      | _ => some .ok
  | .activeExpire => none
  | .clockTick _ => none

end Store

/-! ### The logical store of a world -/

/-- Expired keys are hidden from the caller. -/
def Config.hides (cfg : Config) : Bool := !cfg.allowAccessExpired && !cfg.fromMaster

/-- The entry that the caller finds in a slot. -/
def Config.entry (cfg : Config) (now : Ms) (s : Slot) : Option Entry :=
  if cfg.sees now s then some ⟨s.value, s.expireAt⟩ else none

/-- The logical store of a world. -/
def logical (w : World K C) : Store K :=
  ⟨w.clock, fun k ↦ (config w).entry w.clock (w.slots k)⟩

/-- The reply to a step, except that of DBSIZE. -/
def observedReply (w : World K C) (s : Step K C) : Option (Reply K) :=
  match s with
  | .cmd _ .dbSize => none
  | s => (step w s).2

/-! ### One slot -/

section Slots

variable {cfg : Config} {now : Ms} {s : Slot}

@[simp] theorem entry_absent : cfg.entry now Slot.absent = none := rfl

theorem isSome_entry : (cfg.entry now s).isSome = cfg.sees now s := by
  unfold Config.entry
  split_ifs with hsees <;> simp [hsees]

/-- The reply of an operation reads only the entry. -/
theorem reply_eq_entryReply (op : KeyOp) :
    (op.reply cfg now s : Reply K) = op.entryReply now (cfg.entry now s) := by
  cases hsees : cfg.sees now s <;> cases op <;>
    simp [KeyOp.reply, KeyOp.entryReply, Config.entry, hsees, Entry.hasTtl, Slot.hasTtl]

theorem entry_of_sees (hsees : cfg.sees now s = true) :
    cfg.entry now s = some ⟨s.value, s.expireAt⟩ := if_pos hsees

theorem entry_of_not_sees (hsees : cfg.sees now s = false) : cfg.entry now s = none := by
  unfold Config.entry
  rw [hsees, if_neg Bool.false_ne_true]

/-- A caller from which expired keys are hidden finds the present slots whose time has not
passed. -/
theorem sees_of_hides (hhides : cfg.hides = true) :
    cfg.sees now s = (s.present && !(s.hasTtl && decide (now > s.expireAt))) := by
  simp only [Config.hides, Bool.and_eq_true, Bool.not_eq_true'] at hhides
  simp [Config.sees, Config.expired, hhides.1, hhides.2]

theorem sees_eq_of_hides (hhides : cfg.hides = true) :
    cfg.sees now s = (s.present && !cfg.expired now s) := by
  simp only [Config.hides, Bool.and_eq_true, Bool.not_eq_true'] at hhides
  unfold Config.sees
  rw [hhides.2, Bool.or_false]

theorem entry_present (hhides : cfg.hides = true) (value : Value) (expireAt : Ms) :
    cfg.entry now ⟨true, value, expireAt⟩ = alive now (some ⟨value, expireAt⟩) := by
  unfold Config.entry
  rw [sees_of_hides hhides]
  cases hgone : Entry.gone now ⟨value, expireAt⟩ <;>
    simp_all [alive, Entry.gone, Entry.hasTtl, Slot.hasTtl, Option.filter]

/-- What is found is present and not gone. -/
theorem entry_eq_some (hhides : cfg.hides = true) {e : Entry} :
    cfg.entry now s = some e ↔
      s.present = true ∧ e = ⟨s.value, s.expireAt⟩ ∧ e.gone now = false := by
  unfold Config.entry
  rw [sees_of_hides hhides]
  constructor
  · intro hsome
    split_ifs at hsome with hsees
    obtain ⟨hpresent, hgone⟩ := Bool.and_eq_true_iff.mp hsees
    obtain rfl := Option.some.inj hsome
    exact ⟨hpresent, rfl, (Bool.not_eq_true' _).mp hgone⟩
  · rintro ⟨hpresent, rfl, hgone⟩
    apply if_pos
    rw [hpresent, Bool.true_and, Bool.not_eq_true']
    exact hgone

/-- A lookup deletes only what it does not find. -/
@[simp] theorem entry_slotAfterLookup (force : Bool) :
    cfg.entry now (cfg.slotAfterLookup force now s) = cfg.entry now s := by
  unfold Config.slotAfterLookup
  split_ifs with hpurges
  · rw [entry_absent, entry_of_not_sees (Config.sees_of_purges hpurges)]
  · rfl

/-- A slot that is neither found nor deleted by a write lookup may still be there. -/
theorem entry_spared (hspared : (s.present && !cfg.purges true now s) = false) :
    cfg.entry now s = none := by
  apply entry_of_not_sees
  rw [← Bool.not_eq_true]
  intro hsees
  rw [Config.present_of_sees hsees, Config.purges_of_sees true hsees] at hspared
  exact Bool.false_ne_true hspared.symm

theorem entry_set (hhides : cfg.hides = true) (val : Str) (cond : SetCond) (ttl : TtlArg)
    (getOld : Bool) :
    cfg.entry now (((KeyOp.set val cond ttl getOld).edits cfg now s).foldl (fun s e ↦ e.slot s) s) =
      (KeyOp.set val cond ttl getOld).entryAfter cfg now (cfg.entry now s) := by
  rw [foldl_edits]
  simp only [KeyOp.write?, KeyOp.entryAfter, KeyOp.writes, isSome_entry]
  cases hallowed : setAllowed cond (cfg.sees now s) with
  | false => exact entry_slotAfterLookup true
  | true =>
    cases helapsed : KeyOp.ttlElapsed cfg now ttl with
    | true =>
      cases hspared : s.present && !cfg.purges true now s with
      | true => rfl
      | false =>
        simp only [Bool.false_eq_true, if_false, if_true, Bool.not_true]
        rw [entry_slotAfterLookup, entry_spared hspared]
    | false =>
      simp only [Bool.false_eq_true, if_false, if_true, Bool.not_true]
      show cfg.entry now ⟨true, .str val, _⟩ = _
      rw [entry_present hhides]
      congr 3
      cases hsees : cfg.sees now s with
      | true =>
        rw [entry_of_sees hsees]
        rfl
      | false => cases ttl <;> rfl

theorem entry_expire (hhides : cfg.hides = true) (time : Ms) (cond : ExpireCond) :
    cfg.entry now (((KeyOp.expire time cond).edits cfg now s).foldl (fun s e ↦ e.slot s) s) =
      (KeyOp.expire time cond).entryAfter cfg now (cfg.entry now s) := by
  rw [foldl_edits]
  simp only [KeyOp.write?, KeyOp.entryAfter, KeyOp.writes]
  cases hsees : cfg.sees now s with
  | false =>
    simp only [Bool.false_and, Bool.false_eq_true, if_false]
    rw [entry_slotAfterLookup, entry_of_not_sees hsees]
  | true =>
    have hpresent := Config.present_of_sees hsees
    rw [entry_of_sees hsees, slotAfterLookup_of_sees hsees]
    cases hfails : expireCondFails cond s.expireAt time with
    | true => simp [hfails, entry_of_sees hsees]
    | false =>
      cases helapsed : KeyOp.elapsed cfg now time with
      | true => simp [hfails, Edit.slot]
      | false =>
        simp only [hfails, Edit.slot, hpresent, Bool.not_false, Bool.and_self, Bool.false_eq_true,
          if_false, if_true]
        exact entry_present hhides s.value time

theorem entry_persist (hhides : cfg.hides = true) :
    cfg.entry now ((KeyOp.persist.edits cfg now s).foldl (fun s e ↦ e.slot s) s) =
      KeyOp.persist.entryAfter cfg now (cfg.entry now s) := by
  rw [foldl_edits]
  simp only [KeyOp.write?, KeyOp.entryAfter, KeyOp.writes]
  cases hsees : cfg.sees now s with
  | false =>
    simp only [Bool.false_and, Bool.false_eq_true, if_false]
    rw [entry_slotAfterLookup, entry_of_not_sees hsees]
    rfl
  | true =>
    have hpresent := Config.present_of_sees hsees
    rw [entry_of_sees hsees, slotAfterLookup_of_sees hsees]
    cases httl : s.hasTtl with
    | true =>
      simp only [Edit.slot, hpresent, Bool.and_self, if_true]
      exact entry_present hhides s.value noExpire
    | false =>
      have htime : s.expireAt = noExpire := by simpa [Slot.hasTtl] using httl
      simp [entry_of_sees hsees, htime]

/-- An operation takes the entry of its slot to the entry that the logical store says. -/
theorem entry_foldl_edits (hhides : cfg.hides = true) (op : KeyOp) :
    cfg.entry now ((op.edits cfg now s).foldl (fun s e ↦ e.slot s) s) =
      op.entryAfter cfg now (cfg.entry now s) := by
  cases op with
  | set val cond ttl getOld => exact entry_set hhides val cond ttl getOld
  | get => rw [foldl_edits]; exact entry_slotAfterLookup false
  | existsKey => rw [foldl_edits]; exact entry_slotAfterLookup false
  | type => rw [foldl_edits]; exact entry_slotAfterLookup false
  | pttl => rw [foldl_edits]; exact entry_slotAfterLookup false
  | del =>
    rw [foldl_edits]
    simp only [KeyOp.write?, KeyOp.entryAfter]
    cases hsees : cfg.sees now s with
    | true => rfl
    | false =>
      simp only [Bool.false_eq_true, if_false]
      rw [entry_slotAfterLookup, entry_of_not_sees hsees]
  | expire time cond => exact entry_expire hhides time cond
  | persist => exact entry_persist hhides

/-- While time passes an entry is only lost. -/
theorem entry_of_le (hhides : cfg.hides = true) {later : Ms} (hle : now ≤ later) :
    cfg.entry later s = alive later (cfg.entry now s) := by
  cases hsees : cfg.sees now s with
  | true =>
    have hpresent := Config.present_of_sees hsees
    rw [entry_of_sees hsees, ← entry_present hhides s.value s.expireAt, ← hpresent]
  | false =>
    rw [entry_of_not_sees hsees]
    apply entry_of_not_sees
    rw [sees_of_hides hhides] at hsees ⊢
    cases hpresent : s.present with
    | false => rfl
    | true =>
      simp only [hpresent, Bool.true_and, Bool.not_eq_false', Bool.and_eq_true,
        decide_eq_true_eq] at hsees ⊢
      exact ⟨hsees.1, lt_of_lt_of_le hsees.2 hle⟩

/-- The active cycle removes the entries that are due. -/
theorem entry_unless_due (cfg : Config) (now : Ms) (s : Slot) :
    cfg.entry now (if s.present && s.hasTtl && decide (now ≥ s.expireAt) then Slot.absent else s) =
      (cfg.entry now s).filter fun e ↦ !e.due now := by
  cases hsees : cfg.sees now s with
  | true =>
    have hpresent := Config.present_of_sees hsees
    rw [hpresent, Bool.true_and, entry_of_sees hsees]
    have hsame : Entry.due now ⟨s.value, s.expireAt⟩ =
        (s.hasTtl && decide (now ≥ s.expireAt)) := rfl
    rw [Option.filter_some, hsame]
    cases hdue : s.hasTtl && decide (now ≥ s.expireAt) with
    | true => rfl
    | false => exact entry_of_sees hsees
  | false =>
    rw [entry_of_not_sees hsees]
    split_ifs
    · rfl
    · exact entry_of_not_sees hsees

end Slots

/-! ### The refinement -/

section Refinement

variable {w : World K C}

/-- The entry of a key after a step of the world is the entry that the logical store says. -/
theorem entry_next (hhides : (config w).hides = true) {s : Step K C} (hadmits : Admits w s)
    (k : Fin K) :
    (logical (w.next s)).entries k =
      Store.entryNext (config w) w.clock k ((logical w).entries k) s := by
  show (config (w.next s)).entry (w.next s).clock ((w.next s).slots k) =
    Store.entryNext (config w) w.clock k ((config w).entry w.clock (w.slots k)) s
  have hle := clock_le_next w s hadmits
  rw [next_config, next_slots]
  rw [next_clock] at hle ⊢
  cases s with
  | clockTick d => exact entry_of_le hhides hle
  | activeExpire =>
    have hedits : editsOn k (stepEdits w .activeExpire) =
        if (config w).sweeps && isDue w k then [.delete] else [] := editsOn_activeEdits w k
    have hkept := entry_unless_due (config w) w.clock (w.slots k)
    rw [hedits]
    rw [← isDue_eq] at hkept
    simp only [Store.entryNext]
    cases (config w).sweeps with
    | false => rfl
    | true =>
      rw [if_pos rfl, ← hkept, Bool.true_and]
      split_ifs <;> rfl
  | cmd c command =>
    simp only [stepEdits, Store.entryNext]
    cases keyOp? command with
    | none => rfl
    | some target =>
      obtain ⟨k', op⟩ := target
      simp only [editsOn_opEdits]
      split_ifs with hk
      · subst hk
        exact entry_foldl_edits hhides op
      · rfl

/-- The model refines the logical store. -/
theorem logical_next (hhides : (config w).hides = true) {s : Step K C} (hadmits : Admits w s) :
    logical (w.next s) = (logical w).next (config w) s := by
  ext k : 2
  · exact next_clock w s
  · exact entry_next hhides hadmits k

theorem observedReply_eq (hhides : (config w).hides = true) (s : Step K C) :
    observedReply w s = (logical w).reply s := by
  cases s with
  | clockTick d => rfl
  | activeExpire => rfl
  | cmd c command =>
    cases hop : keyOp? command with
    | some target =>
      obtain ⟨k, op⟩ := target
      have hstep : observedReply w (.cmd c command) = (step w (.cmd c command)).2 := by
        cases command <;> first | rfl | simp [keyOp?] at hop
      rw [hstep, step_of_keyOp w c hop, reply_eq_entryReply]
      simp only [Store.reply, hop]
      rfl
    | none =>
      obtain rfl | rfl | ⟨client, k, rfl⟩ | ⟨client, rfl⟩ := of_keyOp_eq_none hop
      · have hkeys : (fun k ↦ (w.slots k).present && !keyIsExpired w k) =
            fun k ↦ ((logical w).entries k).isSome := by
          ext k
          rw [keyIsExpired_eq, ← sees_eq_of_hides hhides]
          exact isSome_entry.symm
        have hinside : enterExecutionUnit w = { freshUnit w with nesting := w.nesting + 1 } :=
          enterExecutionUnit_eq w
        simp only [observedReply, step, execCmd, cmdKeys, hinside]
        exact congrArg (fun set ↦ some (Reply.keySet set)) hkeys
      · rfl
      · rfl
      · rfl

/-- The snapshot of the source shows the logical store. -/
theorem snapshotVisible_eq (hhides : (config w).hides = true) (k : Fin K) :
    w.snapshotVisible k = ((logical w).entries k).map Entry.snapshot := by
  show (if (w.slots k).present && !keyIsExpired w k then _ else none) =
    ((config w).entry w.clock (w.slots k)).map Entry.snapshot
  rw [keyIsExpired_eq, ← sees_eq_of_hides hhides]
  unfold Config.entry
  split_ifs <;> rfl

end Refinement

end RedisCvlr.Keyspace
