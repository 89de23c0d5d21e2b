import RedisCvlr.Keyspace.Edit

/-!
# What a command does to its key

Eight of the commands are about one key (`KeyOp`). The code runs them through up to two lookups with
side effects, six configuration fields and several early returns. `KeyOp.edits` and `KeyOp.reply`
say what comes out: at most a purge of the expired slot followed by at most one write, and a reply,
all read off the slot, the clock and the configuration. `execCmd_eq_outcome` proves that `execCmd`
does exactly this.

`Config.sees` is the visibility of a slot to the caller, and `Config.purges` says when a lookup
deletes an expired slot.
-/

set_option autoImplicit false
set_option relaxedAutoImplicit false

namespace RedisCvlr.Keyspace

open RedisCvlr.Model RedisCvlr.Watch

variable {K C : ℕ}

/-! ### Visibility and purging -/

/-- Logical expiry of a slot. -/
def Config.expired (cfg : Config) (now : Ms) (s : Slot) : Bool :=
  !cfg.allowAccessExpired && s.hasTtl && decide (now > s.expireAt)

/-- The caller is the replication link of a replica or of a cluster node, for which no key is
expired. -/
def Config.fromMaster (cfg : Config) : Bool :=
  (cfg.role == .readOnlyReplica || cfg.clusterEnabled) && cfg.caller == .masterLink

/-- A lookup by the caller finds the slot. -/
def Config.sees (cfg : Config) (now : Ms) (s : Slot) : Bool :=
  s.present && (!cfg.expired now s || cfg.fromMaster)

/-- A lookup by the caller deletes the slot. Write lookups force the deletion; read lookups leave it
to the master and to the configuration. -/
def Config.purges (cfg : Config) (force : Bool) (now : Ms) (s : Slot) : Bool :=
  s.present && cfg.expired now s && !cfg.fromMaster &&
    (force || (cfg.role == .master && cfg.confAllowsExpireDel)) && !cfg.expirePaused

theorem keyIsExpired_eq (w : World K C) (k : Fin K) :
    keyIsExpired w k = (config w).expired w.clock (w.slots k) := by
  rw [keyIsExpired, Config.expired, Slot.hasTtl]
  by_cases ha : w.allowAccessExpired = true
  · simp [ha]
  · by_cases hn : (w.slots k).expireAt = noExpire <;> simp [ha, hn]

/-- A slot that a lookup deletes is not found by it. -/
theorem Config.sees_of_purges {cfg : Config} {force : Bool} {now : Ms} {s : Slot}
    (h : cfg.purges force now s = true) : cfg.sees now s = false := by
  simp only [Config.purges, Bool.and_eq_true, Bool.not_eq_true'] at h
  simp [Config.sees, h.1.1.1.2, h.1.1.2]

theorem Config.present_of_sees {cfg : Config} {now : Ms} {s : Slot}
    (hsees : cfg.sees now s = true) : s.present = true :=
  (Bool.and_eq_true_iff.mp hsees).1

/-- No lookup deletes a slot that it finds. -/
theorem Config.purges_of_sees {cfg : Config} {now : Ms} {s : Slot} (force : Bool)
    (hsees : cfg.sees now s = true) : cfg.purges force now s = false := by
  rw [← Bool.not_eq_true]
  intro hpurges
  rw [Config.sees_of_purges hpurges] at hsees
  exact Bool.false_ne_true hsees

/-- What a read lookup deletes, a write lookup deletes too. -/
theorem Config.purges_true_of_purges {cfg : Config} {force : Bool} {now : Ms} {s : Slot}
    (h : cfg.purges force now s = true) : cfg.purges true now s = true := by
  simp only [Config.purges, Bool.and_eq_true] at h ⊢
  exact ⟨⟨h.1.1, by simp⟩, h.2⟩

/-- A write lookup that finds an expired key always deletes it. -/
def Config.purging (cfg : Config) : Bool :=
  cfg.allowAccessExpired || (!cfg.expirePaused && !cfg.fromMaster)

/-- Under a purging configuration a write lookup deletes every expired slot, and hides it. -/
theorem Config.purges_of_expired {cfg : Config} (hpurging : cfg.purging = true) {now : Ms}
    {s : Slot} (hpresent : s.present = true) (hexpired : cfg.expired now s = true) :
    cfg.purges true now s = true := by
  have haccess : cfg.allowAccessExpired = false := by
    simp only [Config.expired, Bool.and_eq_true, Bool.not_eq_true'] at hexpired
    exact hexpired.1.1
  rw [Config.purging, haccess, Bool.false_or, Bool.and_eq_true, Bool.not_eq_true',
    Bool.not_eq_true'] at hpurging
  simp [Config.purges, hpresent, hexpired, hpurging.1, hpurging.2]

/-- What is expired stays expired while time passes. -/
theorem Config.expired_mono {cfg : Config} {now now' : Ms} {s : Slot} (hle : now ≤ now')
    (hexpired : cfg.expired now s = true) : cfg.expired now' s = true := by
  simp only [Config.expired, Bool.and_eq_true, decide_eq_true_eq] at hexpired ⊢
  exact ⟨hexpired.1, lt_of_lt_of_le hexpired.2 hle⟩

@[simp] theorem Config.purges_absent (cfg : Config) (force : Bool) (now : Ms) :
    cfg.purges force now Slot.absent = false := rfl

@[simp] theorem Config.sees_absent (cfg : Config) (now : Ms) : cfg.sees now Slot.absent = false :=
  rfl

/-! ### Lookups -/

/-- The world after a lookup. -/
def afterLookup (w : World K C) (k : Fin K) (force : Bool) : World K C :=
  if (config w).purges force w.clock (w.slots k) then applyEdit w (k, .delete) else w

/-- The value a lookup finds. -/
def lookedUp (w : World K C) (k : Fin K) : Option Value :=
  if (config w).sees w.clock (w.slots k) then some (w.slots k).value else none

/-- `expireIfNeeded` on a present key, with the flags of a lookup: the seven exits collapse to
whether the slot is seen and whether it is purged. -/
theorem expireIfNeeded_eq (w : World K C) (k : Fin K) (force : Bool)
    (hpresent : (w.slots k).present = true) :
    expireIfNeeded w k ⟨false, force, false⟩ =
      if (config w).sees w.clock (w.slots k) then (w, .valid)
      else if (config w).purges force w.clock (w.slots k) then (applyEdit w (k, .delete), .deleted)
      else (w, .expired) := by
  rw [expireIfNeeded, keyIsExpired_eq, deleteExpiredKeyAndPropagate_eq]
  have hguard : ((w.role == .readOnlyReplica || w.clusterEnabled) && w.caller == .masterLink) =
      (config w).fromMaster := rfl
  rw [hguard]
  cases hexpired : (config w).expired w.clock (w.slots k) with
  | false => simp [Config.sees, hpresent, hexpired]
  | true =>
    cases hmaster : (config w).fromMaster with
    | true => simp [Config.sees, hpresent, hexpired, hmaster]
    | false =>
      cases hrole : w.role <;> cases force <;> cases hconf : w.confAllowsExpireDel <;>
        cases hpaused : w.expirePaused <;>
        simp [Config.sees, Config.purges, hpresent, hexpired, hmaster, hrole, hconf, hpaused]

theorem lookupKeyRead_eq (w : World K C) (k : Fin K) :
    lookupKeyRead w k = (afterLookup w k false, lookedUp w k) := by
  rw [lookupKeyRead, afterLookup, lookedUp, ExpireFlags.read]
  by_cases hpresent : (w.slots k).present = true
  · rw [expireIfNeeded_eq w k false hpresent]
    by_cases hsees : (config w).sees w.clock (w.slots k) = true
    · have hpurges := Config.purges_of_sees false hsees
      simp [hpresent, hsees, hpurges]
    · by_cases hpurges : (config w).purges false w.clock (w.slots k) = true <;>
        simp [hpresent, hsees, hpurges]
  · simp [hpresent, Config.sees, Config.purges]

theorem lookupKeyWrite_eq (w : World K C) (k : Fin K) :
    lookupKeyWrite w k = (afterLookup w k true, lookedUp w k) := by
  rw [lookupKeyWrite, afterLookup, lookedUp, ExpireFlags.write]
  by_cases hpresent : (w.slots k).present = true
  · rw [expireIfNeeded_eq w k true hpresent]
    by_cases hsees : (config w).sees w.clock (w.slots k) = true
    · have hpurges := Config.purges_of_sees true hsees
      simp [hpresent, hsees, hpurges]
    · by_cases hpurges : (config w).purges true w.clock (w.slots k) = true <;>
        simp [hpresent, hsees, hpurges]
  · simp [hpresent, Config.sees, Config.purges]

/-- The two lookups of a SET with GET: the read lookup decides the old value, and together they
purge exactly what the write lookup alone would. -/
theorem lookupKeyWrite_afterLookup (w : World K C) (k : Fin K) :
    lookupKeyWrite (afterLookup w k false) k = (afterLookup w k true, lookedUp w k) := by
  rw [lookupKeyWrite_eq]
  by_cases hpurges : (config w).purges false w.clock (w.slots k) = true
  · have hslot : (applyEdit w (k, .delete)).slots k = Slot.absent := by
      rw [applyEdit_slots, Function.update_self]
      rfl
    have htrue := Config.purges_true_of_purges hpurges
    have hsees := Config.sees_of_purges hpurges
    simp [afterLookup, lookedUp, hpurges, htrue, hsees, hslot]
  · simp [afterLookup, hpurges]

/-! ### Operations on one key -/

/-- A command about one key, without the key. -/
inductive KeyOp
  | set (val : Str) (cond : SetCond) (ttl : TtlArg) (getOld : Bool)
  | get
  | del
  | existsKey
  | type
  | expire (time : Ms) (cond : ExpireCond)
  | persist
  | pttl
  deriving DecidableEq

/-- The key and the operation of a command about one key. -/
def keyOp? : Cmd K C → Option (Fin K × KeyOp)
  | .set key val cond ttl get => some (key, .set val cond ttl get)
  | .get key => some (key, .get)
  | .del key => some (key, .del)
  | .existsKey key => some (key, .existsKey)
  | .type key => some (key, .type)
  | .expire key time cond => some (key, .expire time cond)
  | .persist key => some (key, .persist)
  | .pttl key => some (key, .pttl)
  | .keys => none
  | .dbSize => none
  | .watch _ _ => none
  | .unwatch _ => none

/-- The commands that are not about one key. -/
theorem of_keyOp_eq_none {command : Cmd K C} (hop : keyOp? command = none) :
    command = .keys ∨ command = .dbSize ∨ (∃ client k, command = .watch client k) ∨
      ∃ client, command = .unwatch client := by
  cases command <;> simp_all [keyOp?]

/-- The read commands. -/
def isRead : Cmd K C → Bool
  | .get _ => true
  | .existsKey _ => true
  | .type _ => true
  | .pttl _ => true
  | .keys => true
  | .dbSize => true
  | .set .. => false
  | .del _ => false
  | .expire .. => false
  | .persist _ => false
  | .watch .. => false
  | .unwatch _ => false

namespace KeyOp

/-- Whether the operation looks its key up for writing. -/
def writes : KeyOp → Bool
  | set .. => true
  | del => true
  | expire .. => true
  | persist => true
  | get => false
  | existsKey => false
  | type => false
  | pttl => false

/-- A time that has elapsed on a master. -/
def elapsed (cfg : Config) (now time : Ms) : Bool := decide (time ≤ now) && cfg.role == .master

/-- The TTL argument of a SET is an elapsed time. -/
def ttlElapsed (cfg : Config) (now : Ms) : TtlArg → Bool
  | .pxAt time => elapsed cfg now time
  | .none => false
  | .keep => false

/-- The write of an operation, after its lookups. -/
def write? (op : KeyOp) (cfg : Config) (now : Ms) (s : Slot) : Option Edit :=
  match op with
  | set val cond ttl _ =>
    if setAllowed cond (cfg.sees now s) then
      if ttlElapsed cfg now ttl then
        if s.present && !cfg.purges true now s then some .delete else none
      else some (.put val (installedExpire ttl (cfg.sees now s) s.expireAt))
    else none
  | del => if cfg.sees now s then some .delete else none
  | expire time cond =>
    if cfg.sees now s && !expireCondFails cond s.expireAt time then
      if elapsed cfg now time then some .delete else some (.retime time)
    else none
  | persist => if cfg.sees now s && s.hasTtl then some .persist else none
  | get => none
  | existsKey => none
  | type => none
  | pttl => none

/-- The edits of an operation: the purge of its lookups, then its write. -/
def edits (op : KeyOp) (cfg : Config) (now : Ms) (s : Slot) : List Edit :=
  (if cfg.purges op.writes now s then [.delete] else []) ++ (op.write? cfg now s).toList

/-- The reply of an operation. -/
def reply (op : KeyOp) (cfg : Config) (now : Ms) (s : Slot) : Reply K :=
  match op with
  | set _ cond _ getOld =>
    if getOld then oldValueReply (if cfg.sees now s then some s.value else none)
    else if setAllowed cond (cfg.sees now s) then .ok
    else .nil
  | get => oldValueReply (if cfg.sees now s then some s.value else none)
  | del => .int (if cfg.sees now s then 1 else 0)
  | existsKey => .int (if cfg.sees now s then 1 else 0)
  | type => if cfg.sees now s then .type s.value.vtype else .noType
  | expire time cond =>
    .int (if cfg.sees now s && !expireCondFails cond s.expireAt time then 1 else 0)
  | persist => .int (if cfg.sees now s && s.hasTtl then 1 else 0)
  | pttl =>
    .int (if cfg.sees now s then if s.hasTtl then wrapI64 (s.expireAt - now) else -1 else -2)

/-- Only operations that look their key up for writing write. -/
theorem writes_of_write? {op : KeyOp} {cfg : Config} {now : Ms} {s : Slot} {e : Edit}
    (hwrite : op.write? cfg now s = some e) : op.writes = true := by
  cases op <;> first | rfl | exact absurd hwrite (by simp [KeyOp.write?])

/-- What an operation writes to a key that its lookups deleted is the value of a SET. -/
theorem put_of_write? {op : KeyOp} {cfg : Config} {now : Ms} {s : Slot} {e : Edit}
    (hpurges : cfg.purges true now s = true) (hwrite : op.write? cfg now s = some e) :
    ∃ val expireAt, e = .put val expireAt := by
  have hsees := Config.sees_of_purges hpurges
  cases op with
  | set val cond ttl getOld =>
    simp only [write?, hsees, hpurges, Bool.not_true, Bool.and_false, Bool.false_eq_true,
      if_false] at hwrite
    split_ifs at hwrite
    exact ⟨_, _, (Option.some.inj hwrite).symm⟩
  | del => simp [write?, hsees] at hwrite
  | expire time cond => simp [write?, hsees] at hwrite
  | persist => simp [write?, hsees] at hwrite
  | get => simp [write?] at hwrite
  | existsKey => simp [write?] at hwrite
  | type => simp [write?] at hwrite
  | pttl => simp [write?] at hwrite

theorem write?_of_not_writes {op : KeyOp} (hwrites : op.writes = false) (cfg : Config) (now : Ms)
    (s : Slot) : op.write? cfg now s = none := by
  rw [Option.eq_none_iff_forall_ne_some]
  intro e hwrite
  rw [writes_of_write? hwrite] at hwrites
  exact Bool.false_ne_true hwrites.symm

end KeyOp

/-- A read command about a key only looks it up. -/
theorem not_writes_of_isRead {command : Cmd K C} {k : Fin K} {op : KeyOp}
    (hread : isRead command = true) (hop : keyOp? command = some (k, op)) : op.writes = false := by
  cases command <;> simp_all [keyOp?, isRead] <;> obtain ⟨rfl, rfl⟩ := hop <;> rfl

/-! ### The slot after an operation -/

/-- The slot that a lookup leaves. -/
def Config.slotAfterLookup (cfg : Config) (force : Bool) (now : Ms) (s : Slot) : Slot :=
  if cfg.purges force now s then Slot.absent else s

section Slots

variable {cfg : Config} {now : Ms} {s : Slot}

/-- A write lookup leaves a slot that it finds. -/
theorem slotAfterLookup_of_sees {force : Bool} (hsees : cfg.sees now s = true) :
    cfg.slotAfterLookup force now s = s := by
  unfold Config.slotAfterLookup
  rw [Config.purges_of_sees force hsees, if_neg Bool.false_ne_true]

/-- The slot after the edits of an operation: the write, if any, on the slot that its lookups
left. -/
theorem foldl_edits (op : KeyOp) :
    (op.edits cfg now s).foldl (fun s e ↦ e.slot s) s =
      match op.write? cfg now s with
      | some e => e.slot (cfg.slotAfterLookup op.writes now s)
      | none => cfg.slotAfterLookup op.writes now s := by
  unfold KeyOp.edits Config.slotAfterLookup
  cases op.write? cfg now s <;> split_ifs <;> rfl

end Slots

/-! ### The code does what the outcome says -/

/-- The edits of an operation on a key of a world. -/
def opEdits (w : World K C) (k : Fin K) (op : KeyOp) : List (Fin K × Edit) :=
  (op.edits (config w) w.clock (w.slots k)).map fun e ↦ (k, e)

theorem applyEdits_opEdits (w : World K C) (k : Fin K) (op : KeyOp) :
    applyEdits w (opEdits w k op) =
      match op.write? (config w) w.clock (w.slots k) with
      | some e => applyEdit (afterLookup w k op.writes) (k, e)
      | none => afterLookup w k op.writes := by
  rw [opEdits, KeyOp.edits, afterLookup]
  cases op.write? (config w) w.clock (w.slots k) <;> split_ifs <;> rfl

theorem afterLookup_slot (w : World K C) (k : Fin K) (force : Bool) :
    (afterLookup w k force).slots k =
      (config w).slotAfterLookup force w.clock (w.slots k) := by
  unfold afterLookup Config.slotAfterLookup
  split_ifs
  · rw [applyEdit_slots, Function.update_self]
    rfl
  · rfl

theorem afterLookup_clock (w : World K C) (k : Fin K) (force : Bool) :
    (afterLookup w k force).clock = w.clock := by
  rw [afterLookup]
  split_ifs
  · exact applyEdit_clock w k .delete
  · rfl

theorem afterLookup_config (w : World K C) (k : Fin K) (force : Bool) :
    config (afterLookup w k force) = config w := by
  rw [afterLookup]
  split_ifs
  · exact applyEdit_config w k .delete
  · rfl

/-- A slot that a lookup finds is not changed by it. -/
theorem afterLookup_slot_of_sees {w : World K C} {k : Fin K} (force : Bool)
    (hsees : (config w).sees w.clock (w.slots k) = true) :
    (afterLookup w k force).slots k = w.slots k := by
  rw [afterLookup_slot, slotAfterLookup_of_sees hsees]

/-- A read command purges by its lookup and replies from what it found. -/
private theorem lookupKeyRead_outcome (w : World K C) (k : Fin K) (op : KeyOp)
    (hwrites : op.writes = false) (hnone : op.write? (config w) w.clock (w.slots k) = none) :
    lookupKeyRead w k = (applyEdits w (opEdits w k op), lookedUp w k) := by
  rw [lookupKeyRead_eq, applyEdits_opEdits, hnone, hwrites]

/-- The write that ends a command is an edit of the slot as its lookup left it. -/
private theorem propagate_eq_applyEdit (w : World K C) (k : Fin K) (e : Edit) {s : Slot}
    (hslot : e.slot (w.slots k) = s) :
    propagate (w.setSlot k s) k (e.effect k) = applyEdit w (k, e) := by
  rw [applyEdit, hslot]

theorem isSome_lookedUp (w : World K C) (k : Fin K) :
    (lookedUp w k).isSome = (config w).sees w.clock (w.slots k) := by
  rw [lookedUp]
  split_ifs with hsees <;> simp [hsees]

/-- The slot that a write finds present is the visible one or one that the lookup spared. -/
theorem present_afterLookup (w : World K C) (k : Fin K) :
    ((config w).sees w.clock (w.slots k) || ((afterLookup w k true).slots k).present) =
      ((w.slots k).present && !(config w).purges true w.clock (w.slots k)) := by
  cases hsees : (config w).sees w.clock (w.slots k) with
  | true =>
    rw [Config.present_of_sees hsees, Config.purges_of_sees true hsees]
    rfl
  | false =>
    rw [Bool.false_or, afterLookup_slot]
    unfold Config.slotAfterLookup
    split_ifs with hpurges <;> simp [hpurges, Slot.absent]

/-- The expire time that a SET installs does not depend on a purged slot. -/
theorem installedExpire_afterLookup (w : World K C) (k : Fin K) (ttl : TtlArg) :
    installedExpire ttl ((config w).sees w.clock (w.slots k))
        ((afterLookup w k true).slots k).expireAt =
      installedExpire ttl ((config w).sees w.clock (w.slots k)) (w.slots k).expireAt := by
  cases hsees : (config w).sees w.clock (w.slots k) with
  | true => rw [afterLookup_slot_of_sees true hsees]
  | false => cases ttl <;> rfl

theorem checkAlreadyExpired_afterLookup (w : World K C) (k : Fin K) (time : Ms) :
    checkAlreadyExpired (afterLookup w k true) time =
      KeyOp.elapsed (config w) w.clock time := by
  have hrole : (afterLookup w k true).role = w.role :=
    congrArg Config.role (afterLookup_config w k true)
  rw [checkAlreadyExpired, afterLookup_clock, hrole]
  rfl

theorem cmdSet_eq (w : World K C) (k : Fin K) (val : Str) (cond : SetCond) (ttl : TtlArg)
    (get : Bool) :
    cmdSet w k val cond ttl get =
      (applyEdits w (opEdits w k (.set val cond ttl get)),
        (KeyOp.set val cond ttl get).reply (config w) w.clock (w.slots k)) := by
  have hlookups : lookupKeyWrite (if get then lookupKeyRead w k else (w, none)).1 k =
      (afterLookup w k true, lookedUp w k) := by
    cases get with
    | true => rw [if_pos rfl, lookupKeyRead_eq, lookupKeyWrite_afterLookup]
    | false => exact lookupKeyWrite_eq w k
  have hold : (if get then lookupKeyRead w k else (w, none)).2 =
      if get then lookedUp w k else none := by
    cases get with
    | true => rw [if_pos rfl, lookupKeyRead_eq, if_pos rfl]
    | false => rfl
  have helapsed : ttlElapsed (afterLookup w k true) ttl =
      KeyOp.ttlElapsed (config w) w.clock ttl := by
    cases ttl with
    | pxAt time => exact checkAlreadyExpired_afterLookup w k time
    | none => rfl
    | keep => rfl
  rw [cmdSet, applyEdits_opEdits]
  simp only [hlookups, hold, isSome_lookedUp, helapsed, present_afterLookup,
    installedExpire_afterLookup, KeyOp.write?, KeyOp.reply, KeyOp.writes]
  cases hallowed : setAllowed cond ((config w).sees w.clock (w.slots k)) with
  | false => cases get <;> simp [lookedUp]
  | true =>
    cases helapsed' : KeyOp.ttlElapsed (config w) w.clock ttl with
    | false =>
      simp only [Bool.not_true, Bool.false_eq_true, if_false, if_true]
      rw [← propagate_eq_applyEdit _ k _ rfl]
      cases get <;> simp [lookedUp, Edit.slot, Edit.effect]
    | true =>
      cases hspared : (w.slots k).present && !(config w).purges true w.clock (w.slots k) with
      | false => cases get <;> simp [lookedUp]
      | true =>
        simp only [Bool.not_true, Bool.false_eq_true, if_false, if_true]
        rw [← propagate_eq_applyEdit _ k .delete rfl]
        cases get <;> simp [lookedUp, Edit.slot, Edit.effect]

theorem isNone_lookedUp (w : World K C) (k : Fin K) :
    (lookedUp w k).isNone = !(config w).sees w.clock (w.slots k) := by
  rw [← isSome_lookedUp, Option.not_isSome]

theorem cmdDel_eq (w : World K C) (k : Fin K) :
    cmdDel w k =
      (applyEdits w (opEdits w k .del), KeyOp.del.reply (config w) w.clock (w.slots k)) := by
  rw [cmdDel, lookupKeyWrite_eq, applyEdits_opEdits]
  simp only [isNone_lookedUp, KeyOp.write?, KeyOp.reply, KeyOp.writes]
  cases hsees : (config w).sees w.clock (w.slots k) with
  | false => simp
  | true =>
    simp only [Bool.not_true, Bool.false_eq_true, if_false, if_true]
    rw [← propagate_eq_applyEdit _ k .delete rfl]
    rfl

theorem cmdExpire_eq (w : World K C) (k : Fin K) (time : Ms) (cond : ExpireCond) :
    cmdExpire w k time cond =
      (applyEdits w (opEdits w k (.expire time cond)),
        (KeyOp.expire time cond).reply (config w) w.clock (w.slots k)) := by
  rw [cmdExpire, lookupKeyWrite_eq, applyEdits_opEdits]
  simp only [isNone_lookedUp, checkAlreadyExpired_afterLookup, KeyOp.write?, KeyOp.reply,
    KeyOp.writes]
  cases hsees : (config w).sees w.clock (w.slots k) with
  | false => simp
  | true =>
    rw [afterLookup_slot_of_sees true hsees]
    cases hfails : expireCondFails cond (w.slots k).expireAt time with
    | true => simp
    | false =>
      simp only [Bool.not_true, Bool.not_false, Bool.and_self, Bool.false_eq_true, if_false,
        if_true]
      cases helapsed : KeyOp.elapsed (config w) w.clock time with
      | true =>
        simp only [if_true]
        rw [← propagate_eq_applyEdit _ k .delete rfl]
        rfl
      | false =>
        simp only [Bool.false_eq_true, if_false]
        rw [← propagate_eq_applyEdit _ k (.retime time) rfl]
        rfl

theorem cmdPersist_eq (w : World K C) (k : Fin K) :
    cmdPersist w k =
      (applyEdits w (opEdits w k .persist),
        KeyOp.persist.reply (config w) w.clock (w.slots k)) := by
  rw [cmdPersist, lookupKeyWrite_eq, applyEdits_opEdits]
  simp only [isNone_lookedUp, KeyOp.write?, KeyOp.reply, KeyOp.writes]
  cases hsees : (config w).sees w.clock (w.slots k) with
  | false => simp
  | true =>
    rw [afterLookup_slot_of_sees true hsees]
    cases httl : (w.slots k).hasTtl with
    | false => simp
    | true =>
      simp only [Bool.not_true, Bool.and_self, Bool.false_eq_true, if_false, if_true]
      rw [← propagate_eq_applyEdit _ k .persist rfl]
      rfl

/-- A command about one key applies the edits of its operation and gives its reply. -/
theorem execCmd_eq_outcome (w : World K C) (c : Fin C) {command : Cmd K C} {k : Fin K} {op : KeyOp}
    (hop : keyOp? command = some (k, op)) :
    execCmd w c command =
      (applyEdits w (opEdits w k op), op.reply (config w) w.clock (w.slots k)) := by
  cases command with
  | set key val cond ttl get =>
    obtain ⟨rfl, rfl⟩ := Prod.mk.inj (Option.some.inj hop)
    exact cmdSet_eq w key val cond ttl get
  | del key =>
    obtain ⟨rfl, rfl⟩ := Prod.mk.inj (Option.some.inj hop)
    exact cmdDel_eq w key
  | expire key time cond =>
    obtain ⟨rfl, rfl⟩ := Prod.mk.inj (Option.some.inj hop)
    exact cmdExpire_eq w key time cond
  | persist key =>
    obtain ⟨rfl, rfl⟩ := Prod.mk.inj (Option.some.inj hop)
    exact cmdPersist_eq w key
  | get key =>
    obtain ⟨rfl, rfl⟩ := Prod.mk.inj (Option.some.inj hop)
    rw [execCmd, lookupKeyRead_outcome w key .get rfl rfl, KeyOp.reply, ← lookedUp]
    cases lookedUp w key with
    | none => rfl
    | some v => cases v; rfl
  | existsKey key =>
    obtain ⟨rfl, rfl⟩ := Prod.mk.inj (Option.some.inj hop)
    rw [execCmd, lookupKeyRead_outcome w key .existsKey rfl rfl, KeyOp.reply, lookedUp]
    split_ifs <;> rfl
  | type key =>
    obtain ⟨rfl, rfl⟩ := Prod.mk.inj (Option.some.inj hop)
    rw [execCmd, lookupKeyRead_outcome w key .type rfl rfl, KeyOp.reply, lookedUp]
    split_ifs <;> rfl
  | pttl key =>
    obtain ⟨rfl, rfl⟩ := Prod.mk.inj (Option.some.inj hop)
    have hworld : applyEdits w (opEdits w key .pttl) = afterLookup w key false :=
      applyEdits_opEdits w key .pttl
    rw [execCmd, lookupKeyRead_outcome w key .pttl rfl rfl, KeyOp.reply, lookedUp]
    cases hsees : (config w).sees w.clock (w.slots key) with
    | false => rfl
    | true =>
      simp only [if_true]
      rw [hworld, afterLookup_slot_of_sees false hsees, afterLookup_clock]
      split_ifs <;> rfl
  | keys => exact absurd hop (by simp [keyOp?])
  | dbSize => exact absurd hop (by simp [keyOp?])
  | watch client key => exact absurd hop (by simp [keyOp?])
  | unwatch client => exact absurd hop (by simp [keyOp?])

/-! ### Counting keys -/

/-- The number of physically present keys of a keyspace. -/
def presentCount (slots : Fin K → Slot) : ℕ := (List.finRange K).countP fun k ↦ (slots k).present

theorem cmdDbsize_eq (w : World K C) : cmdDbsize w = .int (presentCount w.slots) := by
  have hfold : ∀ (ks : List (Fin K)) (n : ℤ),
      ks.foldl (fun n k ↦ if (w.slots k).present then n + 1 else n) n =
        n + (ks.countP fun k ↦ (w.slots k).present : ℕ) := by
    intro ks
    induction ks with
    | nil => exact fun n ↦ (add_zero n).symm
    | cons k rest ih =>
      intro n
      rw [List.foldl_cons, ih, List.countP_cons]
      split_ifs <;> omega
  unfold cmdDbsize presentCount
  rw [hfold, zero_add]

/-- Deleting a present key lowers the count by one. -/
theorem presentCount_delete {slots : Fin K → Slot} {k : Fin K}
    (hpresent : (slots k).present = true) :
    presentCount (Function.update slots k Slot.absent) + 1 = presentCount slots := by
  have hperm := List.perm_cons_erase (List.mem_finRange k)
  have hothers : ((List.finRange K).erase k).countP
        (fun j ↦ (Function.update slots k Slot.absent j).present) =
      ((List.finRange K).erase k).countP fun j ↦ (slots j).present := by
    refine List.countP_congr fun j hj ↦ ?_
    have hne : j ≠ k := fun heq ↦ (List.nodup_finRange K).not_mem_erase (heq ▸ hj)
    rw [Function.update_of_ne hne]
  unfold presentCount
  rw [hperm.countP_eq, hperm.countP_eq, List.countP_cons, List.countP_cons, hothers,
    Function.update_self]
  simp [hpresent, Slot.absent]

end RedisCvlr.Keyspace
