import RedisCvlr.Model.Expire

/-!
# Commands and replies

The commands of `src/model/cmd.rs`. A command returns the world after it and its reply.
-/

set_option autoImplicit false
set_option relaxedAutoImplicit false

namespace RedisCvlr.Model

variable {K C : ℕ}

/-! ### Syntax -/

/-- The condition of a SET. -/
inductive SetCond
  | always
  | nx
  | xx
  deriving DecidableEq

/-- The TTL argument of a SET, with absolute times. -/
inductive TtlArg
  | none
  | keep
  | pxAt (time : Ms)
  deriving DecidableEq

/-- The condition of an EXPIRE. -/
inductive ExpireCond
  | none
  | nx
  | xx
  | gt
  | lt
  deriving DecidableEq

/-- Commands. `existsKey` is EXISTS. -/
inductive Cmd (K C : ℕ)
  | set (key : Fin K) (val : Str) (cond : SetCond) (ttl : TtlArg) (get : Bool)
  | get (key : Fin K)
  | del (key : Fin K)
  | existsKey (key : Fin K)
  | type (key : Fin K)
  | expire (key : Fin K) (time : Ms) (cond : ExpireCond)
  | persist (key : Fin K)
  | pttl (key : Fin K)
  | keys
  | dbSize
  | watch (client : Fin C) (key : Fin K)
  | unwatch (client : Fin C)
  deriving DecidableEq

/-- Replies. KEYS replies a set of keys, as its order is unspecified. -/
inductive Reply (K : ℕ)
  | ok
  | nil
  | int (n : ℤ)
  | str (s : Str)
  | keySet (set : Fin K → Bool)
  | type (t : VType)
  | noType
  | error
  deriving DecidableEq

/-! ### Helpers -/

/-- `set_expire`. -/
def setExpire (w : World K C) (k : Fin K) (time : Ms) : World K C :=
  w.setSlot k { w.slots k with expireAt := time }

/-- `remove_expire`. -/
def removeExpire (w : World K C) (k : Fin K) : World K C :=
  w.setSlot k { w.slots k with expireAt := noExpire }

/-- `check_already_expired`: an absolute time in the past, on a master. -/
def checkAlreadyExpired (w : World K C) (time : Ms) : Bool :=
  decide (time ≤ w.clock) && w.role == .master

/-- The reply of a SET with the GET flag: the old value, or nil. -/
def oldValueReply : Option Value → Reply K
  | some (.str s) => .str s
  | none => .nil

/-- The bookkeeping that ends every write: the dirty counter, the watchers of the key, then the
log. -/
def propagate (w : World K C) (k : Fin K) (e : Effect K) : World K C :=
  let w := { w with dirty := w.dirty + 1 }
  let w := keyModified w k
  { w with repl := w.repl.push e }

/-! ### Mutating commands -/

/-- The condition of a SET against the logical existence of the key. -/
def setAllowed (cond : SetCond) (keyExists : Bool) : Bool :=
  match cond with
  | .always => true
  | .nx => !keyExists
  | .xx => keyExists

/-- Whether the TTL argument of a SET is an already elapsed time. -/
def ttlElapsed (w : World K C) : TtlArg → Bool
  | .pxAt time => checkAlreadyExpired w time
  | .none => false
  | .keep => false

/-- The expire time that a SET installs. -/
def installedExpire (ttl : TtlArg) (keyExists : Bool) (prevExpire : Ms) : Ms :=
  match ttl with
  | .none => noExpire
  | .keep => if keyExists then prevExpire else noExpire
  | .pxAt time => time

/-- `cmd_set`. The GET lookup comes first, then the write lookup that decides NX and XX; an already
elapsed time deletes instead of writing. -/
def cmdSet (w : World K C) (k : Fin K) (val : Str) (cond : SetCond) (ttl : TtlArg) (get : Bool) :
    World K C × Reply K :=
  let (w, old) := if get then lookupKeyRead w k else (w, none)
  let (w, found) := lookupKeyWrite w k
  let keyExists := found.isSome
  if !setAllowed cond keyExists then (w, if get then oldValueReply old else .nil)
  else if ttlElapsed w ttl then
    if keyExists || (w.slots k).present then
      (propagate (w.setSlot k Slot.absent) k (.del k), if get then oldValueReply old else .ok)
    else (w, if get then oldValueReply old else .ok)
  else
    let expireAt := installedExpire ttl keyExists (w.slots k).expireAt
    (propagate (w.setSlot k ⟨true, .str val, expireAt⟩) k (.set k val expireAt),
      if get then oldValueReply old else .ok)

/-- `cmd_del`. -/
def cmdDel (w : World K C) (k : Fin K) : World K C × Reply K :=
  let (w, found) := lookupKeyWrite w k
  if found.isNone then (w, .int 0)
  else (propagate (w.setSlot k Slot.absent) k (.del k), .int 1)

/-- The condition of an EXPIRE against the current TTL, where no TTL counts as infinite. -/
def expireCondFails (cond : ExpireCond) (current time : Ms) : Bool :=
  match cond with
  | .none => false
  | .nx => current != noExpire
  | .xx => current == noExpire
  | .gt => current == noExpire || decide (time ≤ current)
  | .lt => current != noExpire && decide (time ≥ current)

/-- `cmd_expire`. A time already in the past deletes the key and replies 1. -/
def cmdExpire (w : World K C) (k : Fin K) (time : Ms) (cond : ExpireCond) : World K C × Reply K :=
  let (w, found) := lookupKeyWrite w k
  if found.isNone then (w, .int 0)
  else if expireCondFails cond (w.slots k).expireAt time then (w, .int 0)
  else if checkAlreadyExpired w time then
    (propagate (w.setSlot k Slot.absent) k (.del k), .int 1)
  else (propagate (setExpire w k time) k (.pExpireAt k time), .int 1)

/-- `cmd_persist`. -/
def cmdPersist (w : World K C) (k : Fin K) : World K C × Reply K :=
  let (w, found) := lookupKeyWrite w k
  if found.isNone then (w, .int 0)
  else if !(w.slots k).hasTtl then (w, .int 0)
  else (propagate (removeExpire w k) k (.persist k), .int 1)

/-! ### Whole-keyspace observations -/

/-- `cmd_keys`: the visible keys; nothing is deleted. -/
def cmdKeys (w : World K C) : World K C × Reply K :=
  (w, .keySet fun k ↦ (w.slots k).present && !keyIsExpired w k)

/-- `cmd_dbsize`: the number of physically present keys. -/
def cmdDbsize (w : World K C) : Reply K :=
  .int ((List.finRange K).foldl (fun n k ↦ if (w.slots k).present then n + 1 else n) 0)

/-! ### Execution -/

/-- `exec_cmd`: one command. The issuing client is not used yet. -/
def execCmd (w : World K C) (_c : Fin C) : Cmd K C → World K C × Reply K
  | .set key val cond ttl get => cmdSet w key val cond ttl get
  | .get key =>
    match lookupKeyRead w key with
    | (w, some (.str s)) => (w, .str s)
    | (w, none) => (w, .nil)
  | .del key => cmdDel w key
  | .existsKey key =>
    match lookupKeyRead w key with
    | (w, some _) => (w, .int 1)
    | (w, none) => (w, .int 0)
  | .type key =>
    match lookupKeyRead w key with
    | (w, some v) => (w, .type v.vtype)
    | (w, none) => (w, .noType)
  | .expire key time cond => cmdExpire w key time cond
  | .persist key => cmdPersist w key
  | .pttl key =>
    match lookupKeyRead w key with
    | (w, none) => (w, .int (-2))
    | (w, some _) =>
      if (w.slots key).hasTtl then (w, .int (wrapI64 ((w.slots key).expireAt - w.clock)))
      else (w, .int (-1))
  | .keys => cmdKeys w
  | .dbSize => (w, cmdDbsize w)
  | .watch client key => (watchKey w client key, .ok)
  | .unwatch client => (unwatchAll w client, .ok)

end RedisCvlr.Model
