import Mathlib.Data.List.Lex
import Mathlib.Data.List.Sort
import Mathlib.Data.Prod.Lex
import Mathlib.Data.String.Basic
import RedisCvlr.Driver.Resp
import RedisCvlr.Model.Nondet

/-!
# Differential testing

The harness of `src/driver/difftest.rs`: it draws a schedule, runs it against the model and against
a server, and compares the replies and a snapshot of the end state. A server is a function that
answers a request and changes its own state; `Reply`s stand for its answers where the harness
issues model commands.
-/

set_option autoImplicit false
set_option relaxedAutoImplicit false

namespace RedisCvlr.Driver

open RedisCvlr.Model

variable {K C : ℕ}

/-! ### Schedules -/

/-- `TICK_MS`, the length of a tick. -/
def tickMs : Ms := 60

/-- `PAST`, an offset that has elapsed. -/
def past : Ms := -10000

/-- `SOON`, an offset that the next tick crosses. -/
def soon : Ms := 30

/-- `FAR`, an offset that no schedule reaches. -/
def far : Ms := 600000

/-- `key_name`. -/
def keyName (k : Fin K) : String := "k" ++ toString k.val

/-- Steps of a schedule: a command, or a tick that the server sleeps through. -/
inductive DiffStep (K C : ℕ)
  | cmd (command : Cmd K C)
  | tick
  deriving DecidableEq

/-- `draw_ttl_offset`. -/
def drawTtlOffset : Rule (Option Ms) := do
  match (← nondetRange 4) with
  | 0 => return none
  | 1 => return some past
  | 2 => return some soon
  | _ => return some far

/-- The TTL argument of a drawn SET. -/
def drawDiffTtl (base : Ms) : Rule TtlArg := do
  match (← drawTtlOffset) with
  | none => if (← nondetRange 2) == 0 then return .none else return .keep
  | some off => return .pxAt (wrapI64 (base + off))

/-- `draw_diff_cmd`. -/
def drawDiffCmd [NeZero K] (base : Ms) : Rule (Cmd K C) := do
  let k ← drawKey
  match (← nondetRange 11) with
  | 0 | 1 =>
    let val ← drawStr
    let cond ← drawSetCond
    let ttl ← drawDiffTtl base
    let get ← nondetRange 2
    return .set k val cond ttl (get == 0)
  | 2 => return .get k
  | 3 => return .del k
  | 4 => return .existsKey k
  | 5 => return .type k
  | 6 =>
    let off ← drawTtlOffset
    let cond ← drawExpireCond
    return .expire k (wrapI64 (base + off.getD far)) cond
  | 7 => return .persist k
  | 8 => return .pttl k
  | 9 => return .keys
  | _ => return .dbSize

/-- One step of a drawn schedule. -/
def drawDiffStep [NeZero K] (base : Ms) : Rule (DiffStep K C) := do
  if (← nondetRange 8) == 0 then return .tick
  else return .cmd (← drawDiffCmd base)

/-- `draw_schedule`, on the stream that the seed selects. -/
def drawSchedule [NeZero K] (base : Ms) : ℕ → Rule (List (DiffStep K C))
  | 0 => return []
  | len + 1 => do
    let s ← drawDiffStep base
    return s :: (← drawSchedule base len)

/-! ### Rendering -/

/-- The condition arguments of a SET. -/
def setCondArgs : SetCond → List (List UInt8)
  | .always => []
  | .nx => [asBytes "NX"]
  | .xx => [asBytes "XX"]

/-- The TTL arguments of a SET. -/
def ttlArgs : TtlArg → List (List UInt8)
  | .none => []
  | .keep => [asBytes "KEEPTTL"]
  | .pxAt time => [asBytes "PXAT", asBytes (toString time)]

/-- The GET flag of a SET. -/
def getArgs (get : Bool) : List (List UInt8) := if get then [asBytes "GET"] else []

/-- The condition arguments of an EXPIRE. -/
def expireCondArgs : ExpireCond → List (List UInt8)
  | .none => []
  | .nx => [asBytes "NX"]
  | .xx => [asBytes "XX"]
  | .gt => [asBytes "GT"]
  | .lt => [asBytes "LT"]

/-- `render`: the arguments that a command is sent as. The commands on watches have no rendering and
are sent as PING. -/
def render : Cmd K C → List (List UInt8)
  | .set key val cond ttl get =>
    [asBytes "SET", asBytes (keyName key), val.asSlice] ++
      (setCondArgs cond ++ (ttlArgs ttl ++ getArgs get))
  | .get key => [asBytes "GET", asBytes (keyName key)]
  | .del key => [asBytes "DEL", asBytes (keyName key)]
  | .existsKey key => [asBytes "EXISTS", asBytes (keyName key)]
  | .type key => [asBytes "TYPE", asBytes (keyName key)]
  | .expire key time cond =>
    [asBytes "PEXPIREAT", asBytes (keyName key), asBytes (toString time)] ++ expireCondArgs cond
  | .persist key => [asBytes "PERSIST", asBytes (keyName key)]
  | .pttl key => [asBytes "PTTL", asBytes (keyName key)]
  | .keys => [asBytes "KEYS", asBytes "*"]
  | .dbSize => [asBytes "DBSIZE"]
  | .watch _ _ => [asBytes "PING"]
  | .unwatch _ => [asBytes "PING"]

/-! ### Comparing replies -/

/-- `sort` on a vector, by the order of a key. -/
def sortBy {α β : Type*} [LinearOrder β] (key : α → β) (xs : List α) : List α :=
  xs.insertionSort fun a b ↦ key a ≤ key b

/-- The buckets in which replies to PTTL are compared. -/
def bucket (n : ℤ) : ℤ := if n ≤ -2 then -2 else if n = -1 then -1 else 0

/-- The keys of a reply to KEYS. -/
def reportedKeys : Reply K → List (Fin K)
  | .keySet set => (List.finRange K).filter set
  | _ => []

/-- The comparison of replies to PTTL, by bucket. -/
def bucketsAgree (model : Reply K) (server : Resp) : Bool :=
  match model with
  | .int n =>
    match server.asInt with
    | some m => bucket n == bucket m
    | none => false
  | _ => false

/-- The comparison of other replies, by value. -/
def valuesAgree (model : Reply K) (server : Resp) : Bool :=
  match model, server with
  | .ok, .simple text => text == "OK"
  | .nil, reply => reply.isNil
  | .int n, .int m => n == m
  | .str s, .bulk bytes => s.asSlice == bytes
  | .type .str, .simple text => text == "string"
  | .noType, .simple text => text == "none"
  | .keySet set, .array items =>
    sortBy id ((reportedKeys (.keySet set)).map keyName) ==
      sortBy id (items.filterMap fun item ↦ item.asBulk.map fromUtf8Lossy)
  | .error, .error _ => true
  | _, _ => false

/-- `replies_agree`. -/
def repliesAgree (model : Reply K) (server : Resp) (wasPttl : Bool) : Bool :=
  if wasPttl then bucketsAgree model server else valuesAgree model server

/-! ### Snapshots -/

/-- What the harness compares at the end of a run: the number of physically present keys, the names
of the visible keys, and the name, the value and whether there is a TTL for each of them. -/
structure Snapshot where
  dbsize : ℤ
  visible : List String
  values : List (String × List UInt8 × Bool)
  deriving DecidableEq

/-- The lexicographic order by which the values of a snapshot are sorted. -/
def entryOrder (entry : String × List UInt8 × Bool) : String ×ₗ List ℕ ×ₗ Bool :=
  toLex (entry.1, toLex (entry.2.1.map UInt8.toNat, entry.2.2))

/-- The keys that a direct inspection of the slots finds visible. -/
def visibleKeys (w : World K C) : List (Fin K) :=
  (List.finRange K).filter fun k ↦ (w.slots k).present && !keyIsExpired w k

/-- The entry of a visible key. -/
def modelEntry (w : World K C) (k : Fin K) : String × List UInt8 × Bool :=
  match (w.slots k).value with
  | .str s => (keyName k, s.asSlice, (w.slots k).hasTtl)

/-- `model_snapshot`: by direct inspection. -/
def modelSnapshot (w : World K C) : Snapshot where
  dbsize := ((List.finRange K).filter fun k ↦ (w.slots k).present).length
  visible := sortBy id ((visibleKeys w).map keyName)
  values := sortBy entryOrder ((visibleKeys w).map (modelEntry w))

/-- The integer of a reply. -/
def replyInt : Reply K → Option ℤ
  | .int n => some n
  | _ => none

section Server

variable {σ : Type*} (issue : σ → Cmd K C → σ × Reply K)

/-- One round of the loop of `server_snapshot`: GET, then PTTL. -/
def observeKey (observed : σ × List (String × List UInt8 × Bool)) (k : Fin K) :
    σ × List (String × List UInt8 × Bool) :=
  match issue observed.1 (.get k) with
  | (s, .str v) =>
    let (s, ttl) := issue s (.pttl k)
    (s, observed.2 ++ [(keyName k, v.asSlice, decide (0 ≤ (replyInt ttl).getD (-2)))])
  | (s, _) => (s, observed.2)

/-- `server_snapshot`, against anything that answers commands: DBSIZE, KEYS, then GET and PTTL for
each reported key in the order of the names. -/
def serverSnapshot (s : σ) : σ × Snapshot :=
  let sized := issue s .dbSize
  let listed := issue sized.1 .keys
  let visible := sortBy keyName (reportedKeys listed.2)
  let observed := visible.foldl (observeKey issue) (listed.1, [])
  (observed.1, ⟨(replyInt sized.2).getD (-1), visible.map keyName, sortBy entryOrder observed.2⟩)

end Server

/-! ### Runs -/

/-- What a run shows of one step: the slots after it and the reply to a command. -/
structure Observation (K C : ℕ) where
  step : DiffStep K C
  slots : Fin K → Slot
  reply : Option (Reply K)

/-- Whether a step issues PTTL. -/
def DiffStep.isPttl : DiffStep K C → Bool
  | .cmd (.pttl _) => true
  | _ => false

section Runs

variable [NeZero C]

/-- One step of `run_schedule` on the side of the model. -/
def modelStep (w : World K C) : DiffStep K C → World K C × Option (Reply K)
  | .cmd command =>
    let executed := execCmd w 0 command
    (executed.1, some executed.2)
  | .tick => ({ w with clock := wrapI64 (w.clock + tickMs) }, none)

/-- The side of the model in `run_schedule`: the world at the end and what each step shows. -/
def modelRun : World K C → List (DiffStep K C) → World K C × List (Observation K C)
  | w, [] => (w, [])
  | w, s :: rest =>
    let stepped := modelStep w s
    let run := modelRun stepped.1 rest
    (run.1, ⟨s, stepped.1.slots, stepped.2⟩ :: run.2)

end Runs

end RedisCvlr.Driver
