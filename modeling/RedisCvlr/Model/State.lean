import Mathlib.Algebra.GroupWithZero.Nat
import Mathlib.Data.Fintype.Pi
import Mathlib.Data.List.FinRange
import RedisCvlr.Library.PrefixArray

/-!
# Abstract Redis state

The state of `src/model/state.rs`. The keyspace is physical: `Slot.present` is membership in the
key table, and whether a client sees a key is a derived function (`keyIsExpired`,
`World.snapshotVisible`). The propagated effect stream `ReplLog` is part of the state.

The numbers of keys and clients are parameters; the source fixes them to `keyCount` and
`clientCount`. Arrays indexed by a key, a client or a list position are functions from `Fin`, so
an identifier out of range cannot be written. A position of a watcher list is a natural number, as
in the source, and a read or write past the end of the array, where the source would panic, reads
`none` or writes nothing.

Times are `i64` in the source. They are integers here, and the arithmetic that the source performs
on them wraps explicitly (`wrapI64`), as it does in a release build.

`World.earlyReturns` is ghost state: it counts how often the early `return` of
`touchWatchedKey` has run. The source has no such field and nothing reads it.
-/

set_option autoImplicit false
set_option relaxedAutoImplicit false

namespace RedisCvlr.Model

open RedisCvlr.Library

/-! ### Constants and times -/

/-- `K`, the number of distinct keys. -/
abbrev keyCount : ℕ := 3

/-- `C`, the number of clients. -/
abbrev clientCount : ℕ := 2

instance : NeZero keyCount := ⟨by decide⟩

instance : NeZero clientCount := ⟨by decide⟩

/-- `VLEN`, the maximal length of a string value. -/
abbrev valueLength : ℕ := 8

/-- `REPL_CAP`, the capacity of the propagation log. -/
abbrev replCap : ℕ := 8

/-- Milliseconds, an `i64` in the source. -/
abbrev Ms := ℤ

/-- The integers that an `i64` represents. -/
def IsI64 (x : ℤ) : Prop := -2 ^ 63 ≤ x ∧ x < 2 ^ 63

instance (x : ℤ) : Decidable (IsI64 x) := inferInstanceAs (Decidable (_ ∧ _))

/-- Two's complement reduction of an integer to the `i64` range. -/
def wrapI64 (x : ℤ) : ℤ := Int.bmod x (2 ^ 64)

theorem wrapI64_eq {x : ℤ} (hx : IsI64 x) : wrapI64 x = x := by
  obtain ⟨hlow, hhigh⟩ := hx
  exact Int.bmod_eq_of_le_mul_two (by omega) (by omega)

/-- The reduction subtracts the modulus from the upper half of the remainders. -/
theorem wrapI64_eq_ite (x : ℤ) : wrapI64 x =
    if x % 18446744073709551616 < (18446744073709551616 + 1) / 2 then x % 18446744073709551616
    else x % 18446744073709551616 - 18446744073709551616 :=
  Int.bmod_def x (2 ^ 64)

theorem isI64_wrapI64 (x : ℤ) : IsI64 (wrapI64 x) := by
  rw [wrapI64_eq_ite]
  unfold IsI64
  split_ifs <;> omega

/-- The sentinel for no TTL. -/
def noExpire : Ms := -1

/-! ### Values and slots -/

/-- A bounded byte string: a buffer and the length in use. -/
structure Str where
  bytes : Fin valueLength → UInt8
  len : ℕ
  deriving DecidableEq

/-- The empty string value. -/
def Str.empty : Str := ⟨fun _ ↦ 0, 0⟩

/-- `as_slice`: the bytes in use. A length past the buffer, where the source would panic, takes the
whole buffer. -/
def Str.asSlice (s : Str) : List UInt8 := (List.ofFn s.bytes).take s.len

/-- Values; only strings in this iteration. -/
inductive Value
  | str (s : Str)
  deriving DecidableEq

/-- Type tags of values. -/
inductive VType
  | str
  deriving DecidableEq

/-- The type tag of a value. -/
def Value.vtype : Value → VType
  | .str _ => .str

/-- One keyspace entry, with its TTL stored in place. -/
structure Slot where
  present : Bool
  value : Value
  expireAt : Ms
  deriving DecidableEq

/-- The slot of a key that is not in the key table. -/
def Slot.absent : Slot := ⟨false, .str Str.empty, noExpire⟩

/-- Whether a slot carries a TTL. -/
def Slot.hasTtl (s : Slot) : Bool := s.expireAt != noExpire

/-- Replication role of the server. -/
inductive Role
  | master
  | readOnlyReplica
  deriving DecidableEq

/-- Who issues the command. `masterLink` is the replication link of the master. -/
inductive Caller
  | normal
  | masterLink
  deriving DecidableEq

/-! ### The propagation log -/

/-- A propagated effect. `set` carries an absolute expire time. -/
inductive Effect (K : ℕ)
  | multi
  | exec
  | set (key : Fin K) (val : Str) (pxat : Ms)
  | del (key : Fin K)
  | pExpireAt (key : Fin K) (time : Ms)
  | persist (key : Fin K)
  deriving DecidableEq

/-- The key an effect is about; the transaction markers have none. -/
def Effect.key? {K : ℕ} : Effect K → Option (Fin K)
  | .multi => none
  | .exec => none
  | .set key _ _ => some key
  | .del key => some key
  | .pExpireAt key _ => some key
  | .persist key => some key

/-- The bounded log of propagated effects. -/
structure ReplLog (K : ℕ) where
  ops : Fin replCap → Option (Effect K)
  len : ℕ
  deriving DecidableEq

namespace ReplLog

variable {K : ℕ}

/-- The empty log. -/
def new : ReplLog K := ⟨fun _ ↦ none, 0⟩

/-- Appends an effect, and drops it silently when the log is full. -/
def push (log : ReplLog K) (e : Effect K) : ReplLog K :=
  if log.len < replCap then ⟨PrefixArray.write log.ops log.len (some e), log.len + 1⟩ else log

/-- The effect at a position below the length. -/
def get (log : ReplLog K) (i : ℕ) : Option (Effect K) :=
  if i < log.len then PrefixArray.read log.ops i else none

/-- The logged effects in order. -/
def entries (log : ReplLog K) : List (Effect K) := PrefixArray.contents log.ops log.len

end ReplLog

/-! ### Clients and watchers -/

/-- Per-client transaction state. `watchedExpired` records that the key was already logically
expired when it was watched. -/
structure ClientState (K : ℕ) where
  watching : Fin K → Bool
  watchedExpired : Fin K → Bool
  dirtyCas : Bool
  inMulti : Bool
  dirtyExec : Bool
  deriving DecidableEq

/-- A client that watches nothing. -/
def ClientState.new {K : ℕ} : ClientState K := ⟨fun _ ↦ false, fun _ ↦ false, false, false, false⟩

/-- Per-key ordered watcher lists, as arrays with a length. -/
structure WatchTable (K C : ℕ) where
  order : Fin K → Fin C → Option (Fin C)
  len : Fin K → ℕ
  deriving DecidableEq

namespace WatchTable

variable {K C : ℕ}

/-- The table with no watchers. -/
def new : WatchTable K C := ⟨fun _ _ ↦ none, fun _ ↦ 0⟩

/-- Appends a watcher to the list of a key, and drops it silently when the list is full. -/
def addTail (t : WatchTable K C) (k : Fin K) (c : Fin C) : WatchTable K C :=
  if t.len k < C then
    ⟨Function.update t.order k (PrefixArray.write (t.order k) (t.len k) (some c)),
      Function.update t.len k (t.len k + 1)⟩
  else t

/-- Removes a client from the list of a key: one compacting pass, then the tail is blanked. -/
def remove (t : WatchTable K C) (k : Fin K) (c : Fin C) : WatchTable K C :=
  let compacted := PrefixArray.keepCells (· != some c) (t.order k) (t.len k)
  ⟨Function.update t.order k (PrefixArray.clearFrom compacted.1 compacted.2),
    Function.update t.len k compacted.2⟩

/-- The watcher list of a key, in insertion order. -/
def watchers (t : WatchTable K C) (k : Fin K) : List (Fin C) :=
  PrefixArray.contents (t.order k) (t.len k)

end WatchTable

/-! ### The world -/

/-- The state of the model. -/
structure World (K C : ℕ) where
  slots : Fin K → Slot
  watched : WatchTable K C
  clock : Ms
  role : Role
  caller : Caller
  allowAccessExpired : Bool
  expirePaused : Bool
  clusterEnabled : Bool
  confAllowsExpireDel : Bool
  clients : Fin C → ClientState K
  repl : ReplLog K
  dirty : ℕ
  nesting : ℕ
  /-- Ghost: the number of early returns of `touchWatchedKey` so far. -/
  earlyReturns : ℕ
  deriving DecidableEq

namespace World

variable {K C : ℕ}

/-- An empty world at a given clock. -/
def empty (clock : Ms) : World K C where
  slots := fun _ ↦ Slot.absent
  watched := WatchTable.new
  clock := clock
  role := .master
  caller := .normal
  allowAccessExpired := false
  expirePaused := false
  clusterEnabled := false
  confAllowsExpireDel := true
  clients := fun _ ↦ ClientState.new
  repl := ReplLog.new
  dirty := 0
  nesting := 0
  earlyReturns := 0

/-- The scope fence: standalone master, normal caller, no debug escape, no pause, cluster off. -/
def pinStandaloneMaster (w : World K C) : World K C :=
  { w with
    role := .master
    caller := .normal
    allowAccessExpired := false
    expirePaused := false
    clusterEnabled := false
    confAllowsExpireDel := true }

/-- Replaces the slot of a key. -/
def setSlot (w : World K C) (k : Fin K) (s : Slot) : World K C :=
  { w with slots := Function.update w.slots k s }

/-- Replaces the state of a client. -/
def setClient (w : World K C) (c : Fin C) (s : ClientState K) : World K C :=
  { w with clients := Function.update w.clients c s }

/-- The watcher list of a key, in insertion order. -/
def watchers (w : World K C) (k : Fin K) : List (Fin C) := w.watched.watchers k

end World

/-! ### Visibility -/

section Visibility

variable {K C : ℕ}

/-- Logical expiry as a lazy lookup decides it: the comparison with the clock is strict. -/
def keyIsExpired (w : World K C) (k : Fin K) : Bool :=
  if w.allowAccessExpired then false
  else
    let whenMs := (w.slots k).expireAt
    if whenMs == noExpire then false else decide (w.clock > whenMs)

/-- Expiry as the active cycle decides it: the comparison with the clock is not strict. -/
def activeCycleWouldExpire (w : World K C) (k : Fin K) : Bool :=
  let whenMs := (w.slots k).expireAt
  if whenMs == noExpire then false else decide (w.clock ≥ whenMs)

/-- The observable projection: the visible keys with their type, value and TTL. -/
def World.snapshotVisible (w : World K C) (k : Fin K) : Option (VType × Str × Ms) :=
  if (w.slots k).present && !keyIsExpired w k then
    match (w.slots k).value with
    | .str s => some (.str, s, (w.slots k).expireAt)
  else none

end Visibility

end RedisCvlr.Model
