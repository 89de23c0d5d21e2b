import RedisCvlr.Model.Watch

/-!
# Expiry

The functions of `src/model/expire.rs`: the seven-way conditional `expireIfNeeded`, the two lookups
built on it, and the active expire cycle. A lookup on a logically expired key may report it valid,
hide it, or delete it and propagate a bare `DEL`, depending on role, caller and configuration.
-/

set_option autoImplicit false
set_option relaxedAutoImplicit false

namespace RedisCvlr.Model

variable {K C : ℕ}

/-- What `expireIfNeeded` found and did. -/
inductive KeyStatus
  | valid
  | expired
  | deleted
  deriving DecidableEq

/-- Flags of `expireIfNeeded`. -/
structure ExpireFlags where
  allowAccessExpired : Bool
  forceDeleteExpired : Bool
  avoidDeleteExpired : Bool
  deriving DecidableEq

/-- The flags of a read lookup. -/
def ExpireFlags.read : ExpireFlags := ⟨false, false, false⟩

/-- The flags of a write lookup, which forces the deletion. -/
def ExpireFlags.write : ExpireFlags := ⟨false, true, false⟩

/-- `delete_expired_key_and_propagate`: the slot is emptied, a `DEL` is logged, and the watchers are
touched. -/
def deleteExpiredKeyAndPropagate (w : World K C) (k : Fin K) : World K C :=
  let w := w.setSlot k Slot.absent
  let w := { w with repl := w.repl.push (.del k) }
  let w := { w with dirty := w.dirty + 1 }
  touchWatchedKey w k true

/-- `expire_if_needed`, with its exits in source order. -/
def expireIfNeeded (w : World K C) (k : Fin K) (flags : ExpireFlags) : World K C × KeyStatus :=
  -- (1) the caller opts out, (2) the key is not expired
  if flags.allowAccessExpired || !keyIsExpired w k then (w, .valid)
  -- (3) a replica or a cluster node: the replication link never sees keys as expired, and a
  -- replica hides them from the others without deleting them, unless the deletion is forced
  else if (w.role == .readOnlyReplica || w.clusterEnabled) && w.caller == .masterLink then
    (w, .valid)
  else if (w.role == .readOnlyReplica || w.clusterEnabled) &&
      (w.role == .readOnlyReplica && !flags.forceDeleteExpired) then
    (w, .expired)
  -- (4) the configuration disables deletion on lookup
  else if !flags.forceDeleteExpired && !w.confAllowsExpireDel then (w, .expired)
  -- (5) the caller wants the key reported missing without a deletion
  else if flags.avoidDeleteExpired then (w, .expired)
  -- (6) expiry is paused
  else if w.expirePaused then (w, .expired)
  else (deleteExpiredKeyAndPropagate w k, .deleted)

/-- `lookup_key_read`: the value, if the key survives `expireIfNeeded`. -/
def lookupKeyRead (w : World K C) (k : Fin K) : World K C × Option Value :=
  if !(w.slots k).present then (w, none)
  else
    match expireIfNeeded w k ExpireFlags.read with
    | (w, .valid) => (w, some (w.slots k).value)
    | (w, .expired) => (w, none)
    | (w, .deleted) => (w, none)

/-- `lookup_key_write`: like the read lookup, with the deletion forced. -/
def lookupKeyWrite (w : World K C) (k : Fin K) : World K C × Option Value :=
  if !(w.slots k).present then (w, none)
  else
    match expireIfNeeded w k ExpireFlags.write with
    | (w, .valid) => (w, some (w.slots k).value)
    | (w, .expired) => (w, none)
    | (w, .deleted) => (w, none)

/-- One iteration of the active expire cycle. -/
def activeExpireKey (w : World K C) (k : Fin K) : World K C :=
  if (w.slots k).present && activeCycleWouldExpire w k then deleteExpiredKeyAndPropagate w k else w

/-- `active_expire_cycle`: every due key is deleted, in key order; a replica and a paused server do
nothing. -/
def activeExpireCycle (w : World K C) : World K C :=
  if w.role == .readOnlyReplica || w.expirePaused then w
  else (List.finRange K).foldl activeExpireKey w

end RedisCvlr.Model
