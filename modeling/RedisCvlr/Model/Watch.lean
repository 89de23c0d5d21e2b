import RedisCvlr.Model.State

/-!
# WATCH and CAS invalidation

The functions of `src/model/watch.rs`. `touchWatchedKey` walks a snapshot of the watcher list of a
key. A watcher that saw the key already expired is skipped, with its flag cleared, when the key is
now absent; when the key is present, the source abandons the whole remaining list with a `return`,
which is transcribed as written and counted in `World.earlyReturns`. Every other watcher is dirtied
and loses all its watches.
-/

set_option autoImplicit false
set_option relaxedAutoImplicit false

namespace RedisCvlr.Model

open RedisCvlr.Library

variable {K C : ℕ}

/-- `watch_key`: records whether the key is already logically expired and appends the client to the
watcher list. A client that already watches the key is left alone. -/
def watchKey (w : World K C) (c : Fin C) (k : Fin K) : World K C :=
  if (w.clients c).watching k then w
  else
    let expiredNow := (w.slots k).present && keyIsExpired w k
    let client := w.clients c
    { w.setClient c
        { client with
          watching := Function.update client.watching k true
          watchedExpired := Function.update client.watchedExpired k expiredNow } with
      watched := w.watched.addTail k c }

/-- One iteration of `unwatch_all`: a watched key loses its bit, its flag and its list entry. -/
def unwatchOne (c : Fin C) (w : World K C) (k : Fin K) : World K C :=
  if (w.clients c).watching k then
    let client := w.clients c
    { w.setClient c
        { client with
          watching := Function.update client.watching k false
          watchedExpired := Function.update client.watchedExpired k false } with
      watched := w.watched.remove k c }
  else w

/-- `unwatch_all`: drops every watch of a client, key by key. The dirty bit is not touched. -/
def unwatchAll (w : World K C) (c : Fin C) : World K C :=
  (List.finRange K).foldl (unwatchOne c) w

/-- Clears the expired-at-WATCH flag of a client on a key. -/
def clearFlag (w : World K C) (c : Fin C) (k : Fin K) : World K C :=
  w.setClient c
    { w.clients c with watchedExpired := Function.update (w.clients c).watchedExpired k false }

/-- Dirties a client: `dirty_cas` is set and every watch is dropped. -/
def dirtyClient (w : World K C) (c : Fin C) : World K C :=
  unwatchAll (w.setClient c { w.clients c with dirtyCas := true }) c

/-- The loop of `touch_watched_key` over the snapshot of the watcher list. -/
def touchLoop (k : Fin K) : List (Option (Fin C)) → World K C → World K C
  | [], w => w
  | none :: rest, w => touchLoop k rest w
  | some c :: rest, w =>
    if (w.clients c).watchedExpired k then
      if !(w.slots k).present then touchLoop k rest (clearFlag w c k)
      -- the `return` that abandons the rest of the list
      else { w with earlyReturns := w.earlyReturns + 1 }
    else touchLoop k rest (dirtyClient w c)

/-- `touch_watched_key`: the watcher list is snapshotted first, so that the removals inside the
loop do not disturb the iteration. -/
def touchWatchedKey (w : World K C) (k : Fin K) (_fromExpiry : Bool) : World K C :=
  touchLoop k ((List.range (w.watched.len k)).map (PrefixArray.read (w.watched.order k))) w

/-- `key_modified`: called by every write path. -/
def keyModified (w : World K C) (k : Fin K) : World K C := touchWatchedKey w k false

end RedisCvlr.Model
