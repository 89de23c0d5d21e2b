import RedisCvlr.Specs.StringRules

/-!
# The WATCH rules

The rules of `src/specs/multi_rules.rs`. The first, that a write dirties a watcher even if it
restores the value, holds whatever it draws. The second targets the early return of
`touch_watched_key`: a flagged watcher stands before an unflagged one in the list of a key that is
present. It never holds, and every execution of it fails exactly one assertion
(`touchRule_fails_once`): the last one, because of the early return, or the first one when the drawn
time comes out as `NO_EXPIRE`, so that no flag is set and the touch does not return early.
-/

set_option autoImplicit false
set_option relaxedAutoImplicit false

namespace RedisCvlr.Specs

open RedisCvlr.Library RedisCvlr.Model RedisCvlr.Watch RedisCvlr.Keyspace
  RedisCvlr.Transactions

/-! ### The rules -/

/-- `multi_watch_is_value_blind`: a SET of the same value dirties the watcher. -/
def multiWatchIsValueBlind : Rule Unit := do
  let w : SourceWorld ← World.nondetWorld
  let w := w.pinStandaloneMaster
  let k ← drawKey
  let v ← drawStr
  let w := w.setSlot k ⟨true, .str v, noExpire⟩
  let w := watchKey w 0 k
  cvlrAssert !(w.clients 0).dirtyCas
  let (w, _) := execCmd w 1 (.set k v .always .none false)
  cvlrAssert ((w.slots k).value == .str v)
  cvlrAssert (w.clients 0).dirtyCas

/-- `multi_touch_dirties_every_watcher`: the second watcher sees the key live and is to be dirtied
by the change of the key. -/
def multiTouchDirtiesEveryWatcher : Rule Unit := do
  let w : SourceWorld ← World.nondetWorld
  let w := w.pinStandaloneMaster
  let k ← drawKey
  let v ← drawStr
  let offset ← nondetRange 1000
  let w := w.setSlot k ⟨true, .str v, elapsedTime w.clock offset⟩
  let w := watchKey w 0 k
  cvlrAssert ((w.clients 0).watchedExpired k)
  let w := w.setSlot k { w.slots k with present := true, expireAt := noExpire }
  let w := watchKey w 1 k
  cvlrAssert !((w.clients 1).watchedExpired k)
  let w := keyModified w k
  cvlrAssert (w.clients 1).dirtyCas

/-! ### The watchers of a rule -/

section Watchers

variable {w : SourceWorld} {k : Fin keyCount} {s : Slot}

theorem nobodyWatches_of_drawn (h : DrawnWorld w) (k : Fin keyCount) (s : Slot) :
    NobodyWatches (w.pinStandaloneMaster.setSlot k s) := by
  obtain ⟨slots, role, caller, hframe⟩ := h.frame
  rw [hframe]
  exact ⟨rfl, fun _ _ ↦ rfl, fun _ _ ↦ rfl⟩

theorem earlyReturns_of_drawn (h : DrawnWorld w) : w.earlyReturns = 0 := by
  obtain ⟨slots, role, caller, hframe⟩ := h.frame
  rw [hframe]
  rfl

theorem dirtyCas_of_drawn (h : DrawnWorld w) (k : Fin keyCount) (s : Slot)
    (c : Fin clientCount) : ((w.pinStandaloneMaster.setSlot k s).clients c).dirtyCas = false := by
  obtain ⟨slots, role, caller, hframe⟩ := h.frame
  rw [hframe]
  rfl

/-- The first watch of a key. -/
theorem watchKey_first (h : NobodyWatches w) (c : Fin clientCount) (k : Fin keyCount) :
    watchKey w c k = withWatch w
      (Function.update w.clients c
        (watchBits (w.clients c) k ((w.slots k).present && keyIsExpired w k)))
      (tableOf (Function.update w.watchers k [c])) := by
  have hlist : w.watchers k = [] := by
    rw [World.watchers, h.table]
    rfl
  rw [watchKey_eq h.wellFormed (h.bits c k), hlist, List.nil_append]

theorem earlyReturns_watchKey (w : SourceWorld) (c : Fin clientCount) (k : Fin keyCount) :
    (watchKey w c k).earlyReturns = w.earlyReturns := by
  unfold watchKey
  split_ifs <;> rfl

/-- The first watch of a key sets the bit of the client and records whether the key is expired. -/
theorem clients_watchKey_first (h : NobodyWatches w) (k : Fin keyCount) :
    (watchKey w 0 k).clients =
      Function.update w.clients 0
        (watchBits (w.clients 0) k ((w.slots k).present && keyIsExpired w k)) := by
  rw [watchKey_first h]
  rfl

/-- Two clients that watch a key one after the other, where the slot changes in between. -/
theorem watchKey_second (h : NobodyWatches w) (hpresent : (w.slots k).present = true)
    (hlive : keyIsExpired ((watchKey w 0 k).setSlot k s) k = false) :
    let w' := watchKey ((watchKey w 0 k).setSlot k s) 1 k
    WatchWellFormed w' ∧ w'.watchers k = [0, 1] ∧ w'.slots k = s ∧
      (w'.clients 0).watchedExpired k = keyIsExpired w k ∧
      (w'.clients 1).watchedExpired k = false ∧
      (w'.clients 1).dirtyCas = (w.clients 1).dirtyCas := by
  intro w'
  have hwf : WatchWellFormed ((watchKey w 0 k).setSlot k s) :=
    setSlot_wellFormed (watchKey_wellFormed h.wellFormed 0 k) k s
  have hclients : ((watchKey w 0 k).setSlot k s).clients = _ := clients_watchKey_first h k
  have hlist : ((watchKey w 0 k).setSlot k s).watchers k = [0] := by
    show (watchKey w 0 k).watchers k = [0]
    rw [watchKey_first h]
    refine (watchers_tableOf _ k ?_).trans (Function.update_self ..)
    rw [Function.update_self]
    decide
  have hother : (((watchKey w 0 k).setSlot k s).clients 1).watching k = false := by
    rw [hclients]
    exact h.bits 1 k
  have hw' : w' = _ := watchKey_eq hwf hother
  rw [hlive, Bool.and_false, hlist, hclients] at hw'
  refine ⟨watchKey_wellFormed hwf 1 k, ?_, ?_, ?_, ?_, ?_⟩
  · rw [hw']
    refine (watchers_tableOf _ k ?_).trans (Function.update_self ..)
    rw [Function.update_self]
    decide
  · rw [hw']
    exact Function.update_self ..
  · rw [hw']
    simp [withWatch, watchBits, hpresent]
  · rw [hw']
    simp [withWatch, watchBits]
  · rw [hw']
    simp [withWatch, watchBits]

/-- A watcher without a flag is dirtied by a SET of a live key, whatever the value. -/
theorem dirtyCas_execSet {v : Str} (hwf : WatchWellFormed w)
    (hconfig : config w = fenceConfig) (hsees : fenceConfig.sees w.clock (w.slots k) = true)
    (hflags : ∀ c, (w.clients c).watchedExpired k = false) {c : Fin clientCount}
    (hwatching : (w.clients c).watching k = true) :
    (((execCmd w 1 (.set k v .always .none false)).1.slots k).value = .str v) ∧
      ((execCmd w 1 (.set k v .always .none false)).1.clients c).dirtyCas = true := by
  have hedits : opEdits w k (.set v .always .none false) = [(k, .put v noExpire)] := by
    rw [opEdits, hconfig, KeyOp.edits, Config.purges_of_sees _ hsees]
    rfl
  have hdirties : dirties w k c = true := by
    rw [dirties, hwatching, hflags]
    rfl
  rw [execCmd_eq_outcome w 1 rfl, hedits, applyEdits_cons, applyEdits_nil, applyEdit_slots,
    clients_applyEdit hwf (.inr hflags), hdirties]
  exact ⟨by rw [Function.update_self]; rfl, rfl⟩

/-- The flag of the first of two watchers decides whether the second is dirtied, or the touch
returns before it. -/
theorem keyModified_second (hwf : WatchWellFormed w) (hpresent : (w.slots k).present = true)
    (hlist : w.watchers k = [0, 1]) (hflag : (w.clients 1).watchedExpired k = false)
    (hclean : (w.clients 1).dirtyCas = false) :
    ((keyModified w k).clients 1).dirtyCas = !(w.clients 0).watchedExpired k ∧
      (keyModified w k).earlyReturns =
        w.earlyReturns + if (w.clients 0).watchedExpired k then 1 else 0 := by
  have hany : ([0, 1].any fun c ↦ (w.clients c).watchedExpired k) =
      (w.clients 0).watchedExpired k := by
    rw [List.any_cons, List.any_cons, hflag, List.any_nil, Bool.or_false, Bool.or_false]
  rw [keyModified, touchWatchedKey_present hwf hpresent, hlist, hany]
  refine ⟨?_, rfl⟩
  cases hfirst : (w.clients 0).watchedExpired k with
  | true =>
    have hbefore : [0, 1].takeWhile (fun c ↦ !(w.clients c).watchedExpired k) = [] := by
      rw [List.takeWhile_cons, hfirst]
      rfl
    rw [hbefore]
    exact hclean
  | false =>
    have hbefore : [0, 1].takeWhile (fun c ↦ !(w.clients c).watchedExpired k) = [0, 1] := by
      rw [List.takeWhile_cons, hfirst, List.takeWhile_cons, hflag]
      rfl
    rw [hbefore]
    rfl

end Watchers

/-! ### The rules on every stream -/

theorem ensures_multiWatchIsValueBlind : Ensures (fun _ ↦ True) multiWatchIsValueBlind := by
  refine meets_drawn draws_nondetWorld fun drawn hdrawn ↦ ?_
  refine meets_drawn draws_drawKey fun k _ ↦ meets_drawn draws_drawStr fun v _ ↦ ?_
  simp only
  have hnobody := nobodyWatches_of_drawn hdrawn k ⟨true, .str v, noExpire⟩
  have hclean := dirtyCas_of_drawn hdrawn k ⟨true, .str v, noExpire⟩
  have hslot : (drawn.pinStandaloneMaster.setSlot k ⟨true, .str v, noExpire⟩).slots k =
      ⟨true, .str v, noExpire⟩ := Function.update_self ..
  have hconfig : config (drawn.pinStandaloneMaster.setSlot k ⟨true, .str v, noExpire⟩) =
    fenceConfig := rfl
  generalize drawn.pinStandaloneMaster.setSlot k ⟨true, .str v, noExpire⟩ = start at *
  have hframe := watchKey_frame start 0 k
  have hlive : keyIsExpired start k = false := by
    rw [keyIsExpired_eq, hconfig, hslot]
    rfl
  have hclients := clients_watchKey_first hnobody k
  rw [hlive, Bool.and_false] at hclients
  have hflags : ∀ c, ((watchKey start 0 k).clients c).watchedExpired k = false := by
    intro c
    rw [hclients]
    by_cases hc : c = 0
    · subst hc
      simp [watchBits]
    · rw [Function.update_of_ne hc]
      exact hnobody.flags c k
  have hset := dirtyCas_execSet (v := v) (c := 0) (watchKey_wellFormed hnobody.wellFormed 0 k)
    ((config_of_frame hframe).trans hconfig) (by rw [slots_of_frame hframe, hslot]; rfl) hflags
    (by rw [hclients]; simp [watchBits])
  refine ensures_assert_then (by rw [hclients]; simp [watchBits, hclean]) ?_
  exact ensures_assert_then (by rw [hset.1]; exact beq_self_eq_true _) (ensures_assert hset.2)

/-- Whatever it draws, the rule about the value of a watched key holds. -/
theorem valueBlindRule_holds (stream : Stream' UInt64) : multiWatchIsValueBlind.Holds stream :=
  holds_of_ensures ensures_multiWatchIsValueBlind stream

/-! ### The touch rule -/

/-- What the touch rule draws. -/
structure TouchCase where
  world : SourceWorld
  key : Fin keyCount
  value : Str
  offset : UInt64

/-- The draws of the touch rule. -/
def drawTouchCase : Rule TouchCase := do
  let w ← World.nondetWorld
  let k ← drawKey
  let v ← drawStr
  let offset ← nondetRange 1000
  return ⟨w, k, v, offset⟩

/-- The case that the touch rule draws from a stream. -/
def touchCase (stream : Stream' UInt64) : TouchCase := drawTouchCase.value stream

namespace TouchCase

variable (case : TouchCase)

/-- The first client has watched the key with an elapsed time. -/
def watchedOnce : SourceWorld :=
  let w := case.world.pinStandaloneMaster
  let w := w.setSlot case.key ⟨true, .str case.value, elapsedTime w.clock case.offset⟩
  watchKey w 0 case.key

/-- The second client has watched the key too, without a time: the world that the rule touches. -/
def watchedTwice : SourceWorld :=
  let w := case.watchedOnce
  let w := w.setSlot case.key { w.slots case.key with present := true, expireAt := noExpire }
  watchKey w 1 case.key

/-- The world after the touch. -/
def touched : SourceWorld := keyModified case.watchedTwice case.key

/-- The time that the key is given is one, and not `NO_EXPIRE`. -/
def flagged : Bool := decide (case.world.clock ≠ asMs case.offset)

end TouchCase

theorem draws_drawTouchCase :
    Draws (fun case ↦ DrawnWorld case.world ∧ case.offset.toNat < 1000) drawTouchCase := by
  refine draws_bind draws_nondetWorld fun w hw ↦ draws_bind draws_drawKey fun k _ ↦ ?_
  refine draws_bind draws_drawStr fun v _ ↦ ?_
  exact draws_bind (draws_nondetRange (by decide)) fun offset hoffset ↦ draws_pure ⟨hw, hoffset⟩

/-- A rule that draws the case of the touch rule reports what it reports from there on. -/
theorem events_touchCase (body : SourceWorld → Fin keyCount → Str → UInt64 → Rule Unit)
    (stream : Stream' UInt64) :
    Program.events (do
        let w ← World.nondetWorld
        let k ← drawKey
        let v ← drawStr
        let offset ← nondetRange 1000
        body w k v offset) stream =
      (body (touchCase stream).world (touchCase stream).key (touchCase stream).value
        (touchCase stream).offset).events (drawTouchCase.rest stream) := by
  have hdrawn : (drawTouchCase >>= fun case ↦
      body case.world case.key case.value case.offset).events stream = _ :=
    events_drawn draws_drawTouchCase stream
  simp only [drawTouchCase, bind_assoc, pure_bind] at hdrawn
  exact hdrawn

/-- What the touch rule asserts, where the first flag is read before the second watch. -/
theorem events_touch (stream : Stream' UInt64) :
    multiTouchDirtiesEveryWatcher.events stream =
      [((touchCase stream).watchedOnce.clients 0).watchedExpired (touchCase stream).key,
        !((touchCase stream).watchedTwice.clients 1).watchedExpired (touchCase stream).key,
        ((touchCase stream).touched.clients 1).dirtyCas].map .assert := by
  unfold multiTouchDirtiesEveryWatcher
  rw [events_touchCase]
  rfl

/-- The first watcher is flagged unless the drawn clock and offset coincide, the second is not, and
the touch returns early exactly when the first is. -/
theorem touched_of_drawn {case : TouchCase} (h : DrawnWorld case.world)
    (hoffset : case.offset.toNat < 1000) :
    (case.watchedOnce.clients 0).watchedExpired case.key = case.flagged ∧
      (case.watchedTwice.clients 1).watchedExpired case.key = false ∧
      (case.touched.clients 1).dirtyCas = !case.flagged ∧
      case.touched.earlyReturns = if case.flagged then 1 else 0 := by
  let s : Slot := ⟨true, .str case.value, elapsedTime case.world.clock case.offset⟩
  let start := case.world.pinStandaloneMaster.setSlot case.key s
  let later : Slot :=
    { case.watchedOnce.slots case.key with present := true, expireAt := noExpire }
  have hnobody : NobodyWatches start := nobodyWatches_of_drawn h case.key s
  have hslot : start.slots case.key = s := Function.update_self ..
  have hpresent : (start.slots case.key).present = true := by rw [hslot]
  have hexpired : keyIsExpired start case.key = case.flagged :=
    keyIsExpired_of_elapsedTime (w := start) rfl h.clock hoffset (congrArg Slot.expireAt hslot)
  have hlive : keyIsExpired (case.watchedOnce.setSlot case.key later) case.key = false := by
    rw [keyIsExpired_eq, World.setSlot]
    simp [Function.update_self, later, Config.expired, Slot.hasTtl]
  obtain ⟨hwf, hlist, hlater, hfirst, hsecond, hdirty⟩ :=
    watchKey_second hnobody hpresent hlive
  have hclean : (case.watchedTwice.clients 1).dirtyCas = false :=
    hdirty.trans (dirtyCas_of_drawn h case.key s 1)
  obtain ⟨htouched, hreturns⟩ := keyModified_second hwf (congrArg Slot.present hlater) hlist
    hsecond hclean
  have hcount : case.watchedTwice.earlyReturns = 0 := by
    refine (earlyReturns_watchKey _ _ _).trans ?_
    refine (earlyReturns_watchKey start _ _).trans ?_
    exact earlyReturns_of_drawn (w := case.world) h
  rw [hfirst, hexpired] at htouched hreturns
  refine ⟨?_, hsecond, htouched, ?_⟩
  · rw [show case.watchedOnce.clients = _ from clients_watchKey_first hnobody case.key]
    simp [watchBits, hpresent, hexpired]
  · calc case.touched.earlyReturns
        = case.watchedTwice.earlyReturns + if case.flagged then 1 else 0 := hreturns
      _ = if case.flagged then 1 else 0 := by rw [hcount, Nat.zero_add]

/-- What the touch rule asserts on a stream. -/
theorem assertions_touch (stream : Stream' UInt64) :
    multiTouchDirtiesEveryWatcher.assertions stream =
      [(touchCase stream).flagged, true, !(touchCase stream).flagged] := by
  obtain ⟨hdrawn, hoffset⟩ := (draws_drawTouchCase stream).1
  obtain ⟨hfirst, hsecond, hdirty, -⟩ := touched_of_drawn hdrawn hoffset
  rw [assertions_of_events (events_touch stream)]
  exact congrArg₂ List.cons hfirst (congrArg₂ List.cons (congrArg not hsecond)
    (congrArg₂ List.cons hdirty rfl))

/-- Whatever it draws, the touch rule fails exactly one of its three assertions: the first one if
the drawn clock and offset coincide, and otherwise the last one, in an execution in which the touch
returns early. -/
theorem touchRule_fails_once (stream : Stream' UInt64) :
    multiTouchDirtiesEveryWatcher.assertions stream =
        [(touchCase stream).flagged, true, !(touchCase stream).flagged] ∧
      (touchCase stream).touched.earlyReturns = if (touchCase stream).flagged then 1 else 0 := by
  obtain ⟨hdrawn, hoffset⟩ := (draws_drawTouchCase stream).1
  obtain ⟨-, -, -, hreturns⟩ := touched_of_drawn hdrawn hoffset
  exact ⟨assertions_touch stream, hreturns⟩

end RedisCvlr.Specs
