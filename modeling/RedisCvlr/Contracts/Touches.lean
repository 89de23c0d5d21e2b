import Mathlib.Data.List.Nodup
import RedisCvlr.Transactions.Representation

/-!
# The contract of a touch

`touchWatchedKey` walks a snapshot of the watcher list of a key, and its body removes clients from
that list and from the lists of all other keys. `TouchContract` says what comes out in terms of the
world before: which watchers are dirtied, which lose a flag, which are left as they are because the
walk has stopped before them, and what remains of every watcher list. It holds in every world with a
well-formed watch table, whether or not a run reaches it.
-/

set_option autoImplicit false
set_option relaxedAutoImplicit false

namespace RedisCvlr.Contracts

open RedisCvlr.Model RedisCvlr.Watch RedisCvlr.Keyspace RedisCvlr.Transactions

variable {K C : ℕ}

/-! ### The property -/

/-- The client did not see the key expired when it began to watch it. -/
def unflagged (w : World K C) (k : Fin K) (c : Fin C) : Bool := !(w.clients c).watchedExpired k

/-- The clients that a touch of the key dirties: of the watchers of an absent key those without a
flag, and of the watchers of a present key those before the first one with a flag. -/
def dirtiedByTouch (w : World K C) (k : Fin K) : List (Fin C) :=
  if (w.slots k).present then (w.watchers k).takeWhile (unflagged w k)
  else (w.watchers k).filter (unflagged w k)

/-- What a touch of a key does. -/
structure TouchContract (w : World K C) (k : Fin K) (after : World K C) : Prop where
  dirtyCas_iff : ∀ c, (after.clients c).dirtyCas = true ↔
    (w.clients c).dirtyCas = true ∨ c ∈ dirtiedByTouch w k
  dirtied_eq : ∀ c ∈ dirtiedByTouch w k, after.clients c = { w.clients c with
    watching := fun _ ↦ false, watchedExpired := fun _ ↦ false, dirtyCas := true }
  cleared_eq : (w.slots k).present = false →
    ∀ c ∈ w.watchers k, (w.clients c).watchedExpired k = true → after.clients c = { w.clients c with
      watchedExpired := Function.update (w.clients c).watchedExpired k false }
  spared_eq : (w.slots k).present = true →
    ∀ c ∈ (w.watchers k).dropWhile (unflagged w k), after.clients c = w.clients c
  others_eq : ∀ c, c ∉ w.watchers k → after.clients c = w.clients c
  watchers_eq : ∀ k', after.watchers k' =
    (w.watchers k').filter fun c ↦ !(dirtiedByTouch w k).contains c
  wellFormed : WatchWellFormed after
  frame : after = { w with
    clients := after.clients, watched := after.watched, earlyReturns := after.earlyReturns }

/-! ### The contract holds -/

section Touch

variable {w : World K C} {k : Fin K}

theorem dirtiedByTouch_of_present (hpresent : (w.slots k).present = true) :
    dirtiedByTouch w k = (w.watchers k).takeWhile (unflagged w k) := if_pos hpresent

theorem dirtiedByTouch_of_absent (habsent : (w.slots k).present = false) :
    dirtiedByTouch w k = (w.watchers k).filter (unflagged w k) :=
  if_neg (by rw [habsent]; exact Bool.false_ne_true)

theorem mem_watchers_of_mem_dirtiedByTouch {c : Fin C} (hc : c ∈ dirtiedByTouch w k) :
    c ∈ w.watchers k := by
  rw [dirtiedByTouch] at hc
  split_ifs at hc
  · exact (List.takeWhile_sublist _).subset hc
  · exact List.mem_of_mem_filter hc

/-- On an absent key the clients that a deletion invalidates are those that its touch dirties. -/
theorem dirties_eq_contains (h : WatchWellFormed w) (habsent : (w.slots k).present = false) :
    dirties w k = fun c ↦ (dirtiedByTouch w k).contains c := by
  funext c
  rw [Bool.eq_iff_iff, dirties, Bool.and_eq_true, List.contains_iff_mem,
    dirtiedByTouch_of_absent habsent, List.mem_filter, h.mem_watchers, unflagged]

/-- A touch of a present key invalidates the clients that it dirties. -/
theorem touch_of_present (h : WatchWellFormed w) (hpresent : (w.slots k).present = true)
    (fromExpiry : Bool) : ∃ earlyReturns, touchWatchedKey w k fromExpiry =
      { invalidate w (fun c ↦ (dirtiedByTouch w k).contains c) with
        earlyReturns := earlyReturns } := by
  have hselected : (fun c ↦ (dirtiedByTouch w k).contains c) = fun c ↦ decide
      (c ∈ (w.watchers k).takeWhile fun c ↦ !(w.clients c).watchedExpired k) := by
    funext c
    rw [dirtiedByTouch_of_present hpresent, Bool.eq_iff_iff, decide_eq_true_iff,
      List.contains_iff_mem]
    rfl
  rw [touchWatchedKey_present h hpresent, hselected]
  exact ⟨_, rfl⟩

/-- A client after a touch. -/
theorem clients_touch (h : WatchWellFormed w) (fromExpiry : Bool) (c : Fin C) :
    (touchWatchedKey w k fromExpiry).clients c =
      if c ∈ dirtiedByTouch w k then dirtyBits (w.clients c)
      else if (w.slots k).present then w.clients c else clearBits (w.clients c) k := by
  simp only [← List.contains_iff_mem]
  cases hpresent : (w.slots k).present with
  | true =>
    obtain ⟨earlyReturns, htouch⟩ := touch_of_present h hpresent fromExpiry
    rw [htouch, if_pos rfl]
    rfl
  | false =>
    rw [touchWatchedKey_absent h hpresent, clients_notify h, dirties_eq_contains h hpresent,
      if_neg Bool.false_ne_true]

/-- The watchers of a key after a touch. -/
theorem watchers_touch (h : WatchWellFormed w) (fromExpiry : Bool) (k' : Fin K) :
    (touchWatchedKey w k fromExpiry).watchers k' =
      (w.watchers k').filter fun c ↦ !(dirtiedByTouch w k).contains c := by
  cases hpresent : (w.slots k).present with
  | true =>
    obtain ⟨earlyReturns, htouch⟩ := touch_of_present h hpresent fromExpiry
    rw [htouch]
    exact watchers_invalidate h _ k'
  | false =>
    rw [touchWatchedKey_absent h hpresent, notify, dirties_eq_contains h hpresent]
    exact watchers_invalidate h _ k'

/-- The clients from the first flagged watcher on are not dirtied. -/
theorem notMem_dirtiedByTouch_of_mem_dropWhile (h : WatchWellFormed w)
    (hpresent : (w.slots k).present = true) {c : Fin C}
    (hc : c ∈ (w.watchers k).dropWhile (unflagged w k)) : c ∉ dirtiedByTouch w k := by
  have hnodup := h.nodup k
  rw [← List.takeWhile_append_dropWhile (p := unflagged w k) (l := w.watchers k)] at hnodup
  rw [dirtiedByTouch_of_present hpresent]
  exact fun hbefore ↦ List.disjoint_of_nodup_append hnodup hbefore hc

/-- Every touch meets its contract, in every world with a well-formed watch table. -/
theorem touch_exact (h : WatchWellFormed w) (k : Fin K) (fromExpiry : Bool) :
    TouchContract w k (touchWatchedKey w k fromExpiry) := by
  have hclients := clients_touch (k := k) h fromExpiry
  constructor
  · intro c
    rw [hclients]
    split_ifs with hdirtied hpresent
    · exact ⟨fun _ ↦ .inr hdirtied, fun _ ↦ rfl⟩
    · exact ⟨.inl, fun hdirty ↦ hdirty.resolve_right hdirtied⟩
    · exact ⟨.inl, fun hdirty ↦ hdirty.resolve_right hdirtied⟩
  · intro c hc
    rw [hclients, if_pos hc]
    rfl
  · intro habsent c _ hflag
    have hspared : c ∉ dirtiedByTouch w k := by
      rw [dirtiedByTouch_of_absent habsent, List.mem_filter, unflagged, hflag]
      exact fun hc ↦ absurd hc.2 Bool.false_ne_true
    rw [hclients, if_neg hspared, habsent, if_neg Bool.false_ne_true]
    rfl
  · intro hpresent c hc
    rw [hclients, if_neg (notMem_dirtiedByTouch_of_mem_dropWhile h hpresent hc), if_pos hpresent]
  · intro c hc
    have hflag : (w.clients c).watchedExpired k = false := by
      rw [← Bool.not_eq_true]
      exact fun hflag ↦ hc ((h.mem_watchers k c).mpr (h.flag_watching c k hflag))
    rw [hclients, if_neg (mt mem_watchers_of_mem_dirtiedByTouch hc), clearBits_of_unflagged hflag,
      ite_self]
  · exact watchers_touch h fromExpiry
  · exact touchWatchedKey_wellFormed h k fromExpiry
  · obtain ⟨clients, watched, earlyReturns, hframe⟩ := touchWatchedKey_frame w k fromExpiry
    rw [hframe]

/-- A world in which the second of three watchers saw the key expired. -/
def watchedWorld : World keyCount 3 :=
  let w := watchKey ((World.empty 5).setSlot 0 ⟨true, .str Str.empty, 6⟩) 0 0
  watchKey { watchKey { w with clock := 7 } 1 0 with clock := 5 } 2 0

/-- The touch of a present key stops at the flagged watcher, and that of an absent key passes it. -/
theorem touch_exact_watched :
    ((touchWatchedKey watchedWorld 0 false).clients 0).dirtyCas = true ∧
      (touchWatchedKey watchedWorld 0 false).clients 2 = watchedWorld.clients 2 ∧
      (touchWatchedKey watchedWorld 0 false).watchers 0 = [1, 2] ∧
      (touchWatchedKey (watchedWorld.setSlot 0 Slot.absent) 0 false).watchers 0 = [1] := by
  have hstart : NobodyWatches ((World.empty 5 : World keyCount 3).setSlot 0
      ⟨true, .str Str.empty, 6⟩) := ⟨rfl, fun _ _ ↦ rfl, fun _ _ ↦ rfl⟩
  have hclock : ∀ {w : World keyCount 3} (t : Ms), WatchWellFormed w →
      WatchWellFormed { w with clock := t } := fun _ h ↦
    wellFormed_of_same h rfl (fun _ ↦ rfl) fun _ _ hflag ↦ hflag
  have hwatched : WatchWellFormed watchedWorld := watchKey_wellFormed
    (hclock 5 (watchKey_wellFormed (hclock 7 (watchKey_wellFormed hstart.wellFormed 0 0)) 1 0)) 2 0
  have hpresent := touch_exact hwatched 0 false
  have habsent := touch_exact (setSlot_wellFormed hwatched 0 Slot.absent) 0 false
  refine ⟨(hpresent.dirtyCas_iff 0).mpr (.inr (by decide)),
    hpresent.spared_eq (by decide) 2 (by decide), ?_, ?_⟩
  · rw [hpresent.watchers_eq]
    decide
  · rw [habsent.watchers_eq]
    decide

end Touch

end RedisCvlr.Contracts
