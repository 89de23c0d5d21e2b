import Mathlib.Data.Fintype.Card
import RedisCvlr.Model.Step

/-!
# The watch table

The watchers of a key are stored twice: as bits of the clients and as an ordered array of the watch
table. `WatchWellFormed` is the invariant that ties the two together. Under it the table is the
canonical table of its watcher lists (`WatchWellFormed.watched_eq`), so the array operations of the
source become list operations: `addTail_tableOf` appends and `remove_tableOf` filters.

`forget` is what a client loses when all its watches are dropped: `unwatchAll_eq` shows that the
source's loop over the keys, with its compaction of every list, is exactly that.
-/

set_option autoImplicit false
set_option relaxedAutoImplicit false

namespace RedisCvlr.Watch

open RedisCvlr.Library RedisCvlr.Model

variable {K C : ℕ}

/-! ### The invariant -/

/-- The representation invariant of the watch table: the filled cells of every watcher array are a
duplicate-free prefix of the recorded length, a client occurs in the array of a key exactly when its
bit is set, and only watched keys carry an expired flag. -/
structure WatchWellFormed (w : World K C) : Prop where
  len_le : ∀ k, w.watched.len k ≤ C
  filled : ∀ k (i : Fin C), i.val < w.watched.len k → (w.watched.order k i).isSome
  blank : ∀ k (i : Fin C), w.watched.len k ≤ i.val → w.watched.order k i = none
  distinct : ∀ k (i j : Fin C), i.val < w.watched.len k → j.val < w.watched.len k →
    w.watched.order k i = w.watched.order k j → i = j
  occurs_iff : ∀ k c, (∃ i, w.watched.order k i = some c) ↔ (w.clients c).watching k = true
  flag_watching : ∀ c k, (w.clients c).watchedExpired k = true → (w.clients c).watching k = true

/-! ### Tables of lists -/

/-- The table that stores the given watcher lists. -/
def tableOf (lists : Fin K → List (Fin C)) : WatchTable K C :=
  ⟨fun k i ↦ (lists k)[i.val]?, fun k ↦ (lists k).length⟩

theorem tableOf_holds (lists : Fin K → List (Fin C)) (k : Fin K) (hfits : (lists k).length ≤ C) :
    PrefixArray.Holds ((tableOf lists).order k) ((tableOf lists).len k) (lists k) :=
  ⟨rfl, hfits, fun _ ↦ rfl⟩

theorem watchers_tableOf (lists : Fin K → List (Fin C)) (k : Fin K) (hfits : (lists k).length ≤ C) :
    (tableOf lists).watchers k = lists k :=
  (tableOf_holds lists k hfits).contents_eq

theorem eq_tableOf {t : WatchTable K C} {lists : Fin K → List (Fin C)}
    (h : ∀ k, PrefixArray.Holds (t.order k) (t.len k) (lists k)) : t = tableOf lists := by
  cases t with
  | mk order len =>
    have hcells : order = fun k i ↦ (lists k)[i.val]? := funext fun k ↦ funext (h k).cell
    have hlens : len = fun k ↦ (lists k).length := funext fun k ↦ (h k).len_eq
    rw [hcells, hlens, tableOf]

/-- Appending to the array of a key appends to its list, when there is room. -/
theorem addTail_tableOf (lists : Fin K → List (Fin C)) (k : Fin K) (c : Fin C)
    (hfits : ∀ k, (lists k).length ≤ C) (hroom : (lists k).length < C) :
    (tableOf lists).addTail k c = tableOf (Function.update lists k (lists k ++ [c])) := by
  have hlen : (tableOf lists).len k < C := hroom
  refine eq_tableOf fun k' ↦ ?_
  rw [WatchTable.addTail, if_pos hlen]
  by_cases hk : k' = k
  · subst hk
    simp only [Function.update_self]
    exact (tableOf_holds lists k' (hfits k')).push c hroom
  · simp only [Function.update_of_ne hk]
    exact tableOf_holds lists k' (hfits k')

/-- Removing from the array of a key filters its list. -/
theorem remove_tableOf (lists : Fin K → List (Fin C)) (k : Fin K) (c : Fin C)
    (hfits : ∀ k, (lists k).length ≤ C) :
    (tableOf lists).remove k c =
      tableOf (Function.update lists k ((lists k).filter (· != c))) := by
  refine eq_tableOf fun k' ↦ ?_
  rw [WatchTable.remove]
  by_cases hk : k' = k
  · subst hk
    simp only [Function.update_self]
    exact (tableOf_holds lists k' (hfits k')).retain (· != some c)
  · simp only [Function.update_of_ne hk]
    exact tableOf_holds lists k' (hfits k')

/-! ### Lists of a well-formed table -/

namespace WatchWellFormed

variable {w : World K C}

theorem holds (h : WatchWellFormed w) (k : Fin K) :
    PrefixArray.Holds (w.watched.order k) (w.watched.len k) (w.watchers k) :=
  PrefixArray.holds_contents (h.len_le k) (h.filled k) (h.blank k)

/-- A well-formed table is the table of its watcher lists. -/
theorem watched_eq (h : WatchWellFormed w) : w.watched = tableOf w.watchers := eq_tableOf h.holds

theorem length_le (h : WatchWellFormed w) (k : Fin K) : (w.watchers k).length ≤ C :=
  (h.holds k).fits

theorem nodup (h : WatchWellFormed w) (k : Fin K) : (w.watchers k).Nodup := by
  have hholds := h.holds k
  rw [List.nodup_iff_getElem?_ne_getElem?]
  intro i j hij hj heq
  have hjC : j < C := lt_of_lt_of_le hj hholds.fits
  have hlen := hholds.len_eq
  have hsame := h.distinct k ⟨i, hij.trans hjC⟩ ⟨j, hjC⟩ (by simp only; omega) (by simp only; omega)
    (by rw [hholds.cell, hholds.cell]; exact heq)
  exact absurd (Fin.mk.inj_iff.mp hsame) (Nat.ne_of_lt hij)

/-- A client is in the watcher list of a key exactly when its bit is set. -/
theorem mem_watchers (h : WatchWellFormed w) (k : Fin K) (c : Fin C) :
    c ∈ w.watchers k ↔ (w.clients c).watching k = true :=
  ((h.holds k).mem_iff c).trans (h.occurs_iff k c)

/-- A world whose table stores duplicate-free lists that match the bits is well formed. -/
theorem of_lists {lists : Fin K → List (Fin C)} (htable : w.watched = tableOf lists)
    (hnodup : ∀ k, (lists k).Nodup)
    (hmem : ∀ k c, c ∈ lists k ↔ (w.clients c).watching k = true)
    (hflag : ∀ c k, (w.clients c).watchedExpired k = true → (w.clients c).watching k = true) :
    WatchWellFormed w := by
  -- distinct clients fit: a duplicate-free list of clients has at most `C` entries
  have hfits : ∀ k, (lists k).length ≤ C := fun k ↦ by
    simpa using (hnodup k).length_le_card
  have hholds := fun k ↦ tableOf_holds lists k (hfits k)
  constructor
  · intro k
    rw [htable]
    exact hfits k
  · intro k i hi
    rw [htable] at hi ⊢
    rw [(hholds k).cell, List.getElem?_eq_getElem hi]
    rfl
  · intro k i hi
    rw [htable] at hi ⊢
    rw [(hholds k).cell, List.getElem?_eq_none hi]
  · intro k i j hi hj heq
    rw [htable] at hi hj heq
    rw [(hholds k).cell, (hholds k).cell] at heq
    exact Fin.ext ((List.getElem?_inj hi (hnodup k)).mp heq)
  · intro k c
    rw [htable, ← hmem k c]
    exact ((hholds k).mem_iff c).symm
  · exact hflag

end WatchWellFormed

theorem watchers_eq_of_table {w : World K C} {lists : Fin K → List (Fin C)}
    (htable : w.watched = tableOf lists) (hfits : ∀ k, (lists k).length ≤ C) (k : Fin K) :
    w.watchers k = lists k := by
  rw [World.watchers, htable, watchers_tableOf lists k (hfits k)]

/-! ### Dropping watches -/

/-- The world with its clients and its watch table replaced. -/
def withWatch (w : World K C) (clients : Fin C → ClientState K) (watched : WatchTable K C) :
    World K C :=
  { w with clients := clients, watched := watched }

/-- A client without its watches and flags on the listed keys. -/
def dropBits (client : ClientState K) (dropped : List (Fin K)) : ClientState K :=
  { client with
    watching := fun k ↦ if k ∈ dropped then false else client.watching k
    watchedExpired := fun k ↦ if k ∈ dropped then false else client.watchedExpired k }

/-- The world in which a client watches none of the listed keys. -/
def dropWatches (w : World K C) (c : Fin C) (dropped : List (Fin K)) : World K C :=
  withWatch w (Function.update w.clients c (dropBits (w.clients c) dropped))
    (tableOf fun k ↦ if k ∈ dropped then (w.watchers k).filter (· != c) else w.watchers k)

/-- A client without any watch or flag. -/
def forgetBits (client : ClientState K) : ClientState K :=
  { client with watching := fun _ ↦ false, watchedExpired := fun _ ↦ false }

/-- The world in which a client watches nothing. -/
def forget (w : World K C) (c : Fin C) : World K C :=
  withWatch w (Function.update w.clients c (forgetBits (w.clients c)))
    (tableOf fun k ↦ (w.watchers k).filter (· != c))

section Dropping

variable {w : World K C}

theorem watchers_dropWatches (h : WatchWellFormed w) (c : Fin C) (dropped : List (Fin K))
    (k : Fin K) : (dropWatches w c dropped).watchers k =
      if k ∈ dropped then (w.watchers k).filter (· != c) else w.watchers k := by
  have htable : (dropWatches w c dropped).watched = tableOf _ := rfl
  refine watchers_eq_of_table htable (fun k ↦ ?_) k
  split_ifs
  · exact (List.length_filter_le _ _).trans (h.length_le k)
  · exact h.length_le k

theorem dropWatches_wellFormed (h : WatchWellFormed w) (c : Fin C) (dropped : List (Fin K)) :
    WatchWellFormed (dropWatches w c dropped) := by
  refine WatchWellFormed.of_lists rfl (fun k ↦ ?_) (fun k c' ↦ ?_) (fun c' k hflag ↦ ?_)
  · split_ifs
    · exact (h.nodup k).filter _
    · exact h.nodup k
  · have hmem := h.mem_watchers k c'
    by_cases hc : c' = c
    · subst hc
      by_cases hk : k ∈ dropped <;> simp [dropWatches, withWatch, dropBits, hk, hmem]
    · by_cases hk : k ∈ dropped <;> simp [dropWatches, withWatch, hk, hc, hmem]
  · have hwatching := h.flag_watching c' k
    by_cases hc : c' = c
    · subst hc
      by_cases hk : k ∈ dropped
      · simp [dropWatches, withWatch, dropBits, hk] at hflag
      · simp only [dropWatches, withWatch, dropBits, Function.update_self, hk, if_false] at hflag ⊢
        exact hwatching hflag
    · simp only [dropWatches, withWatch, Function.update_of_ne hc] at hflag ⊢
      exact hwatching hflag

theorem dropWatches_nil (h : WatchWellFormed w) (c : Fin C) : dropWatches w c [] = w := by
  have hbits : dropBits (w.clients c) [] = w.clients c := by simp [dropBits]
  simp only [dropWatches, hbits, Function.update_eq_self, List.not_mem_nil, if_false]
  exact congrArg (withWatch w w.clients) h.watched_eq.symm

/-- Dropping one key and then others is dropping them all. -/
theorem dropWatches_cons (h : WatchWellFormed w) (c : Fin C) (k : Fin K) (dropped : List (Fin K)) :
    dropWatches (dropWatches w c [k]) c dropped = dropWatches w c (k :: dropped) := by
  have hbits : dropBits (dropBits (w.clients c) [k]) dropped =
      dropBits (w.clients c) (k :: dropped) := by
    simp only [dropBits, List.mem_cons, ClientState.mk.injEq, and_true]
    constructor <;>
      · funext k'
        by_cases hk : k' = k <;> by_cases hd : k' ∈ dropped <;> simp [hk, hd]
  have hlists : (fun k' ↦ if k' ∈ dropped then ((dropWatches w c [k]).watchers k').filter (· != c)
      else (dropWatches w c [k]).watchers k') =
      fun k' ↦ if k' ∈ k :: dropped then (w.watchers k').filter (· != c) else w.watchers k' := by
    funext k'
    rw [watchers_dropWatches h]
    by_cases hk : k' = k <;> by_cases hd : k' ∈ dropped <;> simp [hk, hd, List.filter_filter]
  have hclient : (dropWatches w c [k]).clients c = dropBits (w.clients c) [k] := by
    simp [dropWatches, withWatch]
  rw [dropWatches, hlists, hclient, hbits]
  simp only [dropWatches, withWatch, Function.update_idem]

/-- One iteration of the source's loop drops one key, whether it was watched or not. -/
theorem unwatchOne_eq (h : WatchWellFormed w) (c : Fin C) (k : Fin K) :
    unwatchOne c w k = dropWatches w c [k] := by
  have hlists : Function.update w.watchers k ((w.watchers k).filter (· != c)) =
      fun k' ↦ if k' ∈ [k] then (w.watchers k').filter (· != c) else w.watchers k' := by
    funext k'
    by_cases hk : k' = k
    · subst hk
      simp
    · simp [hk]
  rw [unwatchOne]
  split_ifs with hwatching
  · have hbits : dropBits (w.clients c) [k] =
        { w.clients c with
          watching := Function.update (w.clients c).watching k false
          watchedExpired := Function.update (w.clients c).watchedExpired k false } := by
      simp only [dropBits, List.mem_singleton, ClientState.mk.injEq, and_true]
      constructor <;>
        · funext k'
          rw [Function.update_apply]
    have hremove : w.watched.remove k c =
        tableOf (Function.update w.watchers k ((w.watchers k).filter (· != c))) := by
      rw [h.watched_eq, remove_tableOf _ _ _ h.length_le]
    rw [dropWatches, hbits, ← hlists, ← hremove]
    rfl
  · -- an unwatched key has no list entry and no flag, so nothing is dropped
    have hflag : (w.clients c).watchedExpired k = false := by
      rw [← Bool.not_eq_true]
      exact fun hflag ↦ hwatching (h.flag_watching c k hflag)
    have hbits : dropBits (w.clients c) [k] = w.clients c := by
      have hw : (fun k' ↦ if k' ∈ [k] then false else (w.clients c).watching k') =
          (w.clients c).watching := by
        funext k'
        by_cases hk : k' = k <;> simp_all
      have hf : (fun k' ↦ if k' ∈ [k] then false else (w.clients c).watchedExpired k') =
          (w.clients c).watchedExpired := by
        funext k'
        by_cases hk : k' = k <;> simp_all
      rw [dropBits, hw, hf]
    have hkeep : (w.watchers k).filter (· != c) = w.watchers k := by
      rw [List.filter_eq_self]
      intro c' hc'
      have hne : c' ≠ c := by
        rintro rfl
        exact hwatching ((h.mem_watchers k c').mp hc')
      simpa using hne
    rw [dropWatches, hbits, ← hlists, hkeep, Function.update_eq_self, Function.update_eq_self,
      ← h.watched_eq]
    rfl

/-- The source's loop over a list of keys drops exactly these keys. -/
theorem foldl_unwatchOne_eq (h : WatchWellFormed w) (c : Fin C) (ks : List (Fin K)) :
    ks.foldl (unwatchOne c) w = dropWatches w c ks := by
  induction ks generalizing w with
  | nil => exact (dropWatches_nil h c).symm
  | cons k rest ih =>
    rw [List.foldl_cons, unwatchOne_eq h, ih (dropWatches_wellFormed h c [k]),
      dropWatches_cons h]

/-- `unwatchAll` makes the client forget all its watches and changes nothing else. -/
theorem unwatchAll_eq (h : WatchWellFormed w) (c : Fin C) : unwatchAll w c = forget w c := by
  rw [unwatchAll, foldl_unwatchOne_eq h]
  simp [dropWatches, forget, dropBits, forgetBits]

theorem unwatchAll_wellFormed (h : WatchWellFormed w) (c : Fin C) :
    WatchWellFormed (unwatchAll w c) := by
  rw [unwatchAll, foldl_unwatchOne_eq h]
  exact dropWatches_wellFormed h c _

end Dropping

/-! ### Adding a watch -/

section Watching

variable {w : World K C}

/-- A client that does not watch a key leaves room in its watcher list: the list and the client are
distinct clients, of which there are at most `C`. -/
theorem length_lt_of_not_watching (h : WatchWellFormed w) {c : Fin C} {k : Fin K}
    (hwatching : (w.clients c).watching k = false) : (w.watchers k).length < C := by
  have hnotin : c ∉ w.watchers k := by
    rw [h.mem_watchers, hwatching]
    exact Bool.false_ne_true
  have hcard := (List.nodup_cons.mpr ⟨hnotin, h.nodup k⟩).length_le_card
  simpa [Nat.succ_le_iff] using hcard

/-- A client with a new watch. -/
def watchBits (client : ClientState K) (k : Fin K) (expired : Bool) : ClientState K :=
  { client with
    watching := Function.update client.watching k true
    watchedExpired := Function.update client.watchedExpired k expired }

/-- A new watch sets the bit, records whether the key is expired, and appends the client. -/
theorem watchKey_eq (h : WatchWellFormed w) {c : Fin C} {k : Fin K}
    (hwatching : (w.clients c).watching k = false) :
    watchKey w c k = withWatch w
      (Function.update w.clients c
        (watchBits (w.clients c) k ((w.slots k).present && keyIsExpired w k)))
      (tableOf (Function.update w.watchers k (w.watchers k ++ [c]))) := by
  have hadd : w.watched.addTail k c =
      tableOf (Function.update w.watchers k (w.watchers k ++ [c])) := by
    rw [h.watched_eq, addTail_tableOf _ _ _ h.length_le (length_lt_of_not_watching h hwatching)]
  rw [watchKey, if_neg (by simp [hwatching]), hadd]
  rfl

theorem watchKey_wellFormed (h : WatchWellFormed w) (c : Fin C) (k : Fin K) :
    WatchWellFormed (watchKey w c k) := by
  cases hwatching : (w.clients c).watching k with
  | true => rwa [watchKey, if_pos hwatching]
  | false =>
    rw [watchKey_eq h hwatching]
    have hnotin : c ∉ w.watchers k := by
      rw [h.mem_watchers, hwatching]
      exact Bool.false_ne_true
    refine WatchWellFormed.of_lists rfl (fun k' ↦ ?_) (fun k' c' ↦ ?_) (fun c' k' hflag ↦ ?_)
    · by_cases hk : k' = k
      · subst hk
        rw [Function.update_self]
        exact List.nodup_append.mpr ⟨h.nodup k', List.nodup_singleton c, fun a ha b hb ↦ by
          rw [List.mem_singleton] at hb
          rintro rfl
          exact hnotin (hb ▸ ha)⟩
      · rw [Function.update_of_ne hk]
        exact h.nodup k'
    · have hmem := h.mem_watchers k' c'
      by_cases hk : k' = k <;> by_cases hc : c' = c <;>
        simp_all [withWatch, watchBits]
    · have hold := h.flag_watching c' k'
      by_cases hk : k' = k <;> by_cases hc : c' = c <;>
        simp_all [withWatch, watchBits]

end Watching

end RedisCvlr.Watch
