import Mathlib.Data.List.TakeWhile
import RedisCvlr.Watch.Table

/-!
# What a touch does

`touchWatchedKey` snapshots a watcher list and edits that list, and the lists of all other keys,
while it walks the snapshot. On a well-formed table the result has a closed form. When the touched
key is absent, every watcher without an expired flag is invalidated and every other watcher loses
its flag (`touchWatchedKey_absent`). When it is present, the watchers before the first flagged one
are invalidated and the walk stops there (`touchWatchedKey_present`).

When no watcher of a present key is flagged the two forms coincide, and no early return happens:
`notify` is that common form and `touchWatchedKey_eq_notify` the statement.
-/

set_option autoImplicit false
set_option relaxedAutoImplicit false

namespace RedisCvlr.Watch

open RedisCvlr.Library RedisCvlr.Model

variable {K C : ℕ}

/-! ### Frame -/

/-- Only the clients, the watch table and the ghost counter may differ. -/
def WatchFrame (w w' : World K C) : Prop :=
  ∃ clients watched earlyReturns,
    w' = { w with clients := clients, watched := watched, earlyReturns := earlyReturns }

theorem WatchFrame.refl (w : World K C) : WatchFrame w w :=
  ⟨w.clients, w.watched, w.earlyReturns, rfl⟩

theorem WatchFrame.trans {w w' w'' : World K C} (h : WatchFrame w w') (h' : WatchFrame w' w'') :
    WatchFrame w w'' := by
  obtain ⟨_, _, _, rfl⟩ := h
  obtain ⟨clients, watched, earlyReturns, rfl⟩ := h'
  exact ⟨clients, watched, earlyReturns, rfl⟩

theorem watchKey_frame (w : World K C) (c : Fin C) (k : Fin K) : WatchFrame w (watchKey w c k) := by
  unfold watchKey
  split_ifs
  · exact .refl w
  · exact ⟨_, _, _, rfl⟩

theorem unwatchAll_frame (w : World K C) (c : Fin C) : WatchFrame w (unwatchAll w c) := by
  have hfold : ∀ (ks : List (Fin K)) (w : World K C),
      WatchFrame w (ks.foldl (unwatchOne c) w) := by
    intro ks
    induction ks with
    | nil => exact .refl
    | cons k rest ih =>
      intro w
      refine .trans ?_ (ih _)
      unfold unwatchOne
      split_ifs
      · exact ⟨_, _, _, rfl⟩
      · exact .refl w
  exact hfold _ w

theorem touchLoop_frame (k : Fin K) (snapshot : List (Option (Fin C))) (w : World K C) :
    WatchFrame w (touchLoop k snapshot w) := by
  induction snapshot generalizing w with
  | nil => exact .refl w
  | cons cell rest ih =>
    cases cell with
    | none => exact ih w
    | some c =>
      rw [touchLoop]
      split_ifs
      · exact .trans ⟨_, _, _, rfl⟩ (ih _)
      · exact ⟨_, _, _, rfl⟩
      · have hdirty : WatchFrame w (w.setClient c { w.clients c with dirtyCas := true }) :=
          ⟨_, _, _, rfl⟩
        exact (hdirty.trans (unwatchAll_frame _ c)).trans (ih _)

theorem touchWatchedKey_frame (w : World K C) (k : Fin K) (fromExpiry : Bool) :
    WatchFrame w (touchWatchedKey w k fromExpiry) :=
  touchLoop_frame k _ w

/-- The world with its log, dirty counter and nesting depth replaced. -/
def withUnit (w : World K C) (repl : ReplLog K) (dirty nesting : ℕ) : World K C :=
  { w with repl := repl, dirty := dirty, nesting := nesting }

theorem watchKey_withUnit (w : World K C) (c : Fin C) (k : Fin K) (repl : ReplLog K)
    (dirty nesting : ℕ) :
    watchKey (withUnit w repl dirty nesting) c k =
      withUnit (watchKey w c k) repl dirty nesting := by
  by_cases hwatching : (w.clients c).watching k = true
  · rw [watchKey, watchKey, if_pos hwatching]
    exact if_pos hwatching
  · rw [watchKey, watchKey, if_neg hwatching]
    exact if_neg hwatching

theorem unwatchAll_withUnit (w : World K C) (c : Fin C) (repl : ReplLog K) (dirty nesting : ℕ) :
    unwatchAll (withUnit w repl dirty nesting) c =
      withUnit (unwatchAll w c) repl dirty nesting := by
  have hfold : ∀ (ks : List (Fin K)) (w : World K C),
      ks.foldl (unwatchOne c) (withUnit w repl dirty nesting) =
        withUnit (ks.foldl (unwatchOne c) w) repl dirty nesting := by
    intro ks
    induction ks with
    | nil => exact fun _ ↦ rfl
    | cons k rest ih =>
      intro w
      rw [List.foldl_cons, List.foldl_cons, ← ih]
      congr 1
      by_cases hwatching : (w.clients c).watching k = true
      · rw [unwatchOne, unwatchOne, if_pos hwatching]
        exact if_pos hwatching
      · rw [unwatchOne, unwatchOne, if_neg hwatching]
        exact if_neg hwatching
  exact hfold (List.finRange K) w

/-- Touching does not read the log or the counters of the execution unit. -/
theorem touchLoop_withUnit (k : Fin K) (snapshot : List (Option (Fin C))) (w : World K C)
    (repl : ReplLog K) (dirty nesting : ℕ) :
    touchLoop k snapshot (withUnit w repl dirty nesting) =
      withUnit (touchLoop k snapshot w) repl dirty nesting := by
  induction snapshot generalizing w with
  | nil => rfl
  | cons cell rest ih =>
    cases cell with
    | none => exact ih w
    | some c =>
      by_cases hflag : (w.clients c).watchedExpired k = true
      · by_cases hpresent : (!(w.slots k).present) = true
        · rw [touchLoop, touchLoop, if_pos hflag, if_pos hpresent, ← ih]
          exact (if_pos hflag).trans (if_pos hpresent)
        · rw [touchLoop, touchLoop, if_pos hflag, if_neg hpresent]
          exact (if_pos hflag).trans (if_neg hpresent)
      · have hdirty : dirtyClient (withUnit w repl dirty nesting) c =
            withUnit (dirtyClient w c) repl dirty nesting :=
          unwatchAll_withUnit (w.setClient c { w.clients c with dirtyCas := true }) c _ _ _
        rw [touchLoop, touchLoop, if_neg hflag, ← ih, ← hdirty]
        exact if_neg hflag

theorem touchWatchedKey_withUnit (w : World K C) (k : Fin K) (fromExpiry : Bool)
    (repl : ReplLog K) (dirty nesting : ℕ) :
    touchWatchedKey (withUnit w repl dirty nesting) k fromExpiry =
      withUnit (touchWatchedKey w k fromExpiry) repl dirty nesting :=
  touchLoop_withUnit k _ w repl dirty nesting

/-! ### Invalidated clients and cleared flags -/

/-- A client after its invalidation: dirty and without any watch. -/
def dirtyBits (client : ClientState K) : ClientState K :=
  { forgetBits client with dirtyCas := true }

/-- A client without its expired flag on a key. -/
def clearBits (client : ClientState K) (k : Fin K) : ClientState K :=
  { client with watchedExpired := Function.update client.watchedExpired k false }

/-- The world in which the selected clients have been invalidated. -/
def invalidate (w : World K C) (selected : Fin C → Bool) : World K C :=
  withWatch w (fun c ↦ if selected c then dirtyBits (w.clients c) else w.clients c)
    (tableOf fun k ↦ (w.watchers k).filter fun c ↦ !selected c)

/-- The world in which the listed clients have lost their flag on a key. -/
def clearFlags (w : World K C) (k : Fin K) (cs : List (Fin C)) : World K C :=
  withWatch w (fun c ↦ if cs.contains c then clearBits (w.clients c) k else w.clients c) w.watched

/-- The clients that a change of the key invalidates: its watchers without an expired flag. -/
def dirties (w : World K C) (k : Fin K) (c : Fin C) : Bool :=
  (w.clients c).watching k && !(w.clients c).watchedExpired k

/-- The common effect of a touch that does not return early: the unflagged watchers of the key are
invalidated and its other watchers lose their flag. -/
def notify (w : World K C) (k : Fin K) : World K C :=
  clearFlags (invalidate w (dirties w k)) k (w.watchers k)

section Invalidation

variable {w : World K C}

theorem clearBits_of_unflagged {client : ClientState K} {k : Fin K}
    (hflag : client.watchedExpired k = false) : clearBits client k = client := by
  rw [clearBits, ← hflag, Function.update_eq_self]

theorem clearBits_dirtyBits (client : ClientState K) (k : Fin K) :
    clearBits (dirtyBits client) k = dirtyBits client :=
  clearBits_of_unflagged rfl

/-- Well-formedness reads only the table, the bits and the flags. -/
theorem wellFormed_of_same (h : WatchWellFormed w) {w' : World K C}
    (hwatched : w'.watched = w.watched)
    (hwatching : ∀ c, (w'.clients c).watching = (w.clients c).watching)
    (hflags : ∀ c k, (w'.clients c).watchedExpired k = true →
      (w.clients c).watchedExpired k = true) : WatchWellFormed w' := by
  refine WatchWellFormed.of_lists (hwatched.trans h.watched_eq) h.nodup (fun k c ↦ ?_)
    fun c k hflag ↦ ?_
  · rw [hwatching, h.mem_watchers]
  · rw [hwatching]
    exact h.flag_watching c k (hflags c k hflag)

theorem watchers_invalidate (h : WatchWellFormed w) (selected : Fin C → Bool) (k : Fin K) :
    (invalidate w selected).watchers k = (w.watchers k).filter fun c ↦ !selected c :=
  watchers_eq_of_table rfl (fun k ↦ (List.length_filter_le _ _).trans (h.length_le k)) k

theorem invalidate_wellFormed (h : WatchWellFormed w) (selected : Fin C → Bool) :
    WatchWellFormed (invalidate w selected) := by
  refine WatchWellFormed.of_lists rfl (fun k ↦ (h.nodup k).filter _) (fun k c ↦ ?_)
    fun c k hflag ↦ ?_
  · have hmem := h.mem_watchers k c
    by_cases hc : selected c = true <;>
      simp [invalidate, withWatch, dirtyBits, forgetBits, hc, hmem]
  · have hwatching := h.flag_watching c k
    by_cases hc : selected c = true
    · simp [invalidate, withWatch, dirtyBits, forgetBits, hc] at hflag
    · simp only [invalidate, withWatch, hc, if_false, Bool.false_eq_true] at hflag ⊢
      exact hwatching hflag

theorem clearFlags_wellFormed (h : WatchWellFormed w) (k : Fin K) (cs : List (Fin C)) :
    WatchWellFormed (clearFlags w k cs) := by
  refine wellFormed_of_same h rfl (fun c ↦ ?_) fun c k' hflag ↦ ?_
  · by_cases hc : c ∈ cs <;> simp [clearFlags, withWatch, clearBits, hc]
  · by_cases hc : c ∈ cs
    · by_cases hk : k' = k
      · subst hk
        simp [clearFlags, withWatch, clearBits, hc] at hflag
      · simpa [clearFlags, withWatch, clearBits, hc, hk] using hflag
    · simpa [clearFlags, withWatch, hc] using hflag

theorem invalidate_none (h : WatchWellFormed w) : invalidate w (fun _ ↦ false) = w := by
  have hlists : (fun k ↦ (w.watchers k).filter fun _ ↦ !false) = w.watchers := by
    funext k
    simp
  rw [invalidate, hlists, ← h.watched_eq]
  rfl

/-- Invalidating twice is invalidating the union. -/
theorem invalidate_invalidate (h : WatchWellFormed w) (first second : Fin C → Bool) :
    invalidate (invalidate w first) second = invalidate w fun c ↦ first c || second c := by
  have hclients : (fun c ↦ if second c then dirtyBits ((invalidate w first).clients c)
      else (invalidate w first).clients c) =
      fun c ↦ if first c || second c then dirtyBits (w.clients c) else w.clients c := by
    funext c
    by_cases h1 : first c = true <;> by_cases h2 : second c = true <;>
      simp [invalidate, withWatch, h1, h2, dirtyBits, forgetBits]
  have hlists : (fun k ↦ ((invalidate w first).watchers k).filter fun c ↦ !second c) =
      fun k ↦ (w.watchers k).filter fun c ↦ !(first c || second c) := by
    funext k
    rw [watchers_invalidate h, List.filter_filter]
    congr 1
    funext c
    rw [Bool.not_or, Bool.and_comm]
  rw [invalidate, hclients, hlists]
  rfl

/-- Dirtying one client is invalidating that client. -/
theorem dirtyClient_eq (h : WatchWellFormed w) (c : Fin C) :
    dirtyClient w c = invalidate w (· == c) := by
  have hmarked : WatchWellFormed (w.setClient c { w.clients c with dirtyCas := true }) := by
    refine wellFormed_of_same h rfl (fun c' ↦ ?_) fun c' k hflag ↦ ?_
    · by_cases hc : c' = c
      · subst hc
        simp [World.setClient]
      · simp [World.setClient, hc]
    · by_cases hc : c' = c
      · subst hc
        simpa [World.setClient] using hflag
      · simpa [World.setClient, hc] using hflag
  rw [dirtyClient, unwatchAll_eq hmarked, forget, invalidate]
  have hclients : Function.update (w.setClient c { w.clients c with dirtyCas := true }).clients c
      (forgetBits ((w.setClient c { w.clients c with dirtyCas := true }).clients c)) =
      fun c' ↦ if c' == c then dirtyBits (w.clients c') else w.clients c' := by
    funext c'
    by_cases hc : c' = c
    · subst hc
      simp [World.setClient, forgetBits, dirtyBits]
    · simp [World.setClient, hc]
  rw [hclients]
  rfl

theorem clearFlag_eq (w : World K C) (c : Fin C) (k : Fin K) :
    clearFlag w c k = clearFlags w k [c] := by
  have hclients : Function.update w.clients c (clearBits (w.clients c) k) =
      fun c' ↦ if [c].contains c' then clearBits (w.clients c') k else w.clients c' := by
    funext c'
    by_cases hc : c' = c
    · subst hc
      simp
    · simp [hc]
  rw [clearFlags, ← hclients]
  rfl

end Invalidation

/-! ### The loop -/

section Loop

variable {w : World K C} {k : Fin K}

/-- Invalidating a client leaves the flags of the clients still to come. -/
theorem flags_invalidate_head {flagged : Fin C → Bool} {c : Fin C} {rest : List (Fin C)}
    (hnotin : c ∉ rest)
    (hflagged : ∀ c' ∈ c :: rest, (w.clients c').watchedExpired k = flagged c') :
    ∀ c' ∈ rest, ((invalidate w (· == c)).clients c').watchedExpired k = flagged c' := by
  intro c' hc'
  have hne : c' ≠ c := fun heq ↦ hnotin (heq ▸ hc')
  rw [← hflagged c' (List.mem_cons_of_mem c hc')]
  simp [invalidate, withWatch, hne]

/-- The walk over a present key: the clients before the first flagged one are invalidated, and a
flagged one makes the source return early. The flags are those of the start of the walk, which
the walk does not change on the clients still to come. -/
theorem touchLoop_present (h : WatchWellFormed w) (hpresent : (w.slots k).present = true)
    (flagged : Fin C → Bool) (rest : List (Fin C)) (hnodup : rest.Nodup)
    (hflagged : ∀ c ∈ rest, (w.clients c).watchedExpired k = flagged c) :
    touchLoop k (rest.map some) w =
      { invalidate w (fun c ↦ decide (c ∈ rest.takeWhile fun c ↦ !flagged c)) with
        earlyReturns := w.earlyReturns + if rest.any flagged then 1 else 0 } := by
  induction rest generalizing w with
  | nil =>
    simp only [List.map_nil, touchLoop, List.takeWhile_nil, List.not_mem_nil, decide_false,
      invalidate_none h, List.any_nil]
    rfl
  | cons c rest ih =>
    obtain ⟨hnotin, hrest⟩ := List.nodup_cons.mp hnodup
    have hc : (w.clients c).watchedExpired k = flagged c := hflagged c List.mem_cons_self
    rw [List.map_cons, touchLoop, hc]
    cases hflag : flagged c with
    | true =>
      simp only [if_true, hpresent, Bool.not_true, Bool.false_eq_true, if_false,
        List.takeWhile_cons, hflag, List.not_mem_nil, decide_false, invalidate_none h,
        List.any_cons, Bool.true_or]
    | false =>
      have hother := flags_invalidate_head hnotin hflagged
      simp only [Bool.false_eq_true, if_false]
      rw [dirtyClient_eq h, ih (invalidate_wellFormed h _) hpresent hrest hother,
        invalidate_invalidate h]
      simp only [List.takeWhile_cons, hflag, Bool.not_false, if_true, List.mem_cons, List.any_cons,
        Bool.false_or, Bool.decide_or]
      rfl

/-- The unflagged clients of a list, by its head. -/
theorem unflagged_cons (flagged : Fin C → Bool) (c : Fin C) (rest : List (Fin C)) :
    (fun c' ↦ decide (c' ∈ c :: rest) && !flagged c') =
      fun c' ↦ (c' == c && !flagged c) || (decide (c' ∈ rest) && !flagged c') := by
  funext c'
  by_cases hne : c' = c
  · subst hne
    cases flagged c' <;> simp
  · simp [hne]

/-- The walk over an absent key: every unflagged client is invalidated and every flagged client
loses its flag. -/
theorem touchLoop_absent (h : WatchWellFormed w) (habsent : (w.slots k).present = false)
    (flagged : Fin C → Bool) (rest : List (Fin C)) (hnodup : rest.Nodup)
    (hflagged : ∀ c ∈ rest, (w.clients c).watchedExpired k = flagged c) :
    touchLoop k (rest.map some) w =
      clearFlags (invalidate w fun c ↦ decide (c ∈ rest) && !flagged c) k rest := by
  induction rest generalizing w with
  | nil =>
    simp only [List.map_nil, touchLoop, List.not_mem_nil, decide_false, Bool.false_and,
      invalidate_none h]
    simp [clearFlags, withWatch]
  | cons c rest ih =>
    obtain ⟨hnotin, hrest⟩ := List.nodup_cons.mp hnodup
    have hc : (w.clients c).watchedExpired k = flagged c := hflagged c List.mem_cons_self
    rw [List.map_cons, touchLoop, hc]
    cases hflag : flagged c with
    | true =>
      have hother : ∀ c' ∈ rest, ((clearFlags w k [c]).clients c').watchedExpired k =
          flagged c' := by
        intro c' hc'
        have hne : c' ≠ c := fun heq ↦ hnotin (heq ▸ hc')
        rw [← hflagged c' (List.mem_cons_of_mem c hc')]
        simp [clearFlags, withWatch, hne]
      simp only [if_true, habsent, Bool.not_false]
      rw [clearFlag_eq, ih (clearFlags_wellFormed h k [c]) habsent hrest hother]
      simp only [unflagged_cons, hflag, Bool.not_true, Bool.and_false, Bool.false_or]
      refine congrArg₂ (withWatch w) (funext fun c' ↦ ?_) rfl
      by_cases hne : c' = c
      · subst hne
        simp [clearFlags, invalidate, withWatch, hnotin]
      · simp [clearFlags, invalidate, withWatch, hne]
    | false =>
      have hother := flags_invalidate_head hnotin hflagged
      simp only [Bool.false_eq_true, if_false]
      rw [dirtyClient_eq h, ih (invalidate_wellFormed h _) habsent hrest hother,
        invalidate_invalidate h]
      simp only [unflagged_cons, hflag, Bool.not_false, Bool.and_true]
      refine congrArg₂ (withWatch w) (funext fun c' ↦ ?_) rfl
      by_cases hne : c' = c
      · subst hne
        simp [invalidate, withWatch, hnotin, hflag, clearBits_dirtyBits]
      · simp [hne]

end Loop

/-! ### Touching a key -/

section Touch

variable {w : World K C} {k : Fin K}

theorem snapshot_eq (h : WatchWellFormed w) (k : Fin K) :
    (List.range (w.watched.len k)).map (PrefixArray.read (w.watched.order k)) =
      (w.watchers k).map some :=
  (h.holds k).map_read

/-- Touching a present key invalidates its watchers before the first flagged one, and returns early
when there is a flagged one. -/
theorem touchWatchedKey_present (h : WatchWellFormed w) (hpresent : (w.slots k).present = true)
    (fromExpiry : Bool) :
    touchWatchedKey w k fromExpiry =
      { invalidate w (fun c ↦ decide
          (c ∈ (w.watchers k).takeWhile fun c ↦ !(w.clients c).watchedExpired k)) with
        earlyReturns := w.earlyReturns +
          if (w.watchers k).any fun c ↦ (w.clients c).watchedExpired k then 1 else 0 } := by
  rw [touchWatchedKey, snapshot_eq h]
  exact touchLoop_present h hpresent _ _ (h.nodup k) fun _ _ ↦ rfl

/-- Touching an absent key invalidates its unflagged watchers and clears the other flags. -/
theorem touchWatchedKey_absent (h : WatchWellFormed w) (habsent : (w.slots k).present = false)
    (fromExpiry : Bool) : touchWatchedKey w k fromExpiry = notify w k := by
  rw [touchWatchedKey, snapshot_eq h, touchLoop_absent h habsent _ _ (h.nodup k) fun _ _ ↦ rfl]
  have hselected : (fun c ↦ decide (c ∈ w.watchers k) && !(w.clients c).watchedExpired k) =
      dirties w k := by
    funext c
    rw [dirties, Bool.decide_congr (h.mem_watchers k c), Bool.decide_eq_true]
  rw [hselected, notify]

/-- A touch that finds the key absent, or no flag on it, invalidates every unflagged watcher and
does not return early. -/
theorem touchWatchedKey_eq_notify (h : WatchWellFormed w)
    (hsafe : (w.slots k).present = false ∨ ∀ c, (w.clients c).watchedExpired k = false)
    (fromExpiry : Bool) : touchWatchedKey w k fromExpiry = notify w k := by
  cases hpresent : (w.slots k).present with
  | false => exact touchWatchedKey_absent h hpresent fromExpiry
  | true =>
    have hflags : ∀ c, (w.clients c).watchedExpired k = false := by
      rcases hsafe with habsent | hflags
      · rw [habsent] at hpresent
        exact absurd hpresent Bool.false_ne_true
      · exact hflags
    rw [touchWatchedKey_present h hpresent]
    have hselected : (fun c ↦ decide
        (c ∈ (w.watchers k).takeWhile fun c ↦ !(w.clients c).watchedExpired k)) =
        dirties w k := by
      funext c
      have hall : (w.watchers k).takeWhile (fun c ↦ !(w.clients c).watchedExpired k) =
          w.watchers k := by
        rw [List.takeWhile_eq_self_iff]
        simp [hflags]
      rw [hall, dirties, hflags, Bool.decide_congr (h.mem_watchers k c), Bool.decide_eq_true,
        Bool.not_false, Bool.and_true]
    have hany : ((w.watchers k).any fun c ↦ (w.clients c).watchedExpired k) = false := by
      simp [hflags]
    have hclear : clearFlags (invalidate w (dirties w k)) k (w.watchers k) =
        invalidate w (dirties w k) := by
      have hnone : ∀ c, ((invalidate w (dirties w k)).clients c).watchedExpired k = false := by
        intro c
        by_cases hd : dirties w k c = true
        · simp [invalidate, withWatch, hd, dirtyBits, forgetBits]
        · simp [invalidate, withWatch, hd, hflags]
      simp only [clearFlags, clearBits_of_unflagged (hnone _), ite_self]
      rfl
    rw [hselected, hany, notify, hclear]
    rfl

/-! ### Reading a notified world -/

theorem notify_wellFormed (h : WatchWellFormed w) (k : Fin K) : WatchWellFormed (notify w k) :=
  clearFlags_wellFormed (invalidate_wellFormed h _) k _

/-- A watcher of the key is invalidated or loses its flag, and every other client is unchanged. -/
theorem clients_notify (h : WatchWellFormed w) (k : Fin K) (c : Fin C) :
    (notify w k).clients c =
      if dirties w k c then dirtyBits (w.clients c) else clearBits (w.clients c) k := by
  have hmem := h.mem_watchers k c
  have hflag := h.flag_watching c k
  by_cases hd : dirties w k c = true
  · simp [notify, clearFlags, invalidate, withWatch, hd, clearBits_dirtyBits]
  · by_cases hc : c ∈ w.watchers k
    · simp [notify, clearFlags, invalidate, withWatch, hd, hc]
    · have hunflagged : (w.clients c).watchedExpired k = false := by
        rw [← Bool.not_eq_true]
        exact fun hf ↦ hc (hmem.mpr (hflag hf))
      simp [notify, clearFlags, invalidate, withWatch, hd, hc, clearBits_of_unflagged hunflagged]

/-! ### Touches in general -/

theorem touchWatchedKey_wellFormed (h : WatchWellFormed w) (k : Fin K) (fromExpiry : Bool) :
    WatchWellFormed (touchWatchedKey w k fromExpiry) := by
  cases hpresent : (w.slots k).present with
  | false =>
    rw [touchWatchedKey_absent h hpresent]
    exact notify_wellFormed h k
  | true =>
    rw [touchWatchedKey_present h hpresent]
    exact wellFormed_of_same (invalidate_wellFormed h _) rfl (fun _ ↦ rfl) fun _ _ hflag ↦ hflag

/-- Whether or not it returns early, a touch invalidates a client that watches the key without a
flag, clears a flag, or leaves the client alone. -/
theorem clients_touchWatchedKey (h : WatchWellFormed w) (k : Fin K) (fromExpiry : Bool)
    (c : Fin C) :
    (dirties w k c = true ∧
        (touchWatchedKey w k fromExpiry).clients c = dirtyBits (w.clients c)) ∨
      (touchWatchedKey w k fromExpiry).clients c = clearBits (w.clients c) k ∨
      (touchWatchedKey w k fromExpiry).clients c = w.clients c := by
  cases hpresent : (w.slots k).present with
  | false =>
    rw [touchWatchedKey_absent h hpresent, clients_notify h]
    split_ifs with hdirties
    · exact .inl ⟨hdirties, rfl⟩
    · exact .inr (.inl rfl)
  | true =>
    rw [touchWatchedKey_present h hpresent]
    by_cases hbefore : c ∈ (w.watchers k).takeWhile fun c ↦ !(w.clients c).watchedExpired k
    · have hwatching := (h.mem_watchers k c).mp ((List.takeWhile_sublist _).subset hbefore)
      have hunflagged := List.mem_takeWhile_imp hbefore
      refine .inl ⟨?_, ?_⟩
      · rw [dirties, hwatching, hunflagged]
        rfl
      · simp [invalidate, withWatch, hbefore]
    · exact .inr (.inr (by simp [invalidate, withWatch, hbefore]))

end Touch

end RedisCvlr.Watch
