import RedisCvlr.Transactions.Fence

/-!
# UNWATCH and the age of the dirty bit

UNWATCH should start a fresh epoch of the optimistic lock: the dirty bit of a client should report
only changes since the last UNWATCH. The source drops the watches and flags of the client but not
its dirty bit, so an invalidation outlives its epoch when the client runs UNWATCH while dirty.
`freshEpochs_iff` shows that this is the only way it can fail.
-/

set_option autoImplicit false
set_option relaxedAutoImplicit false

namespace RedisCvlr.Transactions

open RedisCvlr.Library RedisCvlr.Model RedisCvlr.Watch RedisCvlr.Keyspace

variable {K C : ℕ}

/-- The step is an UNWATCH of the client. -/
def IsUnwatch (c : Fin C) (s : Step K C) : Prop := ∃ issuer, s = .cmd issuer (.unwatch c)

/-- The client has nothing left of an earlier epoch. -/
structure FreshClient (w : World K C) (c : Fin C) : Prop where
  watching : ∀ k, (w.clients c).watching k = false
  flags : ∀ k, (w.clients c).watchedExpired k = false
  unlisted : ∀ k i, w.watched.order k i ≠ some c
  clean : (w.clients c).dirtyCas = false

/-- Since the last UNWATCH of the client, or since the start, a step emitted an effect on a key that
the client was watching at that moment. -/
def TouchedSinceUnwatch (w : World K C) (c : Fin C) (schedule : List (Step K C)) : Prop :=
  ∃ before s after, schedule = before ++ s :: after ∧ (∀ s' ∈ after, ¬ IsUnwatch c s') ∧
    ∃ k, ((runSchedule w before).clients c).watching k = true ∧
      ∃ e ∈ emitted (runSchedule w before) s, e.key? = some k

/-- Throughout the run an UNWATCH leaves nothing of the epoch before it, and the dirty bit reports a
change of the current epoch. -/
structure FreshEpochs (w : World K C) (c : Fin C) (schedule : List (Step K C)) : Prop where
  after_unwatch : ∀ before s, before ++ [s] <+: schedule → IsUnwatch c s →
    FreshClient (runSchedule w (before ++ [s])) c
  touched_of_dirty : ∀ before, before <+: schedule →
    ((runSchedule w before).clients c).dirtyCas = true → TouchedSinceUnwatch w c before

/-- The client is clean whenever it runs UNWATCH. -/
def UnwatchesClean (w : World K C) (c : Fin C) (schedule : List (Step K C)) : Prop :=
  ∀ before s, before ++ [s] <+: schedule → IsUnwatch c s →
    ((runSchedule w before).clients c).dirtyCas = false

/-! ### One step -/

section Steps

variable {w : World K C} {c : Fin C} {s : Step K C}

theorem clients_next_unwatch (h : WatchWellFormed w) (hunwatch : IsUnwatch c s) :
    (w.next s).clients c = forgetBits (w.clients c) := by
  obtain ⟨issuer, rfl⟩ := hunwatch
  rw [next_unwatch, clients_unwatchAll (freshUnit_wellFormed h), if_pos rfl, freshUnit_clients]

/-- A client that watches nothing and is clean is fresh. -/
theorem freshClient_of_no_watches (h : WatchWellFormed w)
    (hwatching : ∀ k, (w.clients c).watching k = false)
    (hclean : (w.clients c).dirtyCas = false) : FreshClient w c where
  watching := hwatching
  flags k := by
    rw [← Bool.not_eq_true]
    intro hflag
    have hwatched := h.flag_watching c k hflag
    rw [hwatching k] at hwatched
    exact Bool.false_ne_true hwatched
  unlisted k i hoccurs := by
    have hwatched := (h.occurs_iff k c).mp ⟨i, hoccurs⟩
    rw [hwatching k] at hwatched
    exact Bool.false_ne_true hwatched
  clean := hclean

/-- UNWATCH makes a client fresh exactly when the client was clean. -/
theorem freshClient_next_unwatch (h : WatchWellFormed w) (hunwatch : IsUnwatch c s) :
    FreshClient (w.next s) c ↔ (w.clients c).dirtyCas = false := by
  have hclient := clients_next_unwatch h hunwatch
  constructor
  · intro hfresh
    have hclean := hfresh.clean
    rwa [hclient] at hclean
  · intro hclean
    refine freshClient_of_no_watches (next_wellFormed h s) (fun k ↦ ?_) ?_
    · rw [hclient]
      rfl
    · rwa [hclient]

end Steps

/-! ### Runs -/

section Runs

variable {w : World keyCount clientCount} {c : Fin clientCount}

theorem runSchedule_append_singleton (w : World K C) (before : List (Step K C)) (s : Step K C) :
    runSchedule w (before ++ [s]) = (runSchedule w before).next s :=
  Machine.run_append w before [s]

theorem fenced_along {schedule before : List (Step K C)} {w : World K C}
    (hstart : FenceStart w) (hruns : Runs w schedule) (hpre : before <+: schedule) :
    Fenced (runSchedule w before) := by
  obtain ⟨after, rfl⟩ := hpre
  have hbefore := (Machine.admissible_append.mp hruns).1
  exact FenceReachable.fenced ⟨w, before, hstart, hbefore, rfl⟩

theorem FenceStart.clean {w : World K C} (h : FenceStart w) (c : Fin C) :
    (w.clients c).dirtyCas = false := by
  obtain ⟨t, -, rfl⟩ | ⟨stream, rfl⟩ := h
  · rfl
  · obtain ⟨slots, role, caller, hframe⟩ := (draws_nondetWorld (K := K) (C := C) stream).1.frame
    rw [hframe]
    rfl

/-- Along a run whose UNWATCH steps are all run by a clean client, the dirty bit reports a change of
the current epoch. -/
theorem touched_of_dirty {schedule : List (Step keyCount clientCount)} (hstart : FenceStart w)
    (hruns : Runs w schedule) (hclean : UnwatchesClean w c schedule)
    (before : List (Step keyCount clientCount)) (hpre : before <+: schedule)
    (hdirty : ((runSchedule w before).clients c).dirtyCas = true) :
    TouchedSinceUnwatch w c before := by
  induction before using List.reverseRecOn with
  | nil =>
    change (w.clients c).dirtyCas = true at hdirty
    rw [hstart.clean c] at hdirty
    exact absurd hdirty Bool.false_ne_true
  | append_singleton before s ih =>
    have hearlier : before <+: schedule := (List.prefix_append before [s]).trans hpre
    have hfenced := fenced_along hstart hruns hearlier
    rw [runSchedule_append_singleton] at hdirty
    by_cases hunwatch : IsUnwatch c s
    · rw [clients_next_unwatch hfenced.live.wellFormed hunwatch] at hdirty
      have hsame := hclean before s hpre hunwatch
      rw [show ((runSchedule w before).clients c).dirtyCas = true from hdirty] at hsame
      exact Bool.noConfusion hsame
    · rw [dirtyCas_next hfenced.live hfenced.purging s c] at hdirty
      rcases hdirty with hold | ⟨k, hwatching, hedits⟩
      · obtain ⟨first, s', after, rfl, hafter, htouched⟩ := ih hearlier hold
        refine ⟨first, s', after ++ [s], by simp, fun s'' hs'' ↦ ?_, htouched⟩
        rcases List.mem_append.mp hs'' with hmem | hmem
        · exact hafter s'' hmem
        · rw [List.mem_singleton.mp hmem]
          exact hunwatch
      · have hne : editsOn k (stepEdits (runSchedule w before) s) ≠ [] := by
          rcases hedits with ⟨-, hne⟩ | htwo
          · exact hne
          · exact List.ne_nil_of_length_pos (lt_of_lt_of_le Nat.zero_lt_two htwo)
        exact ⟨before, s, [], rfl, fun _ hmem ↦ absurd hmem List.not_mem_nil, k, hwatching,
          (exists_emitted_on_iff _ s (by decide) k).mpr hne⟩

/-- Under the scope fence UNWATCH starts fresh epochs throughout a run exactly when the client is
clean whenever it runs UNWATCH. -/
theorem freshEpochs_iff (hstart : FenceStart w) {schedule : List (Step keyCount clientCount)}
    (hruns : Runs w schedule) (c : Fin clientCount) :
    FreshEpochs w c schedule ↔ UnwatchesClean w c schedule := by
  have hwf : ∀ before s, before ++ [s] <+: schedule → WatchWellFormed (runSchedule w before) :=
    fun before s hpre ↦ (fenced_along hstart hruns
      ((List.prefix_append before [s]).trans hpre)).live.wellFormed
  constructor
  · intro hfresh before s hpre hunwatch
    have hafter := hfresh.after_unwatch before s hpre hunwatch
    rw [runSchedule_append_singleton] at hafter
    exact (freshClient_next_unwatch (hwf before s hpre) hunwatch).mp hafter
  · intro hclean
    refine ⟨fun before s hpre hunwatch ↦ ?_, touched_of_dirty hstart hruns hclean⟩
    rw [runSchedule_append_singleton]
    exact (freshClient_next_unwatch (hwf before s hpre) hunwatch).mpr
      (hclean before s hpre hunwatch)

/-- A client is invalidated, runs UNWATCH and watches the key again. -/
def staleDirtySchedule : List (Step keyCount clientCount) :=
  [.cmd 0 (.watch 0 0), .cmd 1 (.set 0 Str.empty .always .none false), .cmd 0 (.unwatch 0),
    .cmd 0 (.watch 0 0)]

/-- The dirty bit survives the UNWATCH, and the client is still dirty when it watches again. -/
theorem unwatch_keeps_dirty :
    FenceStart (World.empty 0 : World keyCount clientCount) ∧
      Runs (World.empty 0) staleDirtySchedule ∧
      ((runSchedule (World.empty 0) staleDirtySchedule).clients 0).dirtyCas = true ∧
      ¬ FreshEpochs (World.empty 0) 0 staleDirtySchedule := by
  refine ⟨.inl ⟨0, by decide, rfl⟩, by decide, by decide, fun hfresh ↦ ?_⟩
  have hclient := hfresh.after_unwatch
    [.cmd 0 (.watch 0 0), .cmd 1 (.set 0 Str.empty .always .none false)] (.cmd 0 (.unwatch 0))
    ⟨[.cmd 0 (.watch 0 0)], rfl⟩ ⟨0, rfl⟩
  exact absurd hclient.clean (by decide)

/-- A client that is clean throughout a run with an UNWATCH. -/
theorem freshEpochs_iff_unwatch :
    FreshEpochs (World.empty 0 : World keyCount clientCount) 0
      [.cmd 0 (.watch 0 0), .cmd 0 (.unwatch 0),
        .cmd 1 (.set 0 Str.empty .always .none false)] := by
  refine (freshEpochs_iff (.inl ⟨0, by decide, rfl⟩) (by decide) 0).mpr fun before s hpre _ ↦ ?_
  have hclean : ∀ prior ∈ List.inits
      [.cmd 0 (.watch 0 0), .cmd 0 (.unwatch 0), .cmd 1 (.set 0 Str.empty .always .none false)],
      ((runSchedule (World.empty 0 : World keyCount clientCount) prior).clients 0).dirtyCas =
        false := by decide
  exact hclean before ((List.mem_inits _ _).mpr ((List.prefix_append before [s]).trans hpre))

end Runs

end RedisCvlr.Transactions
