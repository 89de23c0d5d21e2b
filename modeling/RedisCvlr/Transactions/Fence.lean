import RedisCvlr.Model.Nondet
import RedisCvlr.Transactions.Flags

/-!
# Invalidation under the scope fence

The scope fence pins a standalone master with a normal caller and no debug or pause switch. Every
run under the fence keeps the expired-at-WATCH flags live, so the early return of the touch loop is
dead code there, and the dirty bit of a client after a step is a function of what the step emitted.
-/

set_option autoImplicit false
set_option relaxedAutoImplicit false

namespace RedisCvlr.Transactions

open RedisCvlr.Library RedisCvlr.Model RedisCvlr.Watch RedisCvlr.Keyspace

variable {K C : ℕ}

/-! ### Fenced worlds -/

/-- The starting worlds of the scope fence: an empty world, or a drawn world after
`pinStandaloneMaster`. -/
def FenceStart (w : World K C) : Prop :=
  (∃ t, IsI64 t ∧ w = World.empty t) ∨
    ∃ stream, w = ((World.nondetWorld : Rule (World K C)).value stream).pinStandaloneMaster

/-- The worlds that a run reaches from a starting world of the scope fence. -/
def FenceReachable : World K C → Prop := Machine.Reachable World.next Admits FenceStart

/-- The configuration of the scope fence. -/
def fenceConfig : Config := ⟨.master, .normal, false, false, false, true⟩

/-- What every fenced world has. -/
structure Fenced (w : World K C) : Prop where
  config_eq : config w = fenceConfig
  live : FlagsLive w
  earlyReturns_eq : w.earlyReturns = 0

section Fenced

variable {w : World K C}

theorem Fenced.purging (h : Fenced w) : (config w).purging = true := by
  rw [h.config_eq]
  rfl

theorem FenceStart.nobodyWatches (h : FenceStart w) : NobodyWatches w := by
  obtain ⟨t, -, rfl⟩ | ⟨stream, rfl⟩ := h
  · exact ⟨rfl, fun _ _ ↦ rfl, fun _ _ ↦ rfl⟩
  · obtain ⟨slots, role, caller, hdrawn⟩ := (draws_nondetWorld (K := K) (C := C) stream).1.frame
    rw [hdrawn]
    exact ⟨rfl, fun _ _ ↦ rfl, fun _ _ ↦ rfl⟩

theorem FenceStart.fenced (h : FenceStart w) : Fenced w := by
  have hlive := h.nobodyWatches.flagsLive
  obtain ⟨t, -, rfl⟩ | ⟨stream, rfl⟩ := h
  · exact ⟨rfl, hlive, rfl⟩
  · obtain ⟨slots, role, caller, hdrawn⟩ := (draws_nondetWorld (K := K) (C := C) stream).1.frame
    rw [hdrawn] at hlive ⊢
    exact ⟨rfl, hlive, rfl⟩

theorem Fenced.next (h : Fenced w) {s : Step K C} (hadmits : Admits w s) : Fenced (w.next s) where
  config_eq := (next_config w s).trans h.config_eq
  live := h.live.next h.purging hadmits
  earlyReturns_eq := (earlyReturns_next h.live h.purging s).trans h.earlyReturns_eq

theorem FenceReachable.fenced (h : FenceReachable w) : Fenced w :=
  Machine.Reachable.invariant Fenced (fun _ hstart ↦ hstart.fenced)
    (fun _ _ hadmits hfenced ↦ hfenced.next hadmits) h

end Fenced

/-! ### Exact invalidation -/

section Invalidation

variable {w : World keyCount clientCount}

theorem length_emitted_on (w : World keyCount clientCount) (s : Step keyCount clientCount)
    (k : Fin keyCount) :
    ((emitted w s).filter fun e ↦ e.key? == some k).length =
      (editsOn k (stepEdits w s)).length := by
  rw [emitted_eq w s (by decide), editsOn, List.length_map, List.filter_map, List.length_map]
  simp [Function.comp_def]

/-- On a flagged key that a step changes, three readings of the step agree: it emitted a SET
effect, it emitted more than one effect, and it left the key present. -/
theorem set_emitted_of_flagged (hfenced : Fenced w) (s : Step keyCount clientCount)
    {c : Fin clientCount} {k : Fin keyCount} (hflag : (w.clients c).watchedExpired k = true)
    (hemitted : ∃ e ∈ emitted w s, e.key? = some k) :
    ((∃ val expireAt, Effect.set k val expireAt ∈ emitted w s) ↔
        2 ≤ ((emitted w s).filter fun e ↦ e.key? == some k).length) ∧
      ((∃ val expireAt, Effect.set k val expireAt ∈ emitted w s) ↔
        ((w.next s).slots k).present = true) := by
  have hne := (exists_emitted_on_iff w s (by decide) k).mp hemitted
  simp only [set_mem_emitted_iff w s (by decide : keyCount ≤ replCap), length_emitted_on,
    next_slots]
  obtain hnil | hpurge | ⟨val, expireAt, hrewrite⟩ :=
    editsOn_of_flagged hfenced.live hfenced.purging s hflag
  · exact absurd hnil hne
  · simp [hpurge, Edit.slot, Slot.absent]
  · simp [hrewrite, Edit.slot]

/-- Under the scope fence every flag is on a watched key that is present and expired, so the early
return of the touch loop never runs; and a step dirties a clean client exactly when it emitted an
effect on a key the client watched, where for a key flagged as expired only a SET effect counts. -/
theorem fence_invalidation_exact (hreach : FenceReachable w) :
    (∀ c k, (w.clients c).watchedExpired k = true →
      (w.clients c).watching k = true ∧ (w.slots k).present = true ∧ keyIsExpired w k = true) ∧
    w.earlyReturns = 0 ∧
    ∀ s, Admits w s → w.repl.len + (emitted w s).length ≤ replCap →
      (w.next s).earlyReturns = 0 ∧
      (w.next s).repl.entries = w.repl.entries ++ emitted w s ∧
      (∀ c, (w.clients c).dirtyCas = false →
        (((w.next s).clients c).dirtyCas = true ↔
          ∃ k, (w.clients c).watching k = true ∧ (∃ e ∈ emitted w s, e.key? = some k) ∧
            ((w.clients c).watchedExpired k = false ∨
              ∃ val expireAt, Effect.set k val expireAt ∈ emitted w s))) ∧
      ∀ c k, (w.clients c).watchedExpired k = true → (∃ e ∈ emitted w s, e.key? = some k) →
        ((∃ val expireAt, Effect.set k val expireAt ∈ emitted w s) ↔
            2 ≤ ((emitted w s).filter fun e ↦ e.key? == some k).length) ∧
          ((∃ val expireAt, Effect.set k val expireAt ∈ emitted w s) ↔
            ((w.next s).slots k).present = true) := by
  have hfenced := hreach.fenced
  refine ⟨fun c k hflag ↦ ⟨hfenced.live.wellFormed.flag_watching c k hflag,
    hfenced.live.present c k hflag, hfenced.live.expired c k hflag⟩, hfenced.earlyReturns_eq,
    fun s hadmits hroom ↦ ⟨(hfenced.next hadmits).earlyReturns_eq, ?_, fun c hclean ↦ ?_,
      fun c k hflag hemitted ↦ set_emitted_of_flagged hfenced s hflag hemitted⟩⟩
  · have hK : keyCount ≤ replCap := by decide
    rw [emitted_eq w s hK, List.length_map] at hroom
    rw [emitted_eq w s hK, (repl_next w s hroom).1]
  · rw [dirtyCas_next hfenced.live hfenced.purging s c]
    simp only [hclean, Bool.false_eq_true, false_or]
    refine exists_congr fun k ↦ and_congr_right fun _ ↦ ?_
    have hsome : 2 ≤ (editsOn k (stepEdits w s)).length → editsOn k (stepEdits w s) ≠ [] :=
      fun htwo ↦ List.ne_nil_of_length_pos (lt_of_lt_of_le Nat.zero_lt_two htwo)
    have hemitted := exists_emitted_on_iff w s (by decide) k
    cases hflag : (w.clients c).watchedExpired k with
    | false =>
      rw [hemitted]
      simp only [true_and, true_or, and_true, or_iff_left_iff_imp]
      exact hsome
    | true =>
      simp only [Bool.true_eq_false, false_and, false_or]
      constructor
      · intro htwo
        have hon := hemitted.mpr (hsome htwo)
        rw [← length_emitted_on] at htwo
        exact ⟨hon, (set_emitted_of_flagged hfenced s hflag hon).1.mpr htwo⟩
      · rintro ⟨hon, hset⟩
        rw [← length_emitted_on]
        exact (set_emitted_of_flagged hfenced s hflag hon).1.mp hset

/-- Client 0 watches a live key that client 1 then writes. -/
theorem fence_invalidation_exact_watch_set :
    (((runSchedule (World.empty 0 : World keyCount clientCount) [.cmd 0 (.watch 0 0)]).next
      (.cmd 1 (.set 0 Str.empty .always .none false))).clients 0).dirtyCas = true := by
  have hreach : FenceReachable
      (runSchedule (World.empty 0 : World keyCount clientCount) [.cmd 0 (.watch 0 0)]) :=
    ⟨World.empty 0, [.cmd 0 (.watch 0 0)], .inl ⟨0, by decide, rfl⟩, by decide, rfl⟩
  have hstep := (fence_invalidation_exact hreach).2.2
    (.cmd 1 (.set 0 Str.empty .always .none false)) trivial (by decide)
  exact (hstep.2.2.1 0 (by decide)).mpr
    ⟨0, by decide, ⟨.set 0 Str.empty noExpire, by decide, rfl⟩, .inl (by decide)⟩

end Invalidation

end RedisCvlr.Transactions
