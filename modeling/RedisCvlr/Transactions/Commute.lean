import RedisCvlr.Transactions.Fence

/-!
# Commands on distinct keys commute

The keyspace effect of a command is local to its key, but its touches remove the clients they dirty
from the watcher lists of all other keys. `settle` is the closed form of what a list of safe edits
of one key does to a client: only the number of edits matters. Two closed forms on distinct keys
commute, up to the log and the counters of the execution unit (`core`), and the log keeps its
subsequence for every key.
-/

set_option autoImplicit false
set_option relaxedAutoImplicit false

namespace RedisCvlr.Transactions

open RedisCvlr.Library RedisCvlr.Model RedisCvlr.Watch RedisCvlr.Keyspace

variable {K C : ℕ}

/-! ### The core of a world -/

/-- The world without its log and the counters of the execution unit. -/
def core (w : World K C) : World K C := withUnit w ReplLog.new 0 0

/-! ### Clients under edits of one key -/

/-- A list of `n` edits of a key dirties the client: one edit is enough without a flag, and a flag
takes one more. -/
def hit (client : ClientState K) (k : Fin K) (n : ℕ) : Bool :=
  client.watching k && decide ((if client.watchedExpired k then 1 else 0) < n)

/-- The client after `n` edits of a key. -/
def settle (client : ClientState K) (k : Fin K) (n : ℕ) : ClientState K :=
  if hit client k n then dirtyBits client else if n = 0 then client else clearBits client k

section Clients

variable (client : ClientState K) (k k' : Fin K) (n m : ℕ)

@[simp] theorem hit_dirtyBits : hit (dirtyBits client) k n = false := rfl

@[simp] theorem settle_dirtyBits : settle (dirtyBits client) k n = dirtyBits client := by
  rw [settle, hit_dirtyBits, if_neg Bool.false_ne_true, clearBits_dirtyBits, ite_self]

/-- After the first edit of a key the flag is gone, so every further edit counts. -/
theorem settle_settle : settle (settle client k 1) k n = settle client k (n + 1) := by
  cases hwatching : client.watching k <;> cases hflag : client.watchedExpired k <;>
    cases n <;> simp [settle, hit, clearBits, dirtyBits, forgetBits, hwatching, hflag]

theorem hit_settle : (!hit (settle client k 1) k n && !hit client k 1) = !hit client k (n + 1) := by
  cases hwatching : client.watching k <;> cases hflag : client.watchedExpired k <;>
    cases n <;> simp [settle, hit, clearBits, dirtyBits, forgetBits, hwatching, hflag]

variable {k k'}

/-- Edits of another key matter only when they dirty the client. -/
theorem hit_settle_of_ne (hne : k ≠ k') :
    hit (settle client k n) k' m = (!hit client k n && hit client k' m) := by
  cases hhit : hit client k n with
  | true => rw [settle, hhit, if_pos rfl, hit_dirtyBits, Bool.not_true, Bool.false_and]
  | false =>
    rw [settle, hhit, if_neg Bool.false_ne_true, Bool.not_false, Bool.true_and]
    split_ifs
    · rfl
    · simp [hit, clearBits, Function.update_of_ne (Ne.symm hne)]

theorem settle_of_hit (hhit : hit client k n = true) : settle client k n = dirtyBits client :=
  if_pos hhit

theorem settle_of_not_hit (hhit : hit client k n = false) :
    settle client k n = if n = 0 then client else clearBits client k := by
  rw [settle, hhit, if_neg Bool.false_ne_true]

@[simp] theorem dirtyBits_settle : dirtyBits (settle client k n) = dirtyBits client := by
  rw [settle]
  split_ifs <;> rfl

/-- Edits of distinct keys settle a client in either order. -/
theorem settle_comm (hne : k ≠ k') :
    settle (settle client k n) k' m = settle (settle client k' m) k n := by
  have hleft := hit_settle_of_ne client n m hne
  have hright := hit_settle_of_ne client m n (Ne.symm hne)
  cases hhit : hit client k n with
  | true =>
    rw [settle_of_hit client n hhit, settle_dirtyBits]
    cases hhit' : hit client k' m with
    | true => rw [settle_of_hit client m hhit', settle_dirtyBits]
    | false =>
      rw [hhit, hhit'] at hright
      rw [settle_of_hit _ n hright, dirtyBits_settle]
  | false =>
    cases hhit' : hit client k' m with
    | true =>
      rw [hhit, hhit'] at hleft
      rw [settle_of_hit _ m hleft, settle_of_hit client m hhit', settle_dirtyBits, dirtyBits_settle]
    | false =>
      rw [hhit, hhit'] at hleft hright
      rw [settle_of_not_hit _ m hleft, settle_of_not_hit _ n hright, settle_of_not_hit _ n hhit,
        settle_of_not_hit _ m hhit']
      split_ifs
      · rfl
      · rfl
      · rfl
      · simp [clearBits, Function.update_comm hne]

end Clients

/-! ### Worlds under edits of one key -/

/-- The world after `n` edits of a key that leave the slot `s`. -/
def settled (w : World K C) (k : Fin K) (n : ℕ) (s : Slot) : World K C :=
  withWatch (w.setSlot k s) (fun c ↦ settle (w.clients c) k n)
    (tableOf fun k' ↦ (w.watchers k').filter fun c ↦ !hit (w.clients c) k n)

section OneKey

variable {w : World K C} {k : Fin K}

theorem settled_zero (h : WatchWellFormed w) : settled w k 0 (w.slots k) = w := by
  have hclients : (fun c ↦ settle (w.clients c) k 0) = w.clients := by
    funext c
    simp [settle, hit]
  have hlists : (fun k' ↦ (w.watchers k').filter fun c ↦ !hit (w.clients c) k 0) = w.watchers := by
    funext k'
    simp [hit]
  rw [settled, hclients, hlists, ← h.watched_eq, World.setSlot, Function.update_eq_self]
  rfl

theorem dirties_eq_hit (w : World K C) (k : Fin K) (c : Fin C) :
    dirties w k c = hit (w.clients c) k 1 := by
  cases hflag : (w.clients c).watchedExpired k <;> simp [dirties, hit, hflag]

/-- One safe edit settles its key. -/
theorem core_applyEdit_of_safe (h : WatchWellFormed w) {e : Edit} (hsafe : SafeEdit w (k, e)) :
    core (applyEdit w (k, e)) = core (settled w k 1 (e.slot (w.slots k))) := by
  have hclients : (notify (w.setSlot k (e.slot (w.slots k))) k).clients =
      fun c ↦ settle (w.clients c) k 1 := by
    funext c
    rw [clients_notify (setSlot_wellFormed h k _), settle, ← dirties_eq_hit]
    rfl
  have hlists : (fun k' ↦ (w.watchers k').filter fun c ↦ !dirties w k c) =
      fun k' ↦ (w.watchers k').filter fun c ↦ !hit (w.clients c) k 1 := by
    simp only [dirties_eq_hit]
  rw [applyEdit_of_safe h hsafe, settled, ← hlists, ← hclients]
  rfl

/-- Settling a key on an edited world reads only what the edit left. -/
theorem core_settled_congr {w w' : World K C} (hcore : core w = core w') (n : ℕ) (s : Slot) :
    core (settled w k n s) = core (settled w' k n s) := by
  have hsettled : ∀ u : World K C, core (settled u k n s) = core (settled (core u) k n s) :=
    fun _ ↦ rfl
  rw [hsettled w, hsettled w', hcore]

theorem watchers_settled (h : WatchWellFormed w) (k : Fin K) (n : ℕ) (s : Slot) (k' : Fin K) :
    (settled w k n s).watchers k' = (w.watchers k').filter fun c ↦ !hit (w.clients c) k n :=
  watchers_eq_of_table rfl (fun k' ↦ (List.length_filter_le _ _).trans (h.length_le k')) k'

/-- Settling two keys filters the watcher lists once, by both tests. -/
theorem settled_settled (h : WatchWellFormed w) (k k' : Fin K) (n m : ℕ) (s s' : Slot) :
    settled (settled w k n s) k' m s' =
      withWatch ((w.setSlot k s).setSlot k' s')
        (fun c ↦ settle (settle (w.clients c) k n) k' m)
        (tableOf fun k₁ ↦ (w.watchers k₁).filter fun c ↦
          !hit (settle (w.clients c) k n) k' m && !hit (w.clients c) k n) := by
  have hlists : (fun k₁ ↦ ((settled w k n s).watchers k₁).filter fun c ↦
      !hit ((settled w k n s).clients c) k' m) =
      fun k₁ ↦ (w.watchers k₁).filter fun c ↦
        !hit (settle (w.clients c) k n) k' m && !hit (w.clients c) k n := by
    funext k₁
    rw [watchers_settled h, List.filter_filter]
    rfl
  rw [settled, hlists]
  rfl

theorem settled_succ (h : WatchWellFormed w) (k : Fin K) (n : ℕ) (s s' : Slot) :
    settled (settled w k 1 s) k n s' = settled w k (n + 1) s' := by
  rw [settled_settled h]
  simp only [settle_settle, hit_settle, World.setSlot, Function.update_idem]
  rfl

/-- Settling distinct keys commutes. -/
theorem settled_comm (h : WatchWellFormed w) {k k' : Fin K} (hne : k ≠ k') (n m : ℕ)
    (s s' : Slot) :
    settled (settled w k n s) k' m s' = settled (settled w k' m s') k n s := by
  rw [settled_settled h, settled_settled h]
  have hslots : (w.setSlot k s).setSlot k' s' = (w.setSlot k' s').setSlot k s := by
    simp only [World.setSlot, Function.update_comm hne]
  have hclients : (fun c ↦ settle (settle (w.clients c) k n) k' m) =
      fun c ↦ settle (settle (w.clients c) k' m) k n :=
    funext fun c ↦ settle_comm (w.clients c) n m hne
  have htests : (fun c ↦ !hit (settle (w.clients c) k n) k' m && !hit (w.clients c) k n) =
      fun c ↦ !hit (settle (w.clients c) k' m) k n && !hit (w.clients c) k' m := by
    funext c
    rw [hit_settle_of_ne _ n m hne, hit_settle_of_ne _ m n (Ne.symm hne)]
    cases hit (w.clients c) k n <;> cases hit (w.clients c) k' m <;> rfl
  rw [hslots, hclients, htests]

/-- Safe edits of one key, in closed form. -/
theorem core_applyEdits_map (h : WatchWellFormed w) (es : List Edit)
    (hsafe : SafeEdits w (es.map fun e ↦ (k, e))) :
    core (applyEdits w (es.map fun e ↦ (k, e))) =
      core (settled w k es.length (es.foldl (fun s e ↦ e.slot s) (w.slots k))) := by
  induction es generalizing w with
  | nil => rw [List.map_nil, applyEdits_nil, List.foldl_nil, List.length_nil, settled_zero h]
  | cons e rest ih =>
    have hrest := ih (applyEdit_wellFormed h (k, e)) hsafe.2
    rw [List.map_cons, applyEdits_cons, hrest,
      core_settled_congr (core_applyEdit_of_safe h hsafe.1),
      applyEdit_slots, Function.update_self, List.length_cons, List.foldl_cons, settled_succ h]

end OneKey

/-! ### Commands -/

section Commands

variable {w : World K C} {x y : Cmd K C} {k₁ k₂ : Fin K} {opX opY : KeyOp}

/-- A command about one key settles that key. -/
theorem core_next (hlive : FlagsLive w) (hpurging : (config w).purging = true) (c : Fin C)
    (hx : keyOp? x = some (k₁, opX)) :
    core (w.next (.cmd c x)) =
      core (settled w k₁ (opX.edits (config w) w.clock (w.slots k₁)).length
        ((w.next (.cmd c x)).slots k₁)) := by
  have hsafe := safeEdits_opEdits hlive.freshUnit hpurging k₁ opX
  have hslot : (w.next (.cmd c x)).slots k₁ =
      (opX.edits (config w) w.clock (w.slots k₁)).foldl (fun s e ↦ e.slot s) (w.slots k₁) := by
    rw [next_slots, stepEdits_of_keyOp w c hx, editsOn_opEdits, if_pos rfl]
  rw [hslot, World.next, step_of_keyOp w c hx, opEdits]
  exact core_applyEdits_map (freshUnit_wellFormed hlive.wellFormed) _ hsafe

/-- A command leaves the slots of other keys alone. -/
theorem slots_next_of_ne (c : Fin C) (hx : keyOp? x = some (k₁, opX)) (hne : k₁ ≠ k₂) :
    (w.next (.cmd c x)).slots k₂ = w.slots k₂ := by
  rw [next_slots, stepEdits_of_keyOp w c hx, editsOn_opEdits, if_neg hne, List.foldl_nil]

/-- A command reads of the world only the slot of its key, the clock and the configuration. -/
theorem stepEdits_next_of_ne (c cy : Fin C) (hx : keyOp? x = some (k₁, opX))
    (hy : keyOp? y = some (k₂, opY)) (hne : k₁ ≠ k₂) :
    stepEdits (w.next (.cmd c x)) (.cmd cy y) = stepEdits w (.cmd cy y) := by
  rw [stepEdits_of_keyOp _ cy hy, stepEdits_of_keyOp _ cy hy]
  unfold opEdits
  rw [next_config, next_clock, slots_next_of_ne c hx hne]

theorem reply_next_of_ne (c cy : Fin C) (hx : keyOp? x = some (k₁, opX))
    (hy : keyOp? y = some (k₂, opY)) (hne : k₁ ≠ k₂) :
    (step (w.next (.cmd c x)) (.cmd cy y)).2 = (step w (.cmd cy y)).2 := by
  rw [step_of_keyOp _ cy hy, step_of_keyOp _ cy hy, next_config, next_clock,
    slots_next_of_ne c hx hne]

/-- Two commands on distinct keys settle both keys. -/
theorem core_next_next (hlive : FlagsLive w) (hpurging : (config w).purging = true) (cx cy : Fin C)
    (hx : keyOp? x = some (k₁, opX)) (hy : keyOp? y = some (k₂, opY)) (hne : k₁ ≠ k₂) :
    core ((w.next (.cmd cx x)).next (.cmd cy y)) =
      core (settled
        (settled w k₁ (opX.edits (config w) w.clock (w.slots k₁)).length
          ((w.next (.cmd cx x)).slots k₁))
        k₂ (opY.edits (config w) w.clock (w.slots k₂)).length ((w.next (.cmd cy y)).slots k₂)) := by
  have hnext : FlagsLive (w.next (.cmd cx x)) := hlive.next hpurging trivial
  have hconfig : (config (w.next (.cmd cx x))).purging = true := by rwa [next_config]
  have hslot :
      ((w.next (.cmd cx x)).next (.cmd cy y)).slots k₂ = (w.next (.cmd cy y)).slots k₂ := by
    rw [next_slots, stepEdits_next_of_ne cx cy hx hy hne, slots_next_of_ne cx hx hne,
      ← next_slots]
  rw [core_next hnext hconfig cy hy, hslot, next_config, next_clock, slots_next_of_ne cx hx hne,
    core_settled_congr (core_next hlive hpurging cx hx)]

theorem core_comm (hlive : FlagsLive w) (hpurging : (config w).purging = true) (cx cy : Fin C)
    (hx : keyOp? x = some (k₁, opX)) (hy : keyOp? y = some (k₂, opY)) (hne : k₁ ≠ k₂) :
    core ((w.next (.cmd cx x)).next (.cmd cy y)) =
      core ((w.next (.cmd cy y)).next (.cmd cx x)) := by
  rw [core_next_next hlive hpurging cx cy hx hy hne,
    core_next_next hlive hpurging cy cx hy hx (Ne.symm hne), settled_comm hlive.wellFormed hne]

/-! ### The log -/

/-- The effects on a key, in log order. -/
def effectsOn (k : Fin K) (effects : List (Effect K)) : List (Effect K) :=
  effects.filter fun e ↦ e.key? == some k

theorem effectsOn_append (k : Fin K) (first second : List (Effect K)) :
    effectsOn k (first ++ second) = effectsOn k first ++ effectsOn k second :=
  List.filter_append ..

/-- A command emits effects on its own key only. -/
theorem effectsOn_emitted_of_ne (hK : K ≤ replCap) (c : Fin C) (hx : keyOp? x = some (k₁, opX))
    {k : Fin K} (hne : k₁ ≠ k) : effectsOn k (emitted w (.cmd c x)) = [] := by
  rw [effectsOn, List.filter_eq_nil_iff, emitted_eq w _ hK, stepEdits_of_keyOp w c hx]
  simp [opEdits, hne]

/-- Two commands on distinct keys log the effects of both, in order. -/
theorem entries_next_next (hK : K ≤ replCap) (cx cy : Fin C) (hx : keyOp? x = some (k₁, opX))
    (hy : keyOp? y = some (k₂, opY)) (hne : k₁ ≠ k₂)
    (hroom : w.repl.len + (emitted w (.cmd cx x)).length + (emitted w (.cmd cy y)).length ≤
      replCap) :
    ((w.next (.cmd cx x)).next (.cmd cy y)).repl.entries =
      w.repl.entries ++ emitted w (.cmd cx x) ++ emitted w (.cmd cy y) := by
  have hedits := stepEdits_next_of_ne (w := w) cx cy hx hy hne
  rw [emitted_eq w _ hK, emitted_eq w _ hK, List.length_map, List.length_map] at hroom
  obtain ⟨hentries, hlen⟩ := repl_next w (.cmd cx x) (by omega)
  rw [(repl_next (w.next (.cmd cx x)) (.cmd cy y) (by rw [hedits, hlen]; exact hroom)).1, hentries,
    hedits, emitted_eq w _ hK, emitted_eq w _ hK]

end Commands

/-- Under the scope fence, two commands on distinct keys give the same replies, slots, clients,
watcher lists and per-key effects in either order. -/
theorem commands_commute {w : World keyCount clientCount} (hreach : FenceReachable w)
    {x y : Cmd keyCount clientCount} {k₁ k₂ : Fin keyCount} {opX opY : KeyOp}
    (hx : keyOp? x = some (k₁, opX)) (hy : keyOp? y = some (k₂, opY)) (hne : k₁ ≠ k₂)
    (cx cy : Fin clientCount)
    (hroom : w.repl.len + (emitted w (.cmd cx x)).length + (emitted w (.cmd cy y)).length ≤
      replCap) :
    (step (w.next (.cmd cy y)) (.cmd cx x)).2 = (step w (.cmd cx x)).2 ∧
      (step (w.next (.cmd cx x)) (.cmd cy y)).2 = (step w (.cmd cy y)).2 ∧
      ((w.next (.cmd cx x)).next (.cmd cy y)).slots =
        ((w.next (.cmd cy y)).next (.cmd cx x)).slots ∧
      ((w.next (.cmd cx x)).next (.cmd cy y)).clients =
        ((w.next (.cmd cy y)).next (.cmd cx x)).clients ∧
      (∀ k, ((w.next (.cmd cx x)).next (.cmd cy y)).watchers k =
        ((w.next (.cmd cy y)).next (.cmd cx x)).watchers k) ∧
      ∀ k, effectsOn k ((w.next (.cmd cx x)).next (.cmd cy y)).repl.entries =
        effectsOn k ((w.next (.cmd cy y)).next (.cmd cx x)).repl.entries := by
  have hfenced := hreach.fenced
  have hcore := core_comm hfenced.live hfenced.purging cx cy hx hy hne
  have hK : keyCount ≤ replCap := by decide
  have hslots := congrArg World.slots hcore
  have hclients := congrArg World.clients hcore
  have hwatched := congrArg World.watched hcore
  refine ⟨reply_next_of_ne cy cx hy hx (Ne.symm hne), reply_next_of_ne cx cy hx hy hne, hslots,
    hclients, fun k ↦ congrArg (fun t : WatchTable keyCount clientCount ↦ t.watchers k) hwatched,
    fun k ↦ ?_⟩
  have hswapped : w.repl.len + (emitted w (.cmd cy y)).length + (emitted w (.cmd cx x)).length ≤
      replCap := by omega
  rw [entries_next_next hK cx cy hx hy hne hroom,
    entries_next_next hK cy cx hy hx (Ne.symm hne) hswapped]
  simp only [effectsOn_append, List.append_assoc]
  by_cases hk : k₁ = k
  · subst hk
    rw [effectsOn_emitted_of_ne hK cy hy (Ne.symm hne), List.nil_append, List.append_nil]
  · rw [effectsOn_emitted_of_ne hK cx hx hk, List.nil_append, List.append_nil]

/-- The common past of two commands: client 0 watches both keys, and one of them expires. -/
def watchedPair : List (Step keyCount clientCount) :=
  [.cmd 0 (.set 0 Str.empty .always (.pxAt 5) false), .cmd 0 (.watch 0 0), .cmd 0 (.watch 0 1),
    .clockTick 10]

/-- A read that deletes the expired key and a write of the other one. -/
theorem commands_commute_watched :
    ((((runSchedule (World.empty 0) watchedPair).next (.cmd 0 (.get 0))).next
        (.cmd 1 (.set 1 Str.empty .always .none false))).clients) =
      (((runSchedule (World.empty 0) watchedPair).next
        (.cmd 1 (.set 1 Str.empty .always .none false))).next (.cmd 0 (.get 0))).clients := by
  have hreach : FenceReachable (runSchedule (World.empty 0) watchedPair) :=
    ⟨World.empty 0, watchedPair, .inl ⟨0, by decide, rfl⟩, by decide, rfl⟩
  have hboth := commands_commute hreach (x := .get 0) (y := .set 1 Str.empty .always .none false)
    rfl rfl (by decide) 0 1 (by decide)
  exact hboth.2.2.2.1

end RedisCvlr.Transactions
