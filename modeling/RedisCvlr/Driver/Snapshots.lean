import RedisCvlr.Driver.Difftest
import RedisCvlr.Keyspace.Times
import RedisCvlr.Library.Machine

/-!
# Snapshots

The harness compares a direct inspection of the slots of the model with what a server replies to
DBSIZE, KEYS, GET and PTTL. In every world that commands and the passing of time reach from an empty
one, the replies of the model to those commands are that inspection, and issuing them changes
nothing.
-/

set_option autoImplicit false
set_option relaxedAutoImplicit false

namespace RedisCvlr.Driver

open RedisCvlr.Library RedisCvlr.Model RedisCvlr.Keyspace

variable {K C : ℕ}

/-! ### Sorting -/

section Sorting

variable {α β : Type*} [LinearOrder β] {key : α → β}

theorem sortBy_perm (key : α → β) (xs : List α) : (sortBy key xs).Perm xs :=
  List.perm_insertionSort _ xs

theorem mem_sortBy {x : α} {xs : List α} : x ∈ sortBy key xs ↔ x ∈ xs :=
  (sortBy_perm key xs).mem_iff

theorem pairwise_sortBy (key : α → β) (xs : List α) :
    (sortBy key xs).Pairwise fun a b ↦ key a ≤ key b := by
  have : Std.Total fun a b : α ↦ key a ≤ key b := ⟨fun a b ↦ le_total (key a) (key b)⟩
  have : IsTrans α fun a b ↦ key a ≤ key b := ⟨fun _ _ _ ↦ le_trans⟩
  exact List.pairwise_insertionSort _ xs

/-- Sorting by an injective key forgets the order of a list. -/
theorem sortBy_eq_of_perm (hinjective : Function.Injective key) {xs ys : List α}
    (hperm : xs.Perm ys) : sortBy key xs = sortBy key ys := by
  refine List.Perm.eq_of_pairwise (fun a b _ _ hab hba ↦ hinjective (le_antisymm hab hba))
    (pairwise_sortBy key xs) (pairwise_sortBy key ys) ?_
  exact (sortBy_perm key xs).trans (hperm.trans (sortBy_perm key ys).symm)

/-- The keys of a sorted list are the sorted keys. -/
theorem map_sortBy (key : α → β) (xs : List α) :
    (sortBy key xs).map key = sortBy id (xs.map key) :=
  List.map_insertionSort _ _ key xs fun _ _ _ _ ↦ Iff.rfl

theorem entryOrder_injective : Function.Injective entryOrder := by
  rintro ⟨name, bytes, ttl⟩ ⟨name', bytes', ttl'⟩ horder
  simp only [entryOrder, EmbeddingLike.apply_eq_iff_eq, Prod.mk.injEq] at horder
  obtain ⟨rfl, hbytes, rfl⟩ := horder
  rw [(List.map_injective_iff.mpr fun _ _ ↦ UInt8.toNat.inj) hbytes]

end Sorting

/-! ### Runs of commands -/

/-- What happens to the model between two snapshots: a command is executed, or time passes. -/
inductive Call (K C : ℕ)
  | exec (c : Fin C) (command : Cmd K C)
  | advance (d : Ms)

/-- The world after a call. -/
def call (w : World K C) : Call K C → World K C
  | .exec c command => (execCmd w c command).1
  | .advance d => { w with clock := wrapI64 (w.clock + d) }

/-- The times of a command are `i64`, time does not run backwards and the clock does not wrap. -/
def CallAdmits (w : World K C) : Call K C → Prop
  | .exec c command => ∀ target ∈ requestedTime? (.cmd c command), IsI64 target.2
  | .advance d => 0 ≤ d ∧ IsI64 (w.clock + d)

instance (w : World K C) : ∀ s, Decidable (CallAdmits w s)
  | .exec c command =>
    inferInstanceAs (Decidable (∀ target ∈ requestedTime? (.cmd c command), IsI64 target.2))
  | .advance d => inferInstanceAs (Decidable (0 ≤ d ∧ IsI64 (w.clock + d)))

/-- The worlds that calls reach from an empty world at a clock that is not negative. -/
def CallReachable : World K C → Prop :=
  Machine.Reachable call CallAdmits fun w ↦ ∃ t, 0 ≤ t ∧ IsI64 t ∧ w = World.empty t

/-- What a snapshot relies on. -/
structure Observable (w : World K C) : Prop where
  strict : w.allowAccessExpired = false
  clock_nonneg : 0 ≤ w.clock
  clock_i64 : IsI64 w.clock
  stored : StoresTimes IsI64 w

section Invariant

variable {w : World K C}

theorem Observable.call (h : Observable w) {s : Call K C} (hadmits : CallAdmits w s) :
    Observable (call w s) where
  strict := by
    cases s with
    | advance d => exact h.strict
    | exec c command =>
      exact (congrArg Config.allowAccessExpired (execCmd_config w c command)).trans h.strict
  clock_nonneg := by
    cases s with
    | advance d =>
      show 0 ≤ wrapI64 (w.clock + d)
      rw [wrapI64_eq hadmits.2]
      exact add_nonneg h.clock_nonneg hadmits.1
    | exec c command => exact (execCmd_clock w c command).symm ▸ h.clock_nonneg
  clock_i64 := by
    cases s with
    | advance d =>
      show IsI64 (wrapI64 (w.clock + d))
      rw [wrapI64_eq hadmits.2]
      exact hadmits.2
    | exec c command => exact (execCmd_clock w c command).symm ▸ h.clock_i64
  stored := by
    cases s with
    | advance d => exact h.stored
    | exec c command => exact h.stored.execCmd fun k time hasked _ ↦ hadmits (k, time) hasked

theorem CallReachable.observable (hreach : CallReachable w) : Observable w := by
  refine Machine.Reachable.invariant Observable (fun w hstart ↦ ?_)
    (fun w s hadmits h ↦ h.call hadmits) hreach
  obtain ⟨t, ht, ht64, rfl⟩ := hstart
  exact ⟨rfl, ht, ht64, fun _ hpresent ↦ absurd hpresent Bool.false_ne_true⟩

end Invariant

/-! ### Observing a world -/

section Observe

variable {w : World K C}

theorem mem_visibleKeys {k : Fin K} :
    k ∈ visibleKeys w ↔ (w.slots k).present = true ∧ keyIsExpired w k = false := by
  rw [visibleKeys, List.mem_filter, Bool.and_eq_true, Bool.not_eq_true']
  exact and_iff_right (List.mem_finRange k)

/-- A lookup of a visible key finds it and changes nothing. -/
theorem lookupKeyRead_of_mem {k : Fin K} (hk : k ∈ visibleKeys w) :
    lookupKeyRead w k = (w, some (w.slots k).value) := by
  obtain ⟨hpresent, hlive⟩ := mem_visibleKeys.mp hk
  have hvalid : expireIfNeeded w k ExpireFlags.read = (w, .valid) := by
    rw [expireIfNeeded, hlive]
    rfl
  rw [lookupKeyRead, hpresent, hvalid]
  rfl

theorem execCmd_get_of_mem {k : Fin K} (hk : k ∈ visibleKeys w) (c : Fin C) :
    execCmd w c (.get k) = (w, oldValueReply (some (w.slots k).value)) := by
  rw [execCmd, lookupKeyRead_of_mem hk]
  cases (w.slots k).value
  rfl

theorem execCmd_pttl_of_mem {k : Fin K} (hk : k ∈ visibleKeys w) (c : Fin C) :
    execCmd w c (.pttl k) = (w, .int (if (w.slots k).hasTtl then
      wrapI64 ((w.slots k).expireAt - w.clock) else -1)) := by
  rw [execCmd, lookupKeyRead_of_mem hk]
  show (if (w.slots k).hasTtl = true then _ else _) = _
  split_ifs <;> rfl

/-- The remaining time of an observed key is an `i64` that is not negative. -/
theorem wrapI64_remaining {time now : ℤ} (htime : IsI64 time) (hnow : 0 ≤ now) (hle : now ≤ time) :
    0 ≤ wrapI64 (time - now) := by
  have hi64 : IsI64 (time - now) := by
    obtain ⟨hlow, hhigh⟩ := htime
    exact ⟨by omega, by omega⟩
  rw [wrapI64_eq hi64]
  omega

/-- The sign of a reply to PTTL on a visible key says whether the slot carries a TTL. -/
theorem pttl_sign (hstrict : w.allowAccessExpired = false) (hnow : 0 ≤ w.clock)
    (hstored : StoresTimes IsI64 w) {k : Fin K} (hk : k ∈ visibleKeys w) :
    decide (0 ≤ if (w.slots k).hasTtl then wrapI64 ((w.slots k).expireAt - w.clock) else -1) =
      (w.slots k).hasTtl := by
  obtain ⟨hpresent, hlive⟩ := mem_visibleKeys.mp hk
  cases httl : (w.slots k).hasTtl with
  | false => rfl
  | true =>
    have hne : (w.slots k).expireAt ≠ noExpire := by simpa [Slot.hasTtl] using httl
    have hle : w.clock ≤ (w.slots k).expireAt := by
      simpa [keyIsExpired, hstrict, hne] using hlive
    have htime := (hstored k hpresent).resolve_left hne
    exact decide_eq_true (wrapI64_remaining htime hnow hle)

theorem Observable.pttl_sign (h : Observable w) {k : Fin K} (hk : k ∈ visibleKeys w) :
    decide (0 ≤ if (w.slots k).hasTtl then wrapI64 ((w.slots k).expireAt - w.clock) else -1) =
      (w.slots k).hasTtl :=
  Driver.pttl_sign h.strict h.clock_nonneg h.stored hk

/-- One round of the observation records the entry of the key. -/
theorem observeKey_of_mem (h : Observable w) (c : Fin C) {k : Fin K} (hk : k ∈ visibleKeys w)
    (entries : List (String × List UInt8 × Bool)) :
    observeKey (fun w command ↦ execCmd w c command) (w, entries) k =
      (w, entries ++ [modelEntry w k]) := by
  simp only [observeKey, execCmd_get_of_mem hk]
  cases hvalue : (w.slots k).value with
  | str s =>
    simp only [oldValueReply, execCmd_pttl_of_mem hk, replyInt, Option.getD_some, modelEntry,
      hvalue, h.pttl_sign hk]

theorem foldl_observeKey (h : Observable w) (c : Fin C) (ks : List (Fin K))
    (hks : ∀ k ∈ ks, k ∈ visibleKeys w) (entries : List (String × List UInt8 × Bool)) :
    ks.foldl (observeKey fun w command ↦ execCmd w c command) (w, entries) =
      (w, entries ++ ks.map (modelEntry w)) := by
  induction ks generalizing entries with
  | nil => rw [List.foldl_nil, List.map_nil, List.append_nil]
  | cons k ks ih =>
    rw [List.forall_mem_cons] at hks
    rw [List.foldl_cons, observeKey_of_mem h c hks.1, ih hks.2, List.map_cons, List.append_assoc,
      List.singleton_append]

/-- Observing a world by commands changes nothing and finds what inspecting it finds. -/
theorem serverSnapshot_eq (h : Observable w) (c : Fin C) :
    serverSnapshot (fun w command ↦ execCmd w c command) w = (w, modelSnapshot w) := by
  have hsized : execCmd w c .dbSize = (w, cmdDbsize w) := rfl
  have hlisted : execCmd w c .keys =
      (w, .keySet fun k ↦ (w.slots k).present && !keyIsExpired w k) := rfl
  have hreported : reportedKeys (.keySet fun k ↦ (w.slots k).present && !keyIsExpired w k) =
      visibleKeys w := rfl
  have hfold := foldl_observeKey h c (sortBy keyName (visibleKeys w))
    (fun k hk ↦ mem_sortBy.mp hk) []
  have hsize : (replyInt (cmdDbsize w)).getD (-1) =
      ((List.finRange K).filter fun k ↦ (w.slots k).present).length := by
    rw [cmdDbsize_eq, presentCount, List.countP_eq_length_filter]
    rfl
  have hvalues : sortBy entryOrder ((sortBy keyName (visibleKeys w)).map (modelEntry w)) =
      sortBy entryOrder ((visibleKeys w).map (modelEntry w)) :=
    sortBy_eq_of_perm entryOrder_injective ((sortBy_perm keyName _).map _)
  simp only [serverSnapshot, hsized, hlisted, hreported, hfold, hsize, List.nil_append, hvalues,
    map_sortBy, modelSnapshot]

/-- What the visible keys are mapped to is what the entries of the observable projection are. -/
theorem map_visibleKeys {α : Type*} (f : Fin K → α) (g : Fin K → VType × Str × Ms → α)
    (hentry : ∀ k s, (w.slots k).value = .str s → f k = g k (.str, s, (w.slots k).expireAt)) :
    (visibleKeys w).map f =
      (List.finRange K).filterMap fun k ↦ (w.snapshotVisible k).map (g k) := by
  rw [visibleKeys, ← List.filterMap_eq_filter, List.map_filterMap]
  refine List.filterMap_congr fun k _ ↦ ?_
  rw [World.snapshotVisible, Option.guard]
  cases hvalue : (w.slots k).value with
  | str s =>
    split_ifs
    · exact congrArg some (hentry k s hvalue)
    · rfl

end Observe

/-! ### The snapshots agree -/

section Agree

variable {w : World K C}

/-- In every world that calls reach, issuing the commands of a snapshot changes nothing and yields
the snapshot that inspecting the slots yields. Its visible entries are those of the observable
projection, with the same value and a TTL exactly where there is one. -/
theorem snapshots_agree (hreach : CallReachable w) (c : Fin C) :
    serverSnapshot (fun w command ↦ execCmd w c command) w = (w, modelSnapshot w) ∧
    (modelSnapshot w).visible = sortBy id ((List.finRange K).filterMap fun k ↦
      (w.snapshotVisible k).map fun _ ↦ keyName k) ∧
    (modelSnapshot w).values = sortBy entryOrder ((List.finRange K).filterMap fun k ↦
      (w.snapshotVisible k).map fun (_, s, expireAt) ↦
        (keyName k, s.asSlice, expireAt != noExpire)) := by
  refine ⟨serverSnapshot_eq hreach.observable c, ?_, ?_⟩
  · exact congrArg (sortBy id) (map_visibleKeys keyName (fun k _ ↦ keyName k) fun _ _ _ ↦ rfl)
  · refine congrArg (sortBy entryOrder) (map_visibleKeys (modelEntry w) _ fun k s hvalue ↦ ?_)
    rw [modelEntry, hvalue]
    rfl

/-- Once the time of one key has passed, the snapshot still counts it and does not see it. -/
theorem snapshots_agree_expired :
    let calls : List (Call keyCount clientCount) :=
      [.exec 0 (.set 0 Str.empty .always (.pxAt 5) false),
        .exec 1 (.set 1 Str.empty .always .none false), .advance 6]
    let w := Machine.run call (World.empty 0) calls
    serverSnapshot (fun w command ↦ execCmd w 0 command) w =
      (w, ⟨2, ["k1"], [("k1", [], false)]⟩) := by
  intro calls w
  have hadmits : Machine.Admissible call CallAdmits (World.empty 0) calls := by decide
  have hreach : CallReachable w :=
    ⟨World.empty 0, calls, ⟨0, le_refl 0, by decide, rfl⟩, hadmits, rfl⟩
  have hinspected : modelSnapshot w = ⟨2, ["k1"], [("k1", [], false)]⟩ := by decide
  rw [(snapshots_agree hreach 0).1, hinspected]

end Agree

end RedisCvlr.Driver
