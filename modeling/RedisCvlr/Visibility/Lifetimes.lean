import RedisCvlr.Keyspace.Logical

/-!
# The lifetime of a key

A key that is not written again keeps its value and its time, and is visible for exactly as long as
its time allows. Lookups and the active cycle disagree about the moment at which the clock reads the
time: lookups still find the key, and the active cycle removes it. `lifetime_exact` says when a run
has taken the key away: the clock has passed the time, or the active cycle has run at it.
-/

set_option autoImplicit false
set_option relaxedAutoImplicit false

namespace RedisCvlr.Visibility

open RedisCvlr.Library RedisCvlr.Model RedisCvlr.Keyspace

variable {K C : ℕ}

/-- A SET, DEL, EXPIRE or PERSIST on the key. -/
def isWriteOn (k : Fin K) : Step K C → Bool
  | .cmd _ (.set key _ _ _ _) => key == k
  | .cmd _ (.del key) => key == k
  | .cmd _ (.expire key _ _) => key == k
  | .cmd _ (.persist key) => key == k
  | .cmd _ _ => false
  | .activeExpire => false
  | .clockTick _ => false

/-- A run does not take away a key with the time: the clock does not pass the time, and the active
cycle, if it is not disabled, does not run at it. -/
def Outlives (w : World K C) (schedule : List (Step K C)) (time : Ms) : Prop :=
  time = noExpire ∨ ((runSchedule w schedule).clock ≤ time ∧
    ((config w).sweeps = true → ∀ before after, schedule = before ++ .activeExpire :: after →
      (runSchedule w before).clock < time))

section Steps

variable {w : World K C} {k : Fin K} {s : Step K C} {schedule : List (Step K C)} {time : Ms}

theorem outlives_nil : Outlives w [] time ↔ time = noExpire ∨ w.clock ≤ time := by
  refine or_congr_right ⟨And.left, fun hclock ↦ ⟨hclock, fun _ before after hsplit ↦ ?_⟩⟩
  exact absurd hsplit.symm (by simp)

/-- To outlive a run is to outlive its first step and then the rest. -/
theorem outlives_cons : Outlives w (s :: schedule) time ↔ Outlives (w.next s) schedule time ∧
    (s = .activeExpire → (config w).sweeps = true → time = noExpire ∨ w.clock < time) := by
  unfold Outlives
  rw [next_config]
  constructor
  · rintro (hpersistent | ⟨hclock, hswept⟩)
    · exact ⟨.inl hpersistent, fun _ _ ↦ .inl hpersistent⟩
    · refine ⟨.inr ⟨hclock, fun hsweeps before after hsplit ↦ ?_⟩, fun hs hsweeps ↦ .inr ?_⟩
      · exact hswept hsweeps (s :: before) after (congrArg (s :: ·) hsplit)
      · exact hswept hsweeps [] schedule (hs ▸ rfl)
  · rintro ⟨hpersistent | ⟨hclock, hswept⟩, hfirst⟩
    · exact .inl hpersistent
    · rw [or_iff_not_imp_left]
      intro htimed
      refine ⟨hclock, fun hsweeps before after hsplit ↦ ?_⟩
      cases before with
      | nil => exact (hfirst (List.cons.inj hsplit).1 hsweeps).resolve_left htimed
      | cons s' before =>
        obtain ⟨rfl, hrest⟩ := List.cons.inj hsplit
        exact hswept hsweeps before after hrest

theorem clock_le_run (hruns : Runs w schedule) : w.clock ≤ (runSchedule w schedule).clock := by
  induction schedule generalizing w with
  | nil => exact le_rfl
  | cons s rest ih => exact (clock_le_next w s hruns.1).trans (ih hruns.2)

theorem gone_eq_false_iff {e : Entry} {now : Ms} :
    e.gone now = false ↔ e.expireAt = noExpire ∨ now ≤ e.expireAt := by
  simp [Entry.gone, Entry.hasTtl, imp_iff_not_or]

theorem due_eq_false_iff {e : Entry} {now : Ms} :
    e.due now = false ↔ e.expireAt = noExpire ∨ now < e.expireAt := by
  simp [Entry.due, Entry.hasTtl, imp_iff_not_or]

/-- What outlives a run has not gone when the run starts. -/
theorem not_gone_of_outlives (hruns : Runs w schedule) {e : Entry}
    (houtlives : Outlives w schedule e.expireAt) : e.gone w.clock = false := by
  rw [gone_eq_false_iff]
  exact houtlives.imp_right fun h ↦ (clock_le_run hruns).trans h.1

/-- An operation on the key that is no write keeps its entry. -/
theorem not_writes_of_keyOp (c : Fin C) {command : Cmd K C} {op : KeyOp}
    (hop : keyOp? command = some (k, op)) (hquiet : isWriteOn k (.cmd c command) = false) :
    op.writes = false := by
  cases command with
  | get key => exact (Prod.mk.inj (Option.some.inj hop)).2 ▸ rfl
  | existsKey key => exact (Prod.mk.inj (Option.some.inj hop)).2 ▸ rfl
  | type key => exact (Prod.mk.inj (Option.some.inj hop)).2 ▸ rfl
  | pttl key => exact (Prod.mk.inj (Option.some.inj hop)).2 ▸ rfl
  | keys => exact nomatch hop
  | dbSize => exact nomatch hop
  | watch client key => exact nomatch hop
  | unwatch client => exact nomatch hop
  | set key val cond ttl get => simp_all [keyOp?, isWriteOn]
  | del key => simp_all [keyOp?, isWriteOn]
  | expire key time cond => simp_all [keyOp?, isWriteOn]
  | persist key => simp_all [keyOp?, isWriteOn]

/-- A step that does not write the key keeps an entry that has not gone after it, unless the active
cycle removes it. -/
theorem entryNext_eq_some_iff (hquiet : isWriteOn k s = false) {cfg : Config} {now : Ms}
    {old : Option Entry} {e : Entry}
    (hgone : ∀ d, s = .clockTick d → e.gone (wrapI64 (now + d)) = false) :
    Store.entryNext cfg now k old s = some e ↔ old = some e ∧
      (s = .activeExpire → cfg.sweeps = true → e.expireAt = noExpire ∨ now < e.expireAt) := by
  cases s with
  | clockTick d =>
    show alive (wrapI64 (now + d)) old = some e ↔ _
    rw [alive, Option.filter_eq_some_iff, hgone d rfl]
    simp
  | activeExpire =>
    show (if cfg.sweeps then old.filter fun e ↦ !e.due now else old) = some e ↔ _
    cases cfg.sweeps with
    | false => simp
    | true =>
      rw [if_pos rfl, Option.filter_eq_some_iff, Bool.not_eq_true', due_eq_false_iff]
      simp
  | cmd c command =>
    have hkept : Store.entryNext cfg now k old (.cmd c command : Step K C) = old := by
      unfold Store.entryNext
      cases hop : keyOp? command with
      | none => simp only [hop]
      | some target =>
        obtain ⟨k', op⟩ := target
        simp only [hop]
        split_ifs with hk
        · subst hk
          exact KeyOp.entryAfter_of_not_writes (not_writes_of_keyOp c hop hquiet) cfg now old
        · rfl
    rw [hkept]
    simp

/-- A key that a run does not write keeps its entry if and only if the entry outlives the run. -/
theorem entries_run_iff (hhides : (config w).hides = true) (hruns : Runs w schedule)
    (hquiet : ∀ s ∈ schedule, isWriteOn k s = false) (e : Entry) :
    (logical (runSchedule w schedule)).entries k = some e ↔
      (logical w).entries k = some e ∧ Outlives w schedule e.expireAt := by
  induction schedule generalizing w with
  | nil =>
    rw [outlives_nil]
    refine (and_iff_left_of_imp fun hentry ↦ ?_).symm
    exact gone_eq_false_iff.mp ((entry_eq_some hhides).mp hentry).2.2
  | cons s rest ih =>
    rw [List.forall_mem_cons] at hquiet
    have hrest := ih (w := w.next s) ((next_config w s).symm ▸ hhides) hruns.2 hquiet.2
    show (logical (runSchedule (w.next s) rest)).entries k = some e ↔ _
    rw [hrest, outlives_cons, entry_next hhides hruns.1, and_comm, and_left_comm]
    refine and_congr_right fun houtlives ↦ ?_
    refine entryNext_eq_some_iff hquiet.1 fun d hs ↦ ?_
    have hgone := not_gone_of_outlives hruns.2 houtlives
    rw [hs] at hgone
    exact hgone

/-- A run that does not write a key shows it as it was if the key outlives the run, and does not
show it otherwise. -/
theorem lifetime_exact (hhides : (config w).hides = true) (hruns : Runs w schedule)
    (hquiet : ∀ s ∈ schedule, isWriteOn k s = false) (x : VType × Str × Ms) :
    (runSchedule w schedule).snapshotVisible k = some x ↔
      w.snapshotVisible k = some x ∧ Outlives w schedule x.2.2 := by
  have hlast : (config (runSchedule w schedule)).hides = true := by
    rw [runSchedule_config]
    exact hhides
  rw [snapshotVisible_eq hhides, snapshotVisible_eq hlast, Option.map_eq_some_iff,
    Option.map_eq_some_iff]
  constructor
  · rintro ⟨e, hentry, rfl⟩
    obtain ⟨hbefore, houtlives⟩ := (entries_run_iff hhides hruns hquiet e).mp hentry
    exact ⟨⟨e, hbefore, rfl⟩, houtlives⟩
  · rintro ⟨⟨e, hbefore, rfl⟩, houtlives⟩
    exact ⟨e, (entries_run_iff hhides hruns hquiet e).mpr ⟨hbefore, houtlives⟩, rfl⟩

end Steps

/-- A key is read while the clock reads its time, and then the active cycle runs. -/
theorem lifetime_exact_swept :
    let cfg : Config := ⟨.master, .normal, false, false, false, true⟩
    let w : World keyCount clientCount :=
      (emptyWith cfg 5).setSlot 0 ⟨true, .str Str.empty, 10⟩
    let schedule : List (Step keyCount clientCount) :=
      [.cmd 1 (.get 0), .clockTick 5, .cmd 1 (.del 1), .cmd 1 (.get 0), .activeExpire]
    (runSchedule w schedule).snapshotVisible 0 = some (.str, Str.empty, 10) ↔
      w.snapshotVisible 0 = some (.str, Str.empty, 10) ∧ Outlives w schedule 10 := by
  intro cfg w schedule
  have hruns : Runs w schedule := by decide
  have hquiet : ∀ s ∈ schedule, isWriteOn 0 s = false := by decide
  exact lifetime_exact rfl hruns hquiet (.str, Str.empty, 10)

end RedisCvlr.Visibility
