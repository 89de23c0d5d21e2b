import RedisCvlr.Keyspace.Logical

/-!
# Expired and deleted keys do not come back

Only a SET on a key makes an entry of the logical store appear. Every other step keeps the value of
an entry or removes the entry (`Fades`), and its time changes only at an EXPIRE or PERSIST of the
key that replies 1. The stale slot of an expired key may stay physically present all along; a SET
with KEEPTTL that overwrites it takes nothing over from it.
-/

set_option autoImplicit false
set_option relaxedAutoImplicit false

namespace RedisCvlr.Visibility

open RedisCvlr.Library RedisCvlr.Model RedisCvlr.Keyspace

variable {K C : ℕ}

/-! ### Steps about a key -/

/-- A SET on the key. -/
def isSetOn (k : Fin K) : Step K C → Bool
  | .cmd _ (.set key _ _ _ _) => key == k
  | .cmd _ _ => false
  | .activeExpire => false
  | .clockTick _ => false

/-- An EXPIRE or a PERSIST on the key. -/
def isRetimingOf (k : Fin K) : Step K C → Bool
  | .cmd _ (.expire key _ _) => key == k
  | .cmd _ (.persist key) => key == k
  | .cmd _ _ => false
  | .activeExpire => false
  | .clockTick _ => false

/-! ### Fading entries -/

/-- An entry is lost, or it keeps its value. -/
def Fades (old new : Option Entry) : Prop :=
  ∀ e', new = some e' → ∃ e, old = some e ∧ e.value = e'.value

theorem Fades.refl (entry : Option Entry) : Fades entry entry := fun e he ↦ ⟨e, he, rfl⟩

theorem Fades.trans {first second third : Option Entry} (hfirst : Fades first second)
    (hsecond : Fades second third) : Fades first third := by
  intro e'' he''
  obtain ⟨e', he', hvalue'⟩ := hsecond e'' he''
  obtain ⟨e, he, hvalue⟩ := hfirst e' he'
  exact ⟨e, he, hvalue.trans hvalue'⟩

theorem Fades.eq_none {old new : Option Entry} (hfades : Fades old new) (hold : old = none) :
    new = none := by
  rw [Option.eq_none_iff_forall_ne_some]
  intro e' he'
  obtain ⟨e, he, -⟩ := hfades e' he'
  rw [hold] at he
  exact nomatch he

theorem Fades.value_eq {old new : Option Entry} (hfades : Fades old new) {e e' : Entry}
    (hold : old = some e) (hnew : new = some e') : e'.value = e.value := by
  obtain ⟨before, hbefore, hvalue⟩ := hfades e' hnew
  rw [hold] at hbefore
  obtain rfl := Option.some.inj hbefore
  exact hvalue.symm

theorem fades_none (old : Option Entry) : Fades old none := fun _ he ↦ nomatch he

theorem fades_filter (old : Option Entry) (p : Entry → Bool) : Fades old (old.filter p) := by
  intro e he
  exact ⟨e, Option.eq_some_of_filter_eq_some he, rfl⟩

section Operations

variable (cfg : Config) (now : Ms) (old : Option Entry)

theorem fades_entryAfter {op : KeyOp}
    (hset : ∀ val cond ttl getOld, op ≠ .set val cond ttl getOld) :
    Fades old (op.entryAfter cfg now old) := by
  cases op with
  | set val cond ttl getOld => exact (hset val cond ttl getOld rfl).elim
  | get => exact Fades.refl old
  | existsKey => exact Fades.refl old
  | type => exact Fades.refl old
  | pttl => exact Fades.refl old
  | del => exact fades_none old
  | expire time cond =>
    cases old with
    | none => exact fades_none none
    | some e =>
      simp only [KeyOp.entryAfter]
      split_ifs
      · exact Fades.refl _
      · exact fades_none _
      · refine Fades.trans ?_ (fades_filter _ _)
        intro e' he'
        obtain rfl := Option.some.inj he'
        exact ⟨e, rfl, rfl⟩
  | persist =>
    intro e' he'
    obtain ⟨e, he, rfl⟩ := Option.map_eq_some_iff.mp he'
    exact ⟨e, he, rfl⟩

/-- The time of an entry changes only at an EXPIRE or PERSIST that replies 1. -/
theorem expireAt_entryAfter {op : KeyOp}
    (hset : ∀ val cond ttl getOld, op ≠ .set val cond ttl getOld) {e e' : Entry}
    (hnew : op.entryAfter cfg now (some e) = some e')
    (hchanged : e'.expireAt ≠ e.expireAt) :
    ((∃ time cond, op = .expire time cond) ∨ op = .persist) ∧
      (op.entryReply now (some e) : Reply K) = .int 1 := by
  cases op with
  | set val cond ttl getOld => exact (hset val cond ttl getOld rfl).elim
  | get => exact absurd (congrArg Entry.expireAt (Option.some.inj hnew)).symm hchanged
  | existsKey => exact absurd (congrArg Entry.expireAt (Option.some.inj hnew)).symm hchanged
  | type => exact absurd (congrArg Entry.expireAt (Option.some.inj hnew)).symm hchanged
  | pttl => exact absurd (congrArg Entry.expireAt (Option.some.inj hnew)).symm hchanged
  | del => exact nomatch hnew
  | expire time cond =>
    refine ⟨.inl ⟨time, cond, rfl⟩, ?_⟩
    simp only [KeyOp.entryAfter] at hnew
    cases hfails : expireCondFails cond e.expireAt time with
    | true =>
      rw [hfails, if_pos rfl] at hnew
      exact absurd (congrArg Entry.expireAt (Option.some.inj hnew)).symm hchanged
    | false => simp [KeyOp.entryReply, hfails]
  | persist =>
    refine ⟨.inr rfl, ?_⟩
    obtain rfl := Option.some.inj hnew
    have httl : e.hasTtl = true := bne_iff_ne.mpr (Ne.symm hchanged)
    simp [KeyOp.entryReply, httl]

end Operations

/-! ### One step -/

section Steps

variable {k : Fin K} {s : Step K C}

theorem keyOp_eq_set {command : Cmd K C} {val : Str} {cond : SetCond} {ttl : TtlArg}
    {getOld : Bool} (hop : keyOp? command = some (k, .set val cond ttl getOld)) :
    command = .set k val cond ttl getOld := by
  cases command <;> simp_all [keyOp?]

theorem not_set_of_keyOp {c : Fin C} {command : Cmd K C} (hset : isSetOn k (.cmd c command) = false)
    {op : KeyOp} (hop : keyOp? command = some (k, op)) (val : Str) (cond : SetCond) (ttl : TtlArg)
    (getOld : Bool) : op ≠ .set val cond ttl getOld := by
  rintro rfl
  rw [keyOp_eq_set hop] at hset
  simp [isSetOn] at hset

theorem isRetimingOf_of_keyOp (c : Fin C) {command : Cmd K C} {op : KeyOp}
    (hop : keyOp? command = some (k, op))
    (hretimes : (∃ time cond, op = .expire time cond) ∨ op = .persist) :
    isRetimingOf k (.cmd c command) = true := by
  rcases hretimes with ⟨time, cond, rfl⟩ | rfl <;>
    cases command <;> simp_all [keyOp?, isRetimingOf]

/-- A step that is no SET on the key lets its entry fade. -/
theorem fades_entryNext (cfg : Config) (now : Ms) (old : Option Entry)
    (hset : isSetOn k s = false) : Fades old (Store.entryNext cfg now k old s) := by
  unfold Store.entryNext
  cases s with
  | clockTick d => exact fades_filter old _
  | activeExpire =>
    show Fades old (if cfg.sweeps then _ else old)
    split_ifs
    · exact fades_filter old _
    · exact Fades.refl old
  | cmd c command =>
    cases hop : keyOp? command with
    | none =>
      simp only [hop]
      exact Fades.refl old
    | some target =>
      obtain ⟨k', op⟩ := target
      simp only [hop]
      split_ifs with hk
      · subst hk
        exact fades_entryAfter cfg now old (not_set_of_keyOp hset hop)
      · exact Fades.refl old

theorem expireAt_next {w : World K C} (hhides : (config w).hides = true) (hadmits : Admits w s)
    (hset : isSetOn k s = false) {e e' : Entry} (hold : (logical w).entries k = some e)
    (hnew : (logical (w.next s)).entries k = some e') (hchanged : e'.expireAt ≠ e.expireAt) :
    isRetimingOf k s = true ∧ (step w s).2 = some (.int 1) := by
  rw [entry_next hhides hadmits, hold] at hnew
  have hkept : ∀ p : Entry → Bool, (some e).filter p ≠ some e' := by
    intro p hfilter
    obtain rfl := Option.some.inj (Option.eq_some_of_filter_eq_some hfilter)
    exact hchanged rfl
  unfold Store.entryNext at hnew
  cases s with
  | clockTick d => exact (hkept _ hnew).elim
  | activeExpire =>
    have hswept : (if (config w).sweeps then (some e).filter fun e ↦ !e.due w.clock else some e) =
        some e' := hnew
    split_ifs at hswept
    · exact (hkept _ hswept).elim
    · exact absurd (congrArg Entry.expireAt (Option.some.inj hswept)).symm hchanged
  | cmd c command =>
    cases hop : keyOp? command with
    | none =>
      simp only [hop] at hnew
      exact absurd (congrArg Entry.expireAt (Option.some.inj hnew)).symm hchanged
    | some target =>
      obtain ⟨k', op⟩ := target
      simp only [hop] at hnew
      split_ifs at hnew with hk
      · subst hk
        obtain ⟨hretimes, hreply⟩ :=
          expireAt_entryAfter (K := K) _ _ (not_set_of_keyOp hset hop) hnew hchanged
        rw [step_of_keyOp w c hop, reply_eq_entryReply]
        refine ⟨isRetimingOf_of_keyOp c hop hretimes, ?_⟩
        show some (op.entryReply w.clock ((logical w).entries k')) = _
        rw [hold, hreply]
      · exact absurd (congrArg Entry.expireAt (Option.some.inj hnew)).symm hchanged

/-- What is found after a run without a SET on the key was found before it, with the same value. -/
theorem fades_run {w : World K C} (hhides : (config w).hides = true) {schedule : List (Step K C)}
    (hruns : Runs w schedule) (hset : ∀ s ∈ schedule, isSetOn k s = false) :
    Fades ((logical w).entries k) ((logical (runSchedule w schedule)).entries k) := by
  induction schedule generalizing w with
  | nil => exact Fades.refl _
  | cons s rest ih =>
    have hstep : Fades ((logical w).entries k) ((logical (w.next s)).entries k) := by
      rw [entry_next hhides hruns.1]
      exact fades_entryNext _ _ _ (hset s List.mem_cons_self)
    refine hstep.trans (ih ?_ hruns.2 fun s' hs' ↦ hset s' (List.mem_cons_of_mem s hs'))
    rw [next_config]
    exact hhides

end Steps

/-! ### A SET with KEEPTTL over an expired key -/

/-- A SET with KEEPTTL that writes a key which the caller does not find installs no time. -/
theorem slot_set_keep {w : World K C} {k : Fin K} (c : Fin C) (val : Str) (cond : SetCond)
    (getOld : Bool) (hhidden : (config w).sees w.clock (w.slots k) = false)
    {expireAt : Ms} {written : Str}
    (hwrites : .put written expireAt ∈
      editsOn k (stepEdits w (.cmd c (.set k val cond .keep getOld)))) :
    (w.next (.cmd c (.set k val cond .keep getOld))).slots k = ⟨true, .str val, noExpire⟩ := by
  have hedits : editsOn k (stepEdits w (.cmd c (.set k val cond .keep getOld))) =
      (KeyOp.set val cond .keep getOld).edits (config w) w.clock (w.slots k) := by
    show editsOn k (opEdits w k _) = _
    rw [editsOn_opEdits, if_pos rfl]
  have hwrite : (KeyOp.set val cond .keep getOld).write? (config w) w.clock (w.slots k) =
      if setAllowed cond false then some (.put val noExpire) else none := by
    simp only [KeyOp.write?, hhidden]
    rfl
  rw [hedits] at hwrites
  rw [next_slots, hedits, foldl_edits]
  unfold KeyOp.edits at hwrites
  by_cases hallowed : setAllowed cond false = true
  · rw [hwrite, if_pos hallowed]
    rfl
  · rw [hwrite, if_neg hallowed] at hwrites
    split_ifs at hwrites <;> simp at hwrites

/-- A key that the snapshot does not show is not found by the caller. -/
theorem sees_of_snapshotVisible {w : World K C} {k : Fin K} (hhides : (config w).hides = true)
    (hhidden : w.snapshotVisible k = none) : (config w).sees w.clock (w.slots k) = false := by
  rw [snapshotVisible_eq hhides, Option.map_eq_none_iff] at hhidden
  rw [← isSome_entry]
  exact Option.isSome_eq_false_iff.mpr (Option.isNone_iff_eq_none.mpr hhidden)

/-- What the snapshot shows is an entry of the logical store. -/
theorem exists_entry {w : World K C} {k : Fin K} (hhides : (config w).hides = true)
    {type : VType} {val : Str} {time : Ms} (hseen : w.snapshotVisible k = some (type, val, time)) :
    ∃ e, (logical w).entries k = some e ∧ e.value = .str val ∧ e.expireAt = time ∧
      e.value.vtype = type := by
  rw [snapshotVisible_eq hhides, Option.map_eq_some_iff] at hseen
  obtain ⟨⟨⟨s⟩, expireAt⟩, hentry, hsnapshot⟩ := hseen
  obtain ⟨rfl, rfl, rfl⟩ : VType.str = type ∧ s = val ∧ expireAt = time := by
    simpa [Entry.snapshot] using hsnapshot
  exact ⟨_, hentry, rfl, rfl, rfl⟩

/-! ### Whole runs -/

/-- Along a run without a SET on a key: the key does not become visible when it was not; while it is
visible its value stays, and its time changes only at an EXPIRE or PERSIST of the key that replies
1; and a SET with KEEPTTL that then writes the key while it is not visible installs no time. -/
theorem no_resurrection (w : World keyCount clientCount) (hhides : (config w).hides = true)
    (k : Fin keyCount) (schedule : List (Step keyCount clientCount)) (hruns : Runs w schedule)
    (hset : ∀ s ∈ schedule, isSetOn k s = false) :
    (w.snapshotVisible k = none → (runSchedule w schedule).snapshotVisible k = none) ∧
    (∀ type val time type' val' time',
      w.snapshotVisible k = some (type, val, time) →
      (runSchedule w schedule).snapshotVisible k = some (type', val', time') →
        type' = type ∧ val' = val) ∧
    (∀ before s after, schedule = before ++ s :: after → ∀ type val time type' val' time',
      (runSchedule w before).snapshotVisible k = some (type, val, time) →
      ((runSchedule w before).next s).snapshotVisible k = some (type', val', time') →
      time' ≠ time → isRetimingOf k s = true ∧ (step (runSchedule w before) s).2 = some (.int 1)) ∧
    (∀ c val cond getOld,
      (runSchedule w schedule).snapshotVisible k = none →
      (∃ written time, .set k written time ∈
        emitted (runSchedule w schedule) (.cmd c (.set k val cond .keep getOld))) →
      ((runSchedule w schedule).next (.cmd c (.set k val cond .keep getOld))).slots k =
        ⟨true, .str val, noExpire⟩) := by
  have hend : (config (runSchedule w schedule)).hides = true := by
    rw [runSchedule_config]
    exact hhides
  have hfades := fades_run (k := k) hhides hruns hset
  refine ⟨fun hnone ↦ ?_, ?_, ?_, fun c val cond getOld hnone hwrites ↦ ?_⟩
  · rw [snapshotVisible_eq hhides, Option.map_eq_none_iff] at hnone
    rw [snapshotVisible_eq hend, Option.map_eq_none_iff]
    exact hfades.eq_none hnone
  · intro type val time type' val' time' hold hnew
    obtain ⟨e, he, hval, -, htype⟩ := exists_entry hhides hold
    obtain ⟨e', he', hval', -, htype'⟩ := exists_entry hend hnew
    have hvalue := hfades.value_eq he he'
    refine ⟨?_, ?_⟩
    · rw [← htype', ← htype, hvalue]
    · rw [hval, hval'] at hvalue
      exact Value.str.inj hvalue
  · intro before s after hschedule type val time type' val' time' hold hnew hchanged
    subst hschedule
    obtain ⟨hbefore, hstep, -⟩ := Machine.admissible_append.mp hruns
    have hmid : (config (runSchedule w before)).hides = true := by
      rw [runSchedule_config]
      exact hhides
    have hafter : (config ((runSchedule w before).next s)).hides = true := by
      rw [next_config]
      exact hmid
    obtain ⟨e, he, -, htime, -⟩ := exists_entry hmid hold
    obtain ⟨e', he', -, htime', -⟩ := exists_entry hafter hnew
    rw [← htime, ← htime'] at hchanged
    exact expireAt_next hmid hstep (hset s (by simp)) he he' hchanged
  · obtain ⟨written, time, hmem⟩ := hwrites
    rw [set_mem_emitted_iff _ _ (by decide)] at hmem
    exact slot_set_keep c val cond getOld (sees_of_snapshotVisible hend hnone) hmem

/-- A paused server, which hides a key that expired at time 3 and keeps its slot. -/
def stalePaused : World keyCount clientCount :=
  { (World.empty 5).setSlot 0 ⟨true, .str Str.empty, 3⟩ with expirePaused := true }

theorem no_resurrection_paused :
    (runSchedule stalePaused [.cmd 0 (.expire 0 9 .none), .cmd 1 (.persist 0)]).snapshotVisible 0 =
        none ∧
      ((runSchedule stalePaused [.cmd 0 (.expire 0 9 .none), .cmd 1 (.persist 0)]).next
        (.cmd 0 (.set 0 Str.empty .always .keep false))).slots 0 =
          ⟨true, .str Str.empty, noExpire⟩ :=
  have hrun := no_resurrection stalePaused (by decide) 0
    [.cmd 0 (.expire 0 9 .none), .cmd 1 (.persist 0)] (by decide) (by decide)
  ⟨hrun.1 (by decide), hrun.2.2.2 0 Str.empty .always false (by decide)
    ⟨Str.empty, noExpire, by decide⟩⟩

end RedisCvlr.Visibility
