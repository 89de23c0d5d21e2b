import RedisCvlr.Library.Projection
import RedisCvlr.Visibility.Unobservable

/-!
# Laws of the commands

Some commands are short for others: a SET with a time is a SET followed by a PEXPIREAT, and so on.
Two schedules are interchangeable when no later run, whatever it does, shows a difference
(`Interchangeable`). On the logical store a law is an equation about one entry, and equal logical
stores cannot be told apart; `command_laws` collects five laws.
-/

set_option autoImplicit false
set_option relaxedAutoImplicit false

namespace RedisCvlr.Visibility

open RedisCvlr.Library RedisCvlr.Library.Machine RedisCvlr.Model RedisCvlr.Keyspace

variable {K C : ℕ}

/-! ### Interchangeable schedules -/

/-- After either of two schedules, started in the same world of a configuration at a time, every
later run shows the same replies, except those of DBSIZE, and the same snapshots. -/
def Interchangeable (cfg : Config) (now : Ms) (first second : List (Step K C)) : Prop :=
  ∀ w : World K C, config w = cfg → w.clock = now → ∀ later,
    Runs (runSchedule w second) later →
      observe World.next observation (runSchedule w first) later =
        observe World.next observation (runSchedule w second) later

/-- Schedules that lead to the same logical store are interchangeable. -/
theorem interchangeable_of_logical {cfg : Config} (hhides : cfg.hides = true) {now : Ms}
    {first second : List (Step K C)}
    (hlogical : ∀ w : World K C, config w = cfg → w.clock = now →
      logical (runSchedule w first) = logical (runSchedule w second)) :
    Interchangeable cfg now first second := by
  intro w hconfig hnow later hruns
  have hfirst := (runSchedule_config w first).trans hconfig
  have hsecond := (runSchedule_config w second).trans hconfig
  have hstep : ∀ (u u' : World K C) (s : Step K C), Admits u s →
      config u' = cfg ∧ Agree u' u → observation u s = observation u' s ∧
        config (u'.next s) = cfg ∧ Agree (u'.next s) (u.next s) := by
    rintro u u' s hadmits ⟨hcfg, hagree⟩
    obtain ⟨hout, hnext⟩ := hagree.next (hcfg.symm ▸ hhides) hadmits
    exact ⟨hout, (next_config u' s).trans hcfg, hnext⟩
  have hagree : Agree (runSchedule w first) (runSchedule w second) := by
    rw [agree_iff (hfirst.symm ▸ hhides)]
    exact ⟨hfirst.trans hsecond.symm, hlogical w hconfig hnow⟩
  obtain ⟨hsame, -⟩ := observe_followed id _ hstep ⟨hfirst, hagree⟩ hruns
  rw [List.map_id] at hsame
  exact hsame.symm

/-! ### Operations on one key of the logical store -/

/-- The logical store after operations on one key. -/
def Store.afterOps (cfg : Config) (k : Fin K) (ops : List KeyOp) (st : Store K) : Store K :=
  { st with
    entries := Function.update st.entries k
      (ops.foldl (fun old op ↦ op.entryAfter cfg st.clock old) (st.entries k)) }

section Operations

variable {cfg : Config} {w : World K C} {k : Fin K} {now : Ms}

/-- A command about a key does its operation on the entry of that key. -/
theorem logical_cmd (hhides : (config w).hides = true) (c : Fin C) {command : Cmd K C} {op : KeyOp}
    (hop : keyOp? command = some (k, op)) :
    logical (w.next (.cmd c command)) = Store.afterOps (config w) k [op] (logical w) := by
  rw [logical_next hhides (by trivial)]
  ext k' : 2
  · rfl
  · simp only [Store.next, Store.entryNext, hop, Store.afterOps, List.foldl_cons, List.foldl_nil]
    by_cases hk : k = k'
    · subst hk
      rw [if_pos rfl, Function.update_self]
    · rw [if_neg hk, Function.update_of_ne (Ne.symm hk)]

theorem afterOps_afterOps (first second : List KeyOp) (st : Store K) :
    Store.afterOps cfg k second (Store.afterOps cfg k first st) =
      Store.afterOps cfg k (first ++ second) st := by
  unfold Store.afterOps
  simp only [Function.update_self, Function.update_idem, List.foldl_append]

/-- Commands about a key do their operations on the entry of that key, one after the other. -/
theorem logical_cmds (hhides : (config w).hides = true) (c : Fin C) {commands : List (Cmd K C)}
    {ops : List KeyOp} (hops : commands.map keyOp? = ops.map fun op ↦ some (k, op)) :
    logical (runSchedule w (commands.map (.cmd c))) =
      Store.afterOps (config w) k ops (logical w) := by
  induction commands generalizing w ops with
  | nil =>
    obtain rfl := List.map_eq_nil_iff.mp hops.symm
    exact (congrArg (Store.mk _) (Function.update_eq_self k _)).symm
  | cons command rest ih =>
    cases ops with
    | nil => exact nomatch hops
    | cons op ops =>
      obtain ⟨hop, hrest⟩ := List.cons.inj hops
      have hconfig := next_config w (.cmd c command)
      show logical (runSchedule (w.next (.cmd c command)) _) = _
      rw [ih (hconfig.symm ▸ hhides) hrest, hconfig, logical_cmd hhides c hop, afterOps_afterOps]
      rfl

/-- Commands about a key that take every visible entry to the same one are interchangeable. -/
theorem interchangeable_of_ops (hhides : cfg.hides = true) (c : Fin C)
    (first second : List (Cmd K C)) (ops ops' : List KeyOp)
    (hfirst : first.map keyOp? = ops.map fun op ↦ some (k, op))
    (hsecond : second.map keyOp? = ops'.map fun op ↦ some (k, op))
    (hentry : ∀ old : Option Entry, (∀ e ∈ old, e.gone now = false) →
      ops.foldl (fun old op ↦ op.entryAfter cfg now old) old =
        ops'.foldl (fun old op ↦ op.entryAfter cfg now old) old) :
    Interchangeable cfg now (first.map (.cmd c)) (second.map (.cmd c) : List (Step K C)) := by
  refine interchangeable_of_logical hhides fun w hconfig hnow ↦ ?_
  subst hconfig
  rw [logical_cmds hhides c hfirst, logical_cmds hhides c hsecond]
  have hseen : ∀ e ∈ (logical w).entries k, e.gone now = false := by
    intro e he
    rw [← hnow]
    exact ((entry_eq_some hhides).mp he).2.2
  have hclock : (logical w).clock = now := hnow
  rw [Store.afterOps, Store.afterOps, hclock, hentry _ hseen]

end Operations

/-! ### The laws on one entry -/

section Entries

variable {cfg : Config} {now : Ms} {old : Option Entry}

theorem alive_of_not_gone {e : Entry} (hgone : e.gone now = false) :
    alive now (some e) = some e :=
  Option.filter_some_pos (by rw [hgone]; rfl)

/-- A SET with a time is a SET and a PEXPIREAT. -/
theorem entryAfter_set_pxAt (val : Str) (time : Ms) (get get' : Bool) :
    (KeyOp.set val .always (.pxAt time) get).entryAfter cfg now old =
      (KeyOp.expire time .none).entryAfter cfg now
        ((KeyOp.set val .always .none get').entryAfter cfg now old) := rfl

/-- A SET without a time is a SET that keeps the time and a PERSIST. -/
theorem entryAfter_set_none (hold : ∀ e ∈ old, e.gone now = false) (val : Str) (get get' : Bool) :
    (KeyOp.set val .always .none get).entryAfter cfg now old =
      KeyOp.persist.entryAfter cfg now
        ((KeyOp.set val .always .keep get').entryAfter cfg now old) := by
  cases old with
  | none => rfl
  | some e =>
    have hgone : Entry.gone now ⟨.str val, e.expireAt⟩ = false := hold e rfl
    have hkept : (KeyOp.set val .always .keep get').entryAfter cfg now (some e) =
        some ⟨.str val, e.expireAt⟩ := alive_of_not_gone hgone
    rw [hkept]
    rfl

/-- A SET that does not keep the time is a DEL and a SET of an absent key. -/
theorem entryAfter_set_del {ttl : TtlArg} (hkeep : ttl ≠ .keep) (val : Str) (get get' : Bool) :
    (KeyOp.set val .always ttl get).entryAfter cfg now old =
      (KeyOp.set val .nx ttl get').entryAfter cfg now (KeyOp.del.entryAfter cfg now old) := by
  cases ttl with
  | keep => exact absurd rfl hkeep
  | none => rfl
  | pxAt time => rfl

theorem elapsed_master (hmaster : cfg.role = .master) (time : Ms) :
    KeyOp.elapsed cfg now time = decide (time ≤ now) := by
  rw [KeyOp.elapsed, hmaster]
  exact Bool.and_true _

/-- A PEXPIREAT with a time that has elapsed is a DEL. -/
theorem entryAfter_expire_elapsed (hmaster : cfg.role = .master) {time : Ms}
    (helapsed : time ≤ now) :
    (KeyOp.expire time .none).entryAfter cfg now old = KeyOp.del.entryAfter cfg now old := by
  cases old with
  | none => rfl
  | some e =>
    simp only [KeyOp.entryAfter, elapsed_master hmaster, decide_eq_true helapsed]
    rfl

/-- The last of two times counts. -/
theorem entryAfter_expire_expire {time : Ms} (hlater : now < time) (time' : Ms) :
    (KeyOp.expire time' .none).entryAfter cfg now
        ((KeyOp.expire time .none).entryAfter cfg now old) =
      (KeyOp.expire time' .none).entryAfter cfg now old := by
  cases old with
  | none => rfl
  | some e =>
    have hstays : KeyOp.elapsed cfg now time = false := by
      rw [KeyOp.elapsed, decide_eq_false (not_le.mpr hlater), Bool.false_and]
    have hgone : Entry.gone now { e with expireAt := time } = false := by
      rw [Entry.gone, decide_eq_false (not_lt.mpr hlater.le), Bool.and_false]
    have hfirst : (KeyOp.expire time .none).entryAfter cfg now (some e) =
        some { e with expireAt := time } := by
      simp only [KeyOp.entryAfter, hstays]
      exact alive_of_not_gone hgone
    rw [hfirst]
    rfl

end Entries

/-! ### The laws in every context -/

section Laws

variable {cfg : Config} (k : Fin K) (c : Fin C)

/-- Under a configuration that hides expired keys from the caller, on a master: a SET with a time is
a SET and a PEXPIREAT, a SET without a time is one that keeps the time and a PERSIST, any other SET
is a DEL and a SET of an absent key, a PEXPIREAT in the past is a DEL, and of two times the last one
counts. No later run tells the two sides of a law apart. -/
theorem command_laws (hhides : cfg.hides = true) (hmaster : cfg.role = .master) (now : Ms)
    (val : Str) (time time' : Ms) (ttl : TtlArg) :
    Interchangeable cfg now [.cmd c (.set k val .always (.pxAt time) false)]
        [.cmd c (.set k val .always .none false), .cmd c (.expire k time .none)] ∧
      Interchangeable cfg now [.cmd c (.set k val .always .none false)]
        [.cmd c (.set k val .always .keep false), .cmd c (.persist k)] ∧
      (ttl ≠ .keep → Interchangeable cfg now [.cmd c (.set k val .always ttl false)]
        [.cmd c (.del k), .cmd c (.set k val .nx ttl false)]) ∧
      (time ≤ now → Interchangeable cfg now [.cmd c (.expire k time .none)] [.cmd c (.del k)]) ∧
      (now < time → Interchangeable cfg now
        [.cmd c (.expire k time .none), .cmd c (.expire k time' .none)]
        [.cmd c (.expire k time' .none)]) := by
  refine ⟨?_, ?_, fun hkeep ↦ ?_, fun helapsed ↦ ?_, fun hlater ↦ ?_⟩
  · exact interchangeable_of_ops hhides c [.set k val .always (.pxAt time) false]
      [.set k val .always .none false, .expire k time .none]
      [.set val .always (.pxAt time) false] [.set val .always .none false, .expire time .none]
      rfl rfl fun _ _ ↦ entryAfter_set_pxAt val time false false
  · exact interchangeable_of_ops hhides c [.set k val .always .none false]
      [.set k val .always .keep false, .persist k]
      [.set val .always .none false] [.set val .always .keep false, .persist]
      rfl rfl fun _ hold ↦ entryAfter_set_none hold val false false
  · exact interchangeable_of_ops hhides c [.set k val .always ttl false]
      [.del k, .set k val .nx ttl false] [.set val .always ttl false]
      [.del, .set val .nx ttl false] rfl rfl fun _ _ ↦ entryAfter_set_del hkeep val false false
  · exact interchangeable_of_ops hhides c [.expire k time .none] [.del k] [.expire time .none]
      [.del] rfl rfl fun _ _ ↦ entryAfter_expire_elapsed hmaster helapsed
  · exact interchangeable_of_ops hhides c [.expire k time .none, .expire k time' .none]
      [.expire k time' .none] [.expire time .none, .expire time' .none] [.expire time' .none]
      rfl rfl fun _ _ ↦ entryAfter_expire_expire hlater time'

end Laws

/-- Two laws on a master that has paused expiry. -/
theorem command_laws_paused :
    let cfg : Config := ⟨.master, .normal, false, true, false, false⟩
    let first : List (Step keyCount clientCount) := [.cmd 1 (.expire 0 10 .none)]
    let second : List (Step keyCount clientCount) :=
      [.cmd 1 (.set 0 Str.empty .always .none false)]
    Interchangeable cfg 10 first [.cmd 1 (.del 0)] ∧
      Interchangeable cfg 10 second
        [.cmd 1 (.del 0), .cmd 1 (.set 0 Str.empty .nx .none false)] := by
  intro cfg first second
  have hhides : cfg.hides = true := rfl
  have hlaws := command_laws (0 : Fin keyCount) (1 : Fin clientCount) hhides rfl 10 Str.empty 10 20
    .none
  exact ⟨hlaws.2.2.2.1 (by decide), hlaws.2.2.1 (by decide)⟩

end RedisCvlr.Visibility
