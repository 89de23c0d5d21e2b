import RedisCvlr.Specs.DrawnRuns

/-!
# The ranges of the draws

What `nondet_world` and `draw_step` can draw, exactly. `Exactly P program` says that the program
returns the values with the property `P` and no others, and that it draws each of them from some
beginning of a stream, whatever comes after. So draws can be put one behind the other:
`drawn_runs_iff` describes the worlds and the schedules that one stream can give together.
-/

set_option autoImplicit false
set_option relaxedAutoImplicit false

namespace RedisCvlr.Specs

open RedisCvlr.Library RedisCvlr.Model

variable {K C : ℕ}

/-! ### The draws of the source -/

section Draws

theorem exactly_nondet : Exactly (fun _ ↦ True) nondet := exactly_draw

theorem exactly_nondetRange {n : UInt64} (hpos : 0 < n) :
    Exactly (fun x ↦ x < n) (nondetRange n) := by
  refine exactly_congr (exactly_map (· % n) exactly_nondet) fun x ↦ ⟨?_, fun hlt ↦ ?_⟩
  · rintro ⟨y, -, rfl⟩
    exact UInt64.mod_lt y hpos
  · exact ⟨x, trivial, (UInt64.mod_eq_of_lt hlt).symm⟩

/-- A drawn index below a bound that a `u64` can hold. -/
theorem exactly_index {n : ℕ} [NeZero n] (hn : n ≤ UInt64.size) :
    Exactly (fun _ ↦ True) (nondet >>= fun x ↦ pure (Fin.ofNat n x.toNat)) := by
  refine exactly_congr (exactly_map _ exactly_nondet) fun i ↦ ⟨fun _ ↦ trivial, fun _ ↦ ?_⟩
  refine ⟨UInt64.ofNat i.val, trivial, Fin.ext ?_⟩
  rw [Fin.val_ofNat, UInt64.toNat_ofNat_of_lt' (lt_of_lt_of_le i.isLt hn), Nat.mod_eq_of_lt i.isLt]

theorem exactly_drawBool : Exactly (fun _ ↦ True) drawBool := by
  refine exactly_congr (exactly_map _ exactly_nondet) fun b ↦ ⟨fun _ ↦ trivial, fun _ ↦ ?_⟩
  cases b with
  | true => exact ⟨0, trivial, rfl⟩
  | false => exact ⟨1, trivial, rfl⟩

theorem exactly_drawStr : Exactly (fun val ↦ ∃ id, val = drawnStr id) drawStr := by
  rw [drawStr_eq]
  refine exactly_congr (exactly_map _ exactly_nondet) fun val ↦ ⟨?_, ?_⟩
  · rintro ⟨x, -, rfl⟩
    exact ⟨_, rfl⟩
  · rintro ⟨id, rfl⟩
    have hid : ∀ id : Fin 4, id.val = (UInt64.ofNat id.val % 4).toNat := by decide
    exact ⟨UInt64.ofNat id.val, trivial, congrArg drawnStr (Fin.ext (hid id))⟩

/-- A time below a bound is a drawn number. -/
theorem exists_asMs {n : UInt64} {time : Ms} (h : 0 ≤ time ∧ time < n.toNat) :
    ∃ x, x < n ∧ time = asMs x := by
  obtain ⟨hnonneg, hlt⟩ := h
  obtain ⟨t, rfl⟩ := Int.eq_ofNat_of_zero_le hnonneg
  have ht : t < n.toNat := Int.ofNat_lt.mp hlt
  have hval : (UInt64.ofNat t).toNat = t := UInt64.toNat_ofNat_of_lt' (lt_trans ht n.toNat_lt)
  refine ⟨UInt64.ofNat t, ?_, congrArg Int.ofNat hval.symm⟩
  rw [UInt64.lt_iff_toNat_lt, hval]
  exact ht

/-- A drawn time below a bound. -/
theorem exactly_time {n : UInt64} (hpos : 0 < n) :
    Exactly (fun time : Ms ↦ 0 ≤ time ∧ time < n.toNat)
      (nondetRange n >>= fun x ↦ pure (asMs x)) := by
  refine exactly_congr (exactly_map _ (exactly_nondetRange hpos)) fun time ↦ ⟨?_, exists_asMs⟩
  rintro ⟨x, hlt, rfl⟩
  exact ⟨Int.natCast_nonneg _, Int.ofNat_lt.mpr hlt⟩

theorem exactly_drawClock :
    Exactly (fun clock ↦ 0 ≤ clock ∧ clock < 1000000) drawClock :=
  exactly_time (n := 1000000) (by decide)

theorem exactly_drawExpireAt :
    Exactly (fun time ↦ time = noExpire ∨ InRange time) drawExpireAt where
  sound := draws_drawExpireAt
  complete time htime := by
    rcases htime with rfl | hrange
    · exact produces_bind (exactly_drawBool.complete true trivial) (produces_pure _)
    · exact produces_bind (exactly_drawBool.complete false trivial)
        ((exactly_time (n := 2000000) (by decide)).complete time hrange)

/-- A number below the bound can be drawn. -/
theorem produces_range {n x : UInt64} (hlt : x < n) : Produces (nondetRange n) x :=
  (exactly_nondetRange (UInt64.lt_of_le_of_lt (UInt64.zero_le ..) hlt)).complete x hlt

theorem exactly_drawSetCond : Exactly (fun _ ↦ True) drawSetCond where
  sound := draws_drawSetCond
  complete cond _ := by
    cases cond with
    | always => exact produces_bind (produces_range (x := 0) (by decide)) (produces_pure _)
    | nx => exact produces_bind (produces_range (x := 1) (by decide)) (produces_pure _)
    | xx => exact produces_bind (produces_range (x := 2) (by decide)) (produces_pure _)

theorem exactly_drawExpireCond : Exactly (fun _ ↦ True) drawExpireCond where
  sound := draws_drawExpireCond
  complete cond _ := by
    cases cond with
    | none => exact produces_bind (produces_range (x := 0) (by decide)) (produces_pure _)
    | nx => exact produces_bind (produces_range (x := 1) (by decide)) (produces_pure _)
    | xx => exact produces_bind (produces_range (x := 2) (by decide)) (produces_pure _)
    | gt => exact produces_bind (produces_range (x := 3) (by decide)) (produces_pure _)
    | lt => exact produces_bind (produces_range (x := 4) (by decide)) (produces_pure _)

/-- A TTL argument in the range of `drawTtlArg`. -/
def TtlInRange (ttl : TtlArg) : Prop := ∀ time, ttl = .pxAt time → InRange time

theorem exactly_drawTtlArg : Exactly TtlInRange drawTtlArg where
  sound := draws_drawTtl
  complete ttl hrange := by
    cases ttl with
    | none => exact produces_bind (produces_range (x := 0) (by decide)) (produces_pure _)
    | keep => exact produces_bind (produces_range (x := 1) (by decide)) (produces_pure _)
    | pxAt time =>
      have htime := (exactly_time (n := 2000000) (by decide)).complete time (hrange time rfl)
      have hbranch : Produces ((nondetRange 2000000 >>= fun x ↦ pure (asMs x)) >>=
          fun t ↦ pure (TtlArg.pxAt t)) (.pxAt time) := produces_bind htime (produces_pure _)
      exact produces_bind (produces_range (x := 2) (by decide)) hbranch

/-- A slot in the range of `drawSlot`. -/
def SlotInRange (s : Slot) : Prop :=
  s = Slot.absent ∨
    ∃ id time, (time = noExpire ∨ InRange time) ∧ s = ⟨true, .str (drawnStr id), time⟩

theorem exactly_drawSlot : Exactly SlotInRange drawSlot where
  sound := by
    refine draws_bind draws_drawBool fun present _ ↦ ?_
    split_ifs
    · refine draws_bind exactly_drawStr.sound ?_
      rintro _ ⟨id, rfl⟩
      exact draws_bind draws_drawExpireAt fun time htime ↦ draws_pure (.inr ⟨id, time, htime, rfl⟩)
    · exact draws_pure (.inl rfl)
  complete := by
    rintro _ (rfl | ⟨id, time, htime, rfl⟩)
    · exact produces_bind (exactly_drawBool.complete false trivial) (produces_pure _)
    · refine produces_bind (exactly_drawBool.complete true trivial) ?_
      refine produces_bind (exactly_drawStr.complete _ ⟨id, rfl⟩) ?_
      exact produces_bind (exactly_drawExpireAt.complete time htime) (produces_pure _)

/-- Any slots in range can be drawn, one key after the other. -/
theorem produces_drawSlots {slots : Fin K → Slot} (hslots : ∀ k, SlotInRange (slots k))
    (ks : List (Fin K)) (w : World K C) :
    Produces (drawSlots ks w)
      { w with slots := fun k ↦ if k ∈ ks then slots k else w.slots k } := by
  induction ks generalizing w with
  | nil => exact produces_pure w
  | cons k rest ih =>
    refine produces_bind (exactly_drawSlot.complete _ (hslots k)) ?_
    have hrest : (fun k' ↦ if k' ∈ rest then slots k' else (w.setSlot k (slots k)).slots k') =
        fun k' ↦ if k' ∈ k :: rest then slots k' else w.slots k' := by
      funext k'
      by_cases hk : k' = k
      · subst hk
        rw [if_pos List.mem_cons_self]
        exact (ite_eq_left_iff).mpr fun _ ↦ Function.update_self ..
      · simp only [List.mem_cons, hk, false_or]
        exact congrArg (ite _ _) (Function.update_of_ne hk ..)
    have hdrawn := ih (w.setSlot k (slots k))
    rw [hrest] at hdrawn
    exact hdrawn

/-- A world in the range of `World.nondetWorld`: nothing is watched, logged or counted, the flags
are off, the clock is early, and every slot is in range. -/
structure WorldInRange (w : World K C) : Prop where
  frame : ∃ slots role caller,
    w = { World.empty w.clock with slots := slots, role := role, caller := caller }
  clock : 0 ≤ w.clock ∧ w.clock < 1000000
  slots : ∀ k, SlotInRange (w.slots k)

theorem exactly_nondetWorld :
    Exactly WorldInRange (World.nondetWorld : Rule (World K C)) where
  sound := meets_mono (draws_nondetWorld_of exactly_drawSlot.sound (.inl rfl)) fun _ _ h ↦
    ⟨⟨h.1.1, h.1.2.1, h.1.2.2⟩, h.2⟩
  complete w hw := by
    obtain ⟨slots, role, caller, hframe⟩ := hw.frame
    let start : World K C := { World.empty w.clock with role := role, caller := caller }
    have hslots := produces_drawSlots hw.slots (List.finRange K) start
    have hdrawn : (fun k ↦ if k ∈ List.finRange K then w.slots k else start.slots k) = slots :=
      funext fun k ↦
        (if_pos (List.mem_finRange k)).trans (congrFun (congrArg World.slots hframe) k)
    have hend : { start with slots := slots } = w := hframe.symm
    rw [hdrawn, hend] at hslots
    refine produces_bind (exactly_drawClock.complete _ hw.clock) ?_
    refine produces_bind (exactly_drawBool.complete (role == .master) trivial) ?_
    refine produces_bind (exactly_drawBool.complete (caller == .normal) trivial) ?_
    cases role <;> cases caller <;> exact hslots

end Draws

/-! ### Schedules -/

/-- A command in the range of `drawCmd`: never TYPE or UNWATCH, and clients watch for themselves. -/
def CmdInRange (c : Fin C) : Cmd K C → Prop
  | .set _ val _ ttl _ => (∃ id, val = drawnStr id) ∧ TtlInRange ttl
  | .expire _ time _ => InRange time
  | .watch client _ => client = c
  | .type _ => False
  | .unwatch _ => False
  | _ => True

/-- A step in the range of `drawStep`. -/
def StepInRange : Step K C → Prop
  | .activeExpire => True
  | .clockTick d => 0 ≤ d ∧ d < 1000
  | .cmd c command => CmdInRange c command

/-- Steps drawn one after the other. -/
def drawSteps [NeZero K] [NeZero C] : ℕ → Rule (List (Step K C))
  | 0 => return []
  | n + 1 => do
    let s ← drawStep
    let rest ← drawSteps n
    return s :: rest

/-- A world and then steps, drawn from one stream. -/
def drawRun [NeZero K] [NeZero C] (n : ℕ) : Rule (World K C × List (Step K C)) := do
  let w ← World.nondetWorld
  let steps ← drawSteps n
  return (w, steps)

section Schedules

variable [NeZero K]

theorem draws_cmdInRange (c : Fin C) :
    Draws (CmdInRange c) (drawCmd c : Rule (Cmd K C)) := by
  refine draws_bind draws_drawKey fun k _ ↦ draws_bind (draws_nondetRange (by decide)) fun n _ ↦ ?_
  split
  · refine draws_bind exactly_drawStr.sound fun val hval ↦ ?_
    refine draws_bind draws_drawSetCond fun cond _ ↦ draws_bind draws_drawTtl fun ttl httl ↦ ?_
    exact draws_bind draws_drawBool fun get _ ↦ draws_pure ⟨hval, httl⟩
  · exact draws_pure trivial
  · exact draws_pure trivial
  · exact draws_pure trivial
  · refine draws_bind (draws_nondetRange (by decide)) fun time htime ↦ ?_
    refine draws_bind draws_drawExpireCond fun cond _ ↦ draws_pure ?_
    exact ⟨Int.natCast_nonneg _, Int.ofNat_lt.mpr htime⟩
  · exact draws_pure trivial
  · exact draws_pure trivial
  · exact draws_pure trivial
  · exact draws_pure trivial
  · exact draws_pure rfl

theorem exactly_drawCmd (hK : K ≤ UInt64.size) (c : Fin C) :
    Exactly (CmdInRange c) (drawCmd c : Rule (Cmd K C)) where
  sound := draws_cmdInRange c
  complete command hrange := by
    have hkey : ∀ k : Fin K, Produces drawKey k := fun k ↦ (exactly_index hK).complete k trivial
    have hpick : ∀ k (n : UInt64), n < 10 → ∀ {next : Fin K → UInt64 → Rule (Cmd K C)} {command},
        Produces (next k n) command →
          Produces (drawKey >>= fun k ↦ nondetRange 10 >>= next k) command :=
      fun k n hlt _ _ hnext ↦ produces_bind (hkey k) (produces_bind (produces_range hlt) hnext)
    cases command with
    | set k val cond ttl get =>
      refine hpick k 0 (by decide) (produces_bind (exactly_drawStr.complete val hrange.1) ?_)
      refine produces_bind (exactly_drawSetCond.complete cond trivial) ?_
      refine produces_bind (exactly_drawTtlArg.complete ttl hrange.2) ?_
      exact produces_bind (exactly_drawBool.complete get trivial) (produces_pure _)
    | get k => exact hpick k 1 (by decide) (produces_pure _)
    | del k => exact hpick k 2 (by decide) (produces_pure _)
    | existsKey k => exact hpick k 3 (by decide) (produces_pure _)
    | expire k time cond =>
      obtain ⟨x, hlt, rfl⟩ := exists_asMs (n := 2000000) hrange
      refine hpick k 4 (by decide) (produces_bind (produces_range hlt) ?_)
      exact produces_bind (exactly_drawExpireCond.complete cond trivial) (produces_pure _)
    | persist k => exact hpick k 5 (by decide) (produces_pure _)
    | pttl k => exact hpick k 6 (by decide) (produces_pure _)
    | keys => exact hpick 0 7 (by decide) (produces_pure _)
    | dbSize => exact hpick 0 8 (by decide) (produces_pure _)
    | watch client k =>
      obtain rfl : client = c := hrange
      exact hpick k 9 (by decide) (produces_pure _)
    | type k => exact hrange.elim
    | unwatch client => exact hrange.elim

variable [NeZero C]

theorem exactly_drawStep (hK : K ≤ UInt64.size) (hC : C ≤ UInt64.size) :
    Exactly StepInRange (drawStep : Rule (Step K C)) where
  sound := by
    refine draws_bind draws_drawClient fun c _ ↦ ?_
    refine draws_bind (draws_nondetRange (by decide)) fun n _ ↦ ?_
    split
    · exact draws_pure trivial
    · refine draws_bind (draws_nondetRange (by decide)) fun d hd ↦ draws_pure ?_
      exact ⟨Int.natCast_nonneg _, Int.ofNat_lt.mpr hd⟩
    · exact draws_bind (draws_cmdInRange c) fun command hcommand ↦ draws_pure hcommand
  complete s hrange := by
    have hpick : ∀ c (n : UInt64), n < 6 → ∀ {next : Fin C → UInt64 → Rule (Step K C)} {s},
        Produces (next c n) s → Produces (drawClient >>= fun c ↦ nondetRange 6 >>= next c) s :=
      fun c n hlt _ _ hnext ↦ produces_bind ((exactly_index hC).complete c trivial)
        (produces_bind (produces_range hlt) hnext)
    cases s with
    | activeExpire => exact hpick 0 0 (by decide) (produces_pure _)
    | clockTick d =>
      obtain ⟨x, hlt, rfl⟩ := exists_asMs (n := 1000) hrange
      exact hpick 0 1 (by decide) (produces_bind (produces_range hlt) (produces_pure _))
    | cmd c command =>
      refine hpick c 2 (by decide) ?_
      exact produces_bind ((exactly_drawCmd hK c).complete command hrange) (produces_pure _)

/-- Drawn schedules are the schedules of drawn steps, by induction on their length. -/
theorem exactly_drawSteps (hK : K ≤ UInt64.size) (hC : C ≤ UInt64.size) (n : ℕ) :
    Exactly (fun schedule ↦ schedule.length = n ∧ ∀ s ∈ schedule, StepInRange s)
      (drawSteps n : Rule (List (Step K C))) := by
  induction n with
  | zero =>
    refine exactly_congr (exactly_pure []) fun schedule ↦ ?_
    rw [List.length_eq_zero_iff]
    exact ⟨fun h ↦ ⟨h, by simp [h]⟩, And.left⟩
  | succ n ih =>
    refine exactly_congr (exactly_bind (exactly_drawStep hK hC) fun s _ ↦
      exactly_map (s :: ·) ih) fun schedule ↦ ?_
    constructor
    · rintro ⟨s, hs, rest, ⟨hlen, hrest⟩, rfl⟩
      exact ⟨congrArg (· + 1) hlen, List.forall_mem_cons.mpr ⟨hs, hrest⟩⟩
    · rintro ⟨hlen, hsteps⟩
      obtain ⟨s, rest, rfl⟩ := List.exists_cons_of_length_eq_add_one hlen
      rw [List.forall_mem_cons] at hsteps
      exact ⟨s, hsteps.1, rest, ⟨Nat.succ.inj hlen, hsteps.2⟩, rfl⟩

/-- A world and a schedule can be drawn from one stream if and only if the world and each step of
the schedule are in range. -/
theorem drawn_runs_iff (hK : K ≤ UInt64.size) (hC : C ≤ UInt64.size) (w : World K C)
    (schedule : List (Step K C)) :
    (∃ stream, (drawRun schedule.length).value stream = (w, schedule)) ↔
      WorldInRange w ∧ ∀ s ∈ schedule, StepInRange s := by
  have hexact := exactly_bind (exactly_nondetWorld (K := K) (C := C)) fun w _ ↦
    exactly_map (w, ·) (exactly_drawSteps hK hC schedule.length)
  refine (exactly_iff hexact (w, schedule)).symm.trans ?_
  constructor
  · rintro ⟨w', hw, schedule', ⟨-, hsteps⟩, hsame⟩
    obtain ⟨rfl, rfl⟩ := Prod.mk.inj hsame
    exact ⟨hw, hsteps⟩
  · rintro ⟨hw, hsteps⟩
    exact ⟨w, hw, schedule, ⟨rfl, hsteps⟩, rfl⟩

end Schedules

/-- A run of the source with a key that is set, watched and due. -/
theorem drawn_runs_iff_due :
    let w : World keyCount clientCount := World.empty 999999
    let schedule : List (Step keyCount clientCount) :=
      [.cmd 1 (.set 2 (drawnStr 3) .nx (.pxAt 1000000) true), .cmd 0 (.watch 0 2), .clockTick 1,
        .activeExpire]
    (∃ stream, (drawRun 4).value stream = (w, schedule)) ↔
      WorldInRange w ∧ ∀ s ∈ schedule, StepInRange s := by
  intro w schedule
  exact drawn_runs_iff (by decide) (by decide) w schedule

end RedisCvlr.Specs
