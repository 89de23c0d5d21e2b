import Mathlib.Data.Stream.Init
import Mathlib.Logic.Function.Iterate
import RedisCvlr.Driver.Concrete
import RedisCvlr.Library.XorShift

/-!
# Seeds and streams

`begin` sets the lowest bit of its seed, so that the generator does not start at zero. The generator
itself loses nothing: its steps and the final multiplication are injective, and it does not come
back to zero. So two seeds that differ in a higher bit give streams that differ at every draw, and
two seeds that differ in the lowest bit only give the same stream (`streams_differ_iff`).
-/

set_option autoImplicit false
set_option relaxedAutoImplicit false

namespace RedisCvlr.Driver

open RedisCvlr.Library

/-! ### The generator -/

section Generator

theorem xorShifts_injective : Function.Injective xorShifts := by
  intro x y hxy
  rw [← UInt64.toBitVec_inj] at hxy ⊢
  have hlast := xorShiftRight_injective (show 0 < 27 by decide) hxy
  have hmiddle := xorShiftLeft_injective (show 0 < 25 by decide) hlast
  exact xorShiftRight_injective (show 0 < 12 by decide) hmiddle

theorem xorShifts_ne_zero {x : UInt64} (hx : x ≠ 0) : xorShifts x ≠ 0 :=
  fun hzero ↦ hx (xorShifts_injective (hzero.trans (by decide)))

/-- The multiplier is odd, so it has an inverse. -/
theorem multiplier_injective : Function.Injective fun x : UInt64 ↦ x * 0x2545F4914F6CDD1D := by
  have hinverse : (0x2545F4914F6CDD1D : UInt64) * 0x59071D96D81ECD35 = 1 := by decide
  refine Function.LeftInverse.injective (g := (· * 0x59071D96D81ECD35)) fun x ↦ ?_
  show x * 0x2545F4914F6CDD1D * 0x59071D96D81ECD35 = x
  rw [UInt64.mul_assoc, hinverse, UInt64.mul_one]

/-- A draw from a state that is not zero, where the reset is not taken. -/
theorem cvtNondetU64_of_ne_zero {s : DriverState} (hs : s.stream ≠ 0) :
    cvtNondetU64 s = (xorShifts s.stream * 0x2545F4914F6CDD1D,
      { s with stream := xorShifts s.stream, draws := s.draws + 1 }) := by
  simp only [cvtNondetU64, nextU64, beq_eq_false_iff_ne.mpr hs, Bool.false_eq_true, if_false]

/-- The draws from a state that is not zero, by induction on the number of draws: the state stays
different from zero. -/
theorem get_drawn (i : ℕ) {s : DriverState} (hs : s.stream ≠ 0) :
    (drawn s).get i = xorShifts^[i + 1] s.stream * 0x2545F4914F6CDD1D := by
  induction i generalizing s with
  | zero =>
    show (cvtNondetU64 s).1 = _
    rw [cvtNondetU64_of_ne_zero hs]
    rfl
  | succ i ih =>
    rw [Stream'.get_succ, tail_drawn, cvtNondetU64_of_ne_zero hs, ih (xorShifts_ne_zero hs)]
    rfl

end Generator

/-! ### Seeds -/

section Seeds

/-- A seed with its lowest bit set. -/
theorem toNat_or_one (x : UInt64) : (x ||| 1).toNat = 2 * (x.toNat / 2) + 1 := by
  have hhalf : (x.toNat ||| 1) / 2 = x.toNat / 2 := by
    rw [Nat.or_div_two, Nat.or_zero]
  have hodd : (x.toNat ||| 1) % 2 = 1 := Nat.or_mod_two_eq_one.mpr (.inr rfl)
  rw [UInt64.toNat_or, UInt64.toNat_one]
  omega

theorem toNat_shiftRight_one (x : UInt64) : (x >>> 1).toNat = x.toNat / 2 := by
  rw [UInt64.toNat_shiftRight, UInt64.toNat_one, Nat.shiftRight_eq_div_pow]

theorem or_one_ne_zero (x : UInt64) : x ||| 1 ≠ 0 := by
  rw [Ne, ← UInt64.toNat_inj, toNat_or_one, UInt64.toNat_zero]
  omega

/-- The seed of an execution matters up to its lowest bit. -/
theorem or_one_eq_iff (s s' : UInt64) : s ||| 1 = s' ||| 1 ↔ s >>> 1 = s' >>> 1 := by
  rw [← UInt64.toNat_inj, ← UInt64.toNat_inj, toNat_or_one, toNat_or_one,
    toNat_shiftRight_one, toNat_shiftRight_one]
  omega

/-- Two streams that agree at one draw come from seeds that differ in the lowest bit at most. -/
theorem get_nondetStream_eq_iff (s s' : UInt64) (i : ℕ) :
    (nondetStream s).get i = (nondetStream s').get i ↔ s >>> 1 = s' >>> 1 := by
  rw [nondetStream, nondetStream, get_drawn i (or_one_ne_zero s),
    get_drawn i (or_one_ne_zero s'), multiplier_injective.eq_iff,
    (xorShifts_injective.iterate (i + 1)).eq_iff]
  exact or_one_eq_iff s s'

theorem nondetStream_eq_iff (s s' : UInt64) :
    nondetStream s = nondetStream s' ↔ s >>> 1 = s' >>> 1 :=
  ⟨fun hstream ↦ (get_nondetStream_eq_iff s s' 0).mp (congrArg (·.get 0) hstream),
    fun hseed ↦ Stream'.ext fun i ↦ (get_nondetStream_eq_iff s s' i).mpr hseed⟩

theorem mem_seeds {s n : UInt64} : s ∈ seeds n ↔ 1 ≤ s ∧ s ≤ n := by
  rw [seeds, List.mem_map, UInt64.le_iff_toNat_le, UInt64.le_iff_toNat_le, UInt64.toNat_one]
  constructor
  · rintro ⟨i, hi, rfl⟩
    rw [List.mem_range] at hi
    have hi64 : i + 1 < 2 ^ 64 := lt_of_le_of_lt hi n.toNat_lt
    rw [UInt64.toNat_ofNat_of_lt' hi64]
    omega
  · rintro ⟨hpos, hle⟩
    refine ⟨s.toNat - 1, List.mem_range.mpr (by omega), ?_⟩
    rw [Nat.sub_add_cancel hpos, UInt64.ofNat_toNat]

/-- The streams of two seeds differ exactly when the seeds differ in a bit above the lowest. The
streams of the distinct seeds from 1 to a bound are pairwise different exactly when the bound is at
most 2. -/
theorem streams_differ_iff (s s' n : UInt64) :
    (nondetStream s ≠ nondetStream s' ↔ s >>> 1 ≠ s' >>> 1) ∧
      ((∀ t ∈ seeds n, ∀ t' ∈ seeds n, t ≠ t' → nondetStream t ≠ nondetStream t') ↔ n ≤ 2) := by
  refine ⟨not_congr (nondetStream_eq_iff s s'), fun hall ↦ ?_, fun hn ↦ ?_⟩
  · by_contra hn
    have hthree : 3 ≤ n := by
      rw [UInt64.le_iff_toNat_le] at hn ⊢
      exact Nat.lt_of_not_le hn
    have htwo : 2 ≤ n := UInt64.le_trans (by decide) hthree
    exact hall 2 (mem_seeds.mpr ⟨by decide, htwo⟩) 3 (mem_seeds.mpr ⟨by decide, hthree⟩) (by decide)
      ((nondetStream_eq_iff 2 3).mpr (by decide))
  · intro t ht t' ht' hne hstream
    rw [nondetStream_eq_iff, ← UInt64.toNat_inj, toNat_shiftRight_one, toNat_shiftRight_one]
      at hstream
    rw [mem_seeds, UInt64.le_iff_toNat_le, UInt64.le_iff_toNat_le, UInt64.toNat_one] at ht ht'
    have hbound : n.toNat ≤ 2 := UInt64.le_iff_toNat_le.mp hn
    exact hne (UInt64.toNat_inj.mp (by omega))

/-- Two distinct seeds with one stream. -/
theorem seeds_two_three_collide : (2 : UInt64) ≠ 3 ∧ nondetStream 2 = nondetStream 3 ∧
    ¬∀ s s' : UInt64, s ≠ s' → nondetStream s ≠ nondetStream s' := by
  have hcollide : nondetStream 2 = nondetStream 3 := (nondetStream_eq_iff 2 3).mpr (by decide)
  exact ⟨by decide, hcollide, fun hall ↦ hall 2 3 (by decide) hcollide⟩

end Seeds

end RedisCvlr.Driver
