import Mathlib.Order.Basic

/-!
# Xorshift generators

A xorshift step replaces a word by its exclusive or with a shift of itself. A shift by a positive
amount moves every nonzero word, so a step loses nothing: it is injective, and only zero becomes
zero. The same holds of a composition of steps.
-/

set_option autoImplicit false
set_option relaxedAutoImplicit false

namespace RedisCvlr.Library

variable {w shift : ℕ}

/-! ### Shifts -/

theorem eq_zero_of_shiftRight_eq (hshift : 0 < shift) {x : BitVec w} (hx : x >>> shift = x) :
    x = 0#w := by
  have hdiv : x.toNat / 2 ^ shift = x.toNat := by
    rw [← Nat.shiftRight_eq_div_pow, ← BitVec.toNat_ushiftRight, hx]
  have hpow : 1 < 2 ^ shift := Nat.one_lt_two_pow (Nat.ne_of_gt hshift)
  rw [← BitVec.toNat_inj, BitVec.toNat_ofNat, Nat.zero_mod]
  by_contra hne
  exact absurd hdiv (Nat.ne_of_lt (Nat.div_lt_self (Nat.pos_of_ne_zero hne) hpow))

/-- A word that a left shift does not move has no bit, by strong induction on the bit. -/
theorem eq_zero_of_shiftLeft_eq (hshift : 0 < shift) {x : BitVec w} (hx : x <<< shift = x) :
    x = 0#w := by
  have hbits : ∀ i, x.getLsbD i = false := by
    intro i
    induction i using Nat.strongRecOn with
    | ind i ih =>
      rw [← hx, BitVec.getLsbD_shiftLeft]
      by_cases hi : i < shift
      · rw [decide_eq_true hi, Bool.not_true, Bool.and_false, Bool.false_and]
      · rw [ih (i - shift) (by omega), Bool.and_false]
  refine BitVec.eq_of_getLsbD_eq fun i _ ↦ ?_
  rw [hbits, BitVec.getLsbD_zero]

/-! ### Steps -/

section Step

variable {f : BitVec w → BitVec w}

/-- The exclusive or with a map that respects it and moves every nonzero word is injective. -/
theorem xor_self_injective (hxor : ∀ x y, f (x ^^^ y) = f x ^^^ f y)
    (hmoves : ∀ x, f x = x → x = 0#w) : Function.Injective fun x ↦ x ^^^ f x := by
  intro x y hxy
  have hshifted : f x = x ^^^ (y ^^^ f y) := by
    rw [← show x ^^^ f x = y ^^^ f y from hxy, ← BitVec.xor_assoc, BitVec.xor_self, BitVec.zero_xor]
  have hsame : f x ^^^ f y = x ^^^ y := by
    rw [hshifted, BitVec.xor_assoc, BitVec.xor_assoc, BitVec.xor_self, BitVec.xor_zero]
  exact BitVec.xor_eq_zero_iff.mp (hmoves _ ((hxor x y).trans hsame))

theorem xorShiftRight_injective (hshift : 0 < shift) :
    Function.Injective fun x : BitVec w ↦ x ^^^ x >>> shift :=
  xor_self_injective (fun x y ↦ BitVec.ushiftRight_xor_distrib x y shift)
    fun _ ↦ eq_zero_of_shiftRight_eq hshift

theorem xorShiftLeft_injective (hshift : 0 < shift) :
    Function.Injective fun x : BitVec w ↦ x ^^^ x <<< shift :=
  xor_self_injective (fun x y ↦ BitVec.shiftLeft_xor_distrib x y shift)
    fun _ ↦ eq_zero_of_shiftLeft_eq hshift

end Step

end RedisCvlr.Library
