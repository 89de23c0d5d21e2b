import Mathlib.Algebra.Group.Nat.Defs
import Mathlib.Order.Basic

/-!
# LEB128

The variable-length encoding of unsigned numbers: seven bits a byte, the lowest first, and the top
bit of a byte says that another one follows. A number below `2 ^ N` may be padded with zero digits
as long as its digits do not pass bit `N`, so it has several words.
-/

set_option autoImplicit false
set_option relaxedAutoImplicit false

namespace RedisCvlr.Library

/-- The words of numbers of at most `N` bits. -/
inductive Leb128 : ℕ → List UInt8 → ℕ → Prop
  | last {N : ℕ} {b : UInt8} (low : b.toNat < 2 ^ 7) (fits : b.toNat < 2 ^ N) :
    Leb128 N [b] b.toNat
  | more {N n : ℕ} {b : UInt8} {word : List UInt8} (high : 2 ^ 7 ≤ b.toNat) (room : 7 < N)
    (rest : Leb128 (N - 7) word n) : Leb128 N (b :: word) (2 ^ 7 * n + (b.toNat - 2 ^ 7))

/-! ### Digits -/

section Digits

variable {b : UInt8}

/-- The top bit of a byte. -/
theorem and_top_eq_zero_iff : b.toNat &&& 0x80 = 0 ↔ b.toNat < 2 ^ 7 := by
  have hbyte : b.toNat < 2 ^ 8 := b.toNat_lt
  constructor
  · intro hzero
    have htop : (b.toNat &&& 0x80).testBit 7 = false := by rw [hzero, Nat.zero_testBit]
    rw [Nat.testBit_and, Nat.testBit_eq_decide_div_mod_eq] at htop
    by_contra hhigh
    have hone : b.toNat / 2 ^ 7 % 2 = 1 := by omega
    rw [hone] at htop
    cases htop
  · intro hlow
    refine Nat.eq_of_testBit_eq fun i ↦ ?_
    rw [Nat.testBit_and, Nat.zero_testBit, show (0x80 : ℕ) = 2 ^ 7 from rfl, Nat.testBit_two_pow,
      Bool.and_eq_false_imp]
    intro hbit
    refine decide_eq_false fun hi ↦ ?_
    rw [← hi, Nat.testBit_lt_two_pow hlow] at hbit
    cases hbit

/-- The digit of a last byte. -/
theorem and_digit_of_low (low : b.toNat < 2 ^ 7) : b.toNat &&& 0x7f = b.toNat := by
  rw [show (0x7f : ℕ) = 2 ^ 7 - 1 from rfl, Nat.and_two_pow_sub_one_eq_mod, Nat.mod_eq_of_lt low]

/-- The digit of a byte that another one follows. -/
theorem and_digit_of_high (high : 2 ^ 7 ≤ b.toNat) : b.toNat &&& 0x7f = b.toNat - 2 ^ 7 := by
  have hbyte : b.toNat < 2 ^ 8 := b.toNat_lt
  rw [show (0x7f : ℕ) = 2 ^ 7 - 1 from rfl, Nat.and_two_pow_sub_one_eq_mod]
  omega

/-- A digit below the others, at any shift. -/
theorem shift_digits {digit : ℕ} (hdigit : digit < 2 ^ 7) (n s : ℕ) :
    digit <<< s ||| n <<< (s + 7) = (2 ^ 7 * n + digit) <<< s := by
  rw [Nat.add_comm s 7, Nat.shiftLeft_add, ← Nat.shiftLeft_or_distrib, Nat.or_comm,
    ← Nat.shiftLeft_add_eq_or_of_lt hdigit, Nat.shiftLeft_eq n 7, Nat.mul_comm n]

end Digits

end RedisCvlr.Library
