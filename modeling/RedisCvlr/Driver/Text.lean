import RedisCvlr.Model.State

/-!
# Strings and bytes

The functions of the standard library that `src/driver` converts strings, bytes and numbers with.
`asBytes` is the UTF-8 encoding, `fromUtf8Lossy` its lossy inverse, and `parseI64` reads what the
decimal rendering of an `i64` writes.
-/

set_option autoImplicit false
set_option relaxedAutoImplicit false

namespace RedisCvlr.Driver

open RedisCvlr.Model

/-! ### Conversions -/

/-- `str::as_bytes`: the UTF-8 encoding. -/
def asBytes (s : String) : List UInt8 := s.toList.flatMap String.utf8EncodeChar

/-- Whether a byte may follow the first byte of a sequence of three or four. -/
def isSecondByte (first second : UInt8) : Bool :=
  if first == 0xE0 then 0xA0 ≤ second && second ≤ 0xBF
  else if first == 0xED then 0x80 ≤ second && second ≤ 0x9F
  else if first == 0xF0 then 0x90 ≤ second && second ≤ 0xBF
  else if first == 0xF4 then 0x80 ≤ second && second ≤ 0x8F
  else 0x80 ≤ second && second ≤ 0xBF

/-- The number of bytes at the start of a stream that one replacement character stands for, where no
valid sequence starts: as many as a valid sequence could start with, and at least one. -/
def malformedLength : List UInt8 → ℕ
  | first :: second :: rest =>
    if 0xE0 ≤ first && first ≤ 0xEF then if isSecondByte first second then 2 else 1
    else if 0xF0 ≤ first && first ≤ 0xF4 then
      if isSecondByte first second then
        match rest with
        | third :: _ => if 0x80 ≤ third && third ≤ 0xBF then 3 else 2
        | [] => 2
      else 1
    else 1
  | _ => 1

/-- The characters of `fromUtf8Lossy`. The counter bounds the number of characters. -/
def decodeLossy : ℕ → List UInt8 → List Char
  | 0, _ => []
  | _ + 1, [] => []
  | n + 1, byte :: bytes =>
    match (byte :: bytes).toByteArray.utf8DecodeChar? 0 with
    | some c => c :: decodeLossy n ((byte :: bytes).drop c.utf8Size)
    | none => '\uFFFD' :: decodeLossy n ((byte :: bytes).drop (malformedLength (byte :: bytes)))

/-- `String::from_utf8_lossy`. -/
def fromUtf8Lossy (bytes : List UInt8) : String := String.ofList (decodeLossy bytes.length bytes)

/-- The value of a nonempty list of decimal digits. -/
def parseDigits (digits : List Char) : Option ℕ :=
  if !digits.isEmpty && digits.all Char.isDigit then some (Nat.ofDigitChars 10 digits 0) else none

/-- The integer of an optional sign and at least one decimal digit. -/
def parseInt (text : String) : Option ℤ :=
  match text.toList with
  | '-' :: digits => (parseDigits digits).map fun n : ℕ ↦ -(n : ℤ)
  | '+' :: digits => (parseDigits digits).map fun n : ℕ ↦ (n : ℤ)
  | digits => (parseDigits digits).map fun n : ℕ ↦ (n : ℤ)

/-- `str::parse::<i64>`, which fails when the integer is out of range. -/
def parseI64 (text : String) : Option ℤ :=
  (parseInt text).bind fun n ↦ if IsI64 n then some n else none

/-! ### Encoding and decoding -/

@[simp] theorem asBytes_append (s t : String) : asBytes (s ++ t) = asBytes s ++ asBytes t := by
  rw [asBytes, String.toList_append, List.flatMap_append]
  rfl

theorem utf8DecodeChar_cons (c : Char) (bytes : List UInt8) :
    (String.utf8EncodeChar c ++ bytes).toByteArray.utf8DecodeChar? 0 = some c := by
  rw [List.toByteArray_append, ByteArray.utf8DecodeChar?_utf8EncodeChar_append]

/-- The lossy decoder reads an encoding back, by induction on the characters. -/
theorem decodeLossy_flatMap (cs : List Char) (n : ℕ)
    (hn : (cs.flatMap String.utf8EncodeChar).length ≤ n) :
    decodeLossy n (cs.flatMap String.utf8EncodeChar) = cs := by
  induction cs generalizing n with
  | nil =>
    cases n with
    | zero => rfl
    | succ n => rfl
  | cons c cs ih =>
    have hsize := String.length_utf8EncodeChar c
    have hpos : 0 < c.utf8Size := Char.utf8Size_pos c
    rw [List.flatMap_cons, List.length_append, hsize] at hn
    obtain ⟨n, rfl⟩ : ∃ m, n = m + 1 := ⟨n - 1, by omega⟩
    have hdecode := utf8DecodeChar_cons c (cs.flatMap String.utf8EncodeChar)
    have hdrop : (String.utf8EncodeChar c ++ cs.flatMap String.utf8EncodeChar).drop c.utf8Size =
        cs.flatMap String.utf8EncodeChar := by
      rw [← hsize, List.drop_left]
    rw [List.flatMap_cons]
    cases hbytes : String.utf8EncodeChar c ++ cs.flatMap String.utf8EncodeChar with
    | nil =>
      rw [← List.length_eq_zero_iff, List.length_append, hsize] at hbytes
      omega
    | cons byte bytes =>
      rw [hbytes] at hdecode hdrop
      simp only [decodeLossy, hdecode, hdrop]
      rw [ih n (by omega)]

/-- The lossy decoder loses nothing of a string. -/
@[simp] theorem fromUtf8Lossy_asBytes (s : String) : fromUtf8Lossy (asBytes s) = s := by
  rw [fromUtf8Lossy, asBytes, decodeLossy_flatMap _ _ le_rfl, String.ofList_toList]

theorem asBytes_injective : Function.Injective asBytes :=
  Function.LeftInverse.injective fromUtf8Lossy_asBytes

@[simp] theorem asBytes_inj {s t : String} : asBytes s = asBytes t ↔ s = t :=
  asBytes_injective.eq_iff

/-- A byte below 128 encodes the character with its number. -/
theorem toNat_eq_of_mem_utf8EncodeChar {c : Char} {byte : UInt8} (hascii : byte.toNat < 128)
    (hmem : byte ∈ String.utf8EncodeChar c) : c.toNat = byte.toNat := by
  simp only [String.utf8EncodeChar] at hmem
  split_ifs at hmem
  · rw [List.mem_singleton] at hmem
    rw [hmem, UInt8.toNat_ofNat', Nat.mod_eq_of_lt]
    · rfl
    · omega
  -- the bytes of a longer sequence are all at least 128
  all_goals
    simp only [List.mem_cons, List.not_mem_nil, or_false] at hmem
    rcases hmem with rfl | rfl | rfl | rfl <;> rw [UInt8.toNat_ofNat'] at hascii <;> omega

/-- The encoding of a string without a carriage return has no such byte. -/
theorem not_mem_asBytes {s : String} (h : '\r' ∉ s.toList) : (13 : UInt8) ∉ asBytes s := by
  intro hmem
  rw [asBytes, List.mem_flatMap] at hmem
  obtain ⟨c, hc, hbyte⟩ := hmem
  have hchar : c = '\r' := by
    rw [← Char.toNat_inj]
    exact toNat_eq_of_mem_utf8EncodeChar (by decide) hbyte
  exact h (hchar ▸ hc)

/-! ### Numbers -/

theorem isDigit_of_mem_toString {n : ℕ} {c : Char} (hc : c ∈ (toString n).toList) :
    c.isDigit = true := by
  rw [Nat.toString_eq_repr, Nat.toList_repr] at hc
  exact Nat.isDigit_of_mem_toDigits (by decide) (le_refl 10) hc

theorem return_notMem_toString_nat (n : ℕ) : '\r' ∉ (toString n).toList :=
  fun hmem ↦ absurd (isDigit_of_mem_toString hmem) (by decide)

theorem parseDigits_toString (n : ℕ) : parseDigits (toString n).toList = some n := by
  have hdigits : (toString n).toList.all Char.isDigit = true :=
    List.all_eq_true.mpr fun _ ↦ isDigit_of_mem_toString
  have hnonempty : (toString n).toList.isEmpty = false := by
    rw [Nat.toString_eq_repr, Nat.toList_repr, List.isEmpty_eq_false_iff]
    exact Nat.toDigits_ne_nil
  rw [parseDigits, hdigits, hnonempty, Nat.toString_eq_repr, Nat.toList_repr,
    Nat.ofDigitChars_ten_toDigits]
  rfl

theorem parseInt_toString_nat (n : ℕ) : parseInt (toString n) = some (n : ℤ) := by
  have hparse := parseDigits_toString n
  have hdigit : ∀ c ∈ (toString n).toList, c.isDigit = true := fun _ ↦ isDigit_of_mem_toString
  rw [parseInt]
  split
  · next digits hchars =>
    rw [hchars] at hdigit
    exact absurd (hdigit '-' List.mem_cons_self) (by decide)
  · next digits hchars =>
    rw [hchars] at hdigit
    exact absurd (hdigit '+' List.mem_cons_self) (by decide)
  · rw [hparse]
    rfl

/-- A negative integer is rendered as a minus sign and its absolute value. -/
theorem toList_toString_of_neg {n : ℤ} (hneg : n < 0) :
    (toString n).toList = '-' :: (toString (-n).toNat).toList := by
  rw [Int.toString_eq_repr, Int.repr_eq_if, if_neg (not_le.mpr hneg), String.toList_append]
  rfl

theorem toString_of_nonneg {n : ℤ} (hnonneg : 0 ≤ n) : toString n = toString n.toNat := by
  rw [Int.toString_eq_repr, Int.repr_eq_if, if_pos hnonneg, Nat.toString_eq_repr]

theorem return_notMem_toString_int (n : ℤ) : '\r' ∉ (toString n).toList := by
  rcases lt_or_ge n 0 with hneg | hnonneg
  · rw [toList_toString_of_neg hneg, List.mem_cons, not_or]
    exact ⟨by decide, return_notMem_toString_nat _⟩
  · rw [toString_of_nonneg hnonneg]
    exact return_notMem_toString_nat _

/-- An integer is read back from its decimal rendering. -/
theorem parseInt_toString (n : ℤ) : parseInt (toString n) = some n := by
  rcases lt_or_ge n 0 with hneg | hnonneg
  · rw [parseInt, toList_toString_of_neg hneg]
    simp only [parseDigits_toString, Option.map_some]
    rw [Int.toNat_of_nonneg (Int.neg_nonneg_of_nonpos hneg.le), Int.neg_neg]
  · rw [toString_of_nonneg hnonneg, parseInt_toString_nat, Int.toNat_of_nonneg hnonneg]

theorem parseI64_toString {n : ℤ} (hn : IsI64 n) : parseI64 (toString n) = some n := by
  rw [parseI64, parseInt_toString, Option.bind_some, if_pos hn]

theorem toString_int_injective : Function.Injective (toString : ℤ → String) := by
  intro m n hsame
  have hparse := parseInt_toString m
  rw [hsame, parseInt_toString] at hparse
  exact (Option.some.inj hparse).symm

theorem toString_nat_injective : Function.Injective (toString : ℕ → String) := by
  intro m n hsame
  have hparse := parseDigits_toString m
  rw [hsame, parseDigits_toString] at hparse
  exact (Option.some.inj hparse).symm

end RedisCvlr.Driver
