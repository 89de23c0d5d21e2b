import RedisCvlr.Driver.Resp
import RedisCvlr.Library.Reading

/-!
# The grammar of replies

`Encodes` is the grammar of RESP2 replies, and the grammar that the client really reads: with
`lenient` the bytes that the client does not check may be any bytes, an invalid text is decoded
lossily, a length may have a sign and leading zeros, a number that does not parse has its default,
every negative length is nil, an empty line is nil and a line with an unknown tag is a simple
string. The client reads each of the two grammars (`read_of_encodes`) and reads nothing outside the
lenient one (`encodes_of_readFuel`). `Overflows` are the words on which it panics: their last header
declares more than a vector can hold (`read_of_overflows`, `overflows_of_readFuel`).
-/

set_option autoImplicit false
set_option relaxedAutoImplicit false

namespace RedisCvlr.Driver

open RedisCvlr.Library RedisCvlr.Model

/-! ### The grammar -/

/-- A line: a tag and a text without a carriage return and a line feed, and the line end. -/
def Line (lenient : Prop) : Grammar UInt8 (List UInt8) := fun word text ↦
  13 ∉ text ∧ (10 ∉ text ∨ lenient) ∧ ∃ last, (last = 10 ∨ lenient) ∧ word = text ++ [13, last]

/-- The bytes of a text. -/
def Text (lenient : Prop) : Grammar UInt8 String := fun bytes text ↦
  bytes = asBytes text ∨ lenient ∧ text = fromUtf8Lossy bytes

/-- The bytes of an integer: an optional sign and decimal digits. -/
def Number (lenient : Prop) : Grammar UInt8 ℤ := fun bytes n ↦
  parseI64 (fromUtf8Lossy bytes) = some n ∨
    lenient ∧ parseI64 (fromUtf8Lossy bytes) = none ∧ n = 0

/-- The bytes of a length: its decimal rendering. -/
def Length (lenient : Prop) : Grammar UInt8 ℤ := fun bytes n ↦
  (IsI64 n ∧ bytes = asBytes (toString n)) ∨
    lenient ∧ (parseI64 (fromUtf8Lossy bytes)).getD (-1) = n

/-- The line end after the body of a bulk string. -/
def BodyEnd (lenient : Prop) (ending : List UInt8) : Prop :=
  ending = crlf ∨ lenient ∧ ending.length = 2

/-- The length of a value that is nil. -/
def NilLength (lenient : Prop) (n : ℤ) : Prop := n = -1 ∨ lenient ∧ n < 0

/-- A body of this length and its line end fit into a vector. -/
def BulkFits (n : ℕ) : Prop := n + 2 ≤ isizeMax

instance (n : ℕ) : Decidable (BulkFits n) := inferInstanceAs (Decidable (n + 2 ≤ isizeMax))

/-- This many replies fit into a vector. -/
def ArrayFits (n : ℕ) : Prop := n * sizeOfResp ≤ isizeMax

instance (n : ℕ) : Decidable (ArrayFits n) :=
  inferInstanceAs (Decidable (n * sizeOfResp ≤ isizeMax))

/-- The words of replies that a vector can hold. The tags are `+`, `-`, `:`, `$` and `*`. -/
inductive Encodes (lenient : Prop) : Grammar UInt8 Resp
  | simple {word bytes : List UInt8} {text : String} (line : Line lenient word (43 :: bytes))
    (content : Text lenient bytes text) : Encodes lenient word (.simple text)
  | error {word bytes : List UInt8} {text : String} (line : Line lenient word (45 :: bytes))
    (content : Text lenient bytes text) : Encodes lenient word (.error text)
  | int {word text : List UInt8} {n : ℤ} (line : Line lenient word (58 :: text))
    (number : Number lenient text n) : Encodes lenient word (.int n)
  | bulk {header text bytes ending : List UInt8} (line : Line lenient header (36 :: text))
    (length : Length lenient text bytes.length) (fits : BulkFits bytes.length)
    (bodyEnd : BodyEnd lenient ending) :
    Encodes lenient (header ++ (bytes ++ ending)) (.bulk bytes)
  | nil {word text : List UInt8} {n : ℤ} (line : Line lenient word (36 :: text))
    (length : Length lenient text n) (nilLength : NilLength lenient n) :
    Encodes lenient word .nil
  | array {header text body : List UInt8} {items : List Resp}
    (line : Line lenient header (42 :: text)) (length : Length lenient text items.length)
    (fits : ArrayFits items.length) (words : Words (Encodes lenient) body items) :
    Encodes lenient (header ++ body) (.array items)
  | nilArray {word text : List UInt8} {n : ℤ} (line : Line lenient word (42 :: text))
    (length : Length lenient text n) (nilLength : NilLength lenient n) :
    Encodes lenient word .nilArray
  | emptyLine {word : List UInt8} (fallback : lenient) (line : Line lenient word []) :
    Encodes lenient word .nil
  | unknownTag {word text : List UInt8} {tag : UInt8} (fallback : lenient)
    (unknown : tag ∉ asBytes "+-:$*") (line : Line lenient word (tag :: text)) :
    Encodes lenient word (.simple (fromUtf8Lossy text))

/-- The words that end with a header whose vector would be too large: that of a bulk string, that
of an array, or, after a number of replies, one of an element of an array that is not complete. -/
inductive Overflows : List UInt8 → Prop
  | bulk {header text : List UInt8} {n : ℕ} (line : Line True header (36 :: text))
    (length : Length True text n) (tooLarge : ¬BulkFits n) : Overflows header
  | array {header text : List UInt8} {n : ℕ} (line : Line True header (42 :: text))
    (length : Length True text n) (tooLarge : ¬ArrayFits n) : Overflows header
  | element {header text body word : List UInt8} {n : ℕ} {items : List Resp}
    (line : Line True header (42 :: text)) (length : Length True text n) (fits : ArrayFits n)
    (words : Words (Encodes True) body items) (incomplete : items.length < n)
    (overflows : Overflows word) : Overflows (header ++ (body ++ word))

/-! ### Lines, numbers and bodies -/

section Parts

variable {lenient : Prop}

theorem crlf_eq : crlf = [13, 10] := rfl

/-- A line is read up to its end, by induction on its text. -/
theorem readLine_append {text : List UInt8} (htext : 13 ∉ text) (last : UInt8)
    (out rest : List UInt8) :
    readLine out (text ++ [13, last] ++ rest) = .ok (out ++ text, rest) := by
  induction text generalizing out with
  | nil =>
    rw [List.append_nil]
    rfl
  | cons byte text ih =>
    rw [List.mem_cons, not_or] at htext
    have hbyte : ¬(byte == 13) = true := by
      rw [beq_iff_eq]
      exact Ne.symm htext.1
    rw [List.cons_append, List.cons_append, readLine, if_neg hbyte, ih htext.2, List.append_assoc,
      List.singleton_append]

theorem readLine_of_line {word text : List UInt8} (hline : Line lenient word text)
    (rest : List UInt8) : readLine [] (word ++ rest) = .ok (text, rest) := by
  obtain ⟨htext, -, last, -, rfl⟩ := hline
  exact readLine_append htext last [] rest

theorem length_line_pos {word text : List UInt8} (hline : Line lenient word text) :
    0 < word.length := by
  obtain ⟨-, -, last, -, rfl⟩ := hline
  rw [List.length_append]
  exact Nat.add_pos_right _ (Nat.succ_pos 1)

theorem readExact_append {bytes : List UInt8} {n : ℕ} (hlength : bytes.length = n)
    (rest : List UInt8) : readExact n (bytes ++ rest) = .ok (bytes, rest) := by
  subst hlength
  rw [readExact, if_pos (by rw [List.length_append]; exact Nat.le_add_right _ _), List.take_left,
    List.drop_left]

theorem eq_append_of_readExact {n : ℕ} {stream bytes rest : List UInt8}
    (hread : readExact n stream = .ok (bytes, rest)) :
    bytes.length = n ∧ stream = bytes ++ rest := by
  rw [readExact] at hread
  split_ifs at hread with hlength
  obtain ⟨rfl, rfl⟩ := Prod.mk.inj (Except.ok.inj hread)
  exact ⟨List.length_take_of_le hlength, (List.take_append_drop n stream).symm⟩

/-- What is read as a line is a line, with any byte for its line feed. -/
theorem eq_append_of_readLine {out stream line rest : List UInt8}
    (hread : readLine out stream = .ok (line, rest)) :
    ∃ text last, line = out ++ text ∧ 13 ∉ text ∧ stream = text ++ [13, last] ++ rest := by
  induction stream generalizing out with
  | nil =>
    rw [readLine] at hread
    cases hread
  | cons byte stream ih =>
    rw [readLine] at hread
    split_ifs at hread with hbyte
    · obtain ⟨⟨bytes, tail⟩, hexact, hline⟩ := bind_eq_ok.mp hread
      obtain ⟨hlength, rfl⟩ := eq_append_of_readExact hexact
      obtain ⟨last, rfl⟩ := List.length_eq_one_iff.mp hlength
      obtain ⟨rfl, rfl⟩ := Prod.mk.inj (Except.ok.inj hline)
      obtain rfl := beq_iff_eq.mp hbyte
      exact ⟨[], last, (List.append_nil _).symm, List.not_mem_nil, rfl⟩
    · obtain ⟨text, last, rfl, htext, rfl⟩ := ih hread
      refine ⟨byte :: text, last, ?_, ?_, rfl⟩
      · rw [List.append_assoc, List.singleton_append]
      · rw [List.mem_cons, not_or]
        exact ⟨fun h ↦ hbyte (beq_iff_eq.mpr h.symm), htext⟩

theorem line_of_readLine {stream text rest : List UInt8}
    (hread : readLine [] stream = .ok (text, rest)) :
    ∃ word, stream = word ++ rest ∧ Line True word text := by
  obtain ⟨text, last, rfl, htext, rfl⟩ := eq_append_of_readLine hread
  exact ⟨_, rfl, htext, .inr trivial, last, .inr trivial, rfl⟩

theorem fromUtf8Lossy_of_text {bytes : List UInt8} {text : String} (h : Text lenient bytes text) :
    fromUtf8Lossy bytes = text := by
  rcases h with rfl | ⟨-, rfl⟩
  · exact fromUtf8Lossy_asBytes text
  · rfl

theorem getD_of_number {n : ℤ} {text : List UInt8} (h : Number lenient text n) :
    (parseI64 (fromUtf8Lossy text)).getD 0 = n := by
  rcases h with hparse | ⟨-, hparse, rfl⟩
  · rw [hparse, Option.getD_some]
  · rw [hparse, Option.getD_none]

theorem number_getD (text : List UInt8) :
    Number True text ((parseI64 (fromUtf8Lossy text)).getD 0) := by
  cases hparse : parseI64 (fromUtf8Lossy text) with
  | none => exact .inr ⟨trivial, hparse, rfl⟩
  | some n => exact .inl hparse

theorem getD_of_length {n : ℤ} {text : List UInt8} (h : Length lenient text n) :
    (parseI64 (fromUtf8Lossy text)).getD (-1) = n := by
  rcases h with ⟨hn, rfl⟩ | ⟨-, hparse⟩
  · rw [fromUtf8Lossy_asBytes, parseI64_toString hn, Option.getD_some]
  · exact hparse

theorem length_getD (text : List UInt8) :
    Length True text ((parseI64 (fromUtf8Lossy text)).getD (-1)) := .inr ⟨trivial, rfl⟩

theorem neg_of_nilLength {n : ℤ} (h : NilLength lenient n) : n < 0 := by
  rcases h with rfl | ⟨-, hneg⟩
  · decide
  · exact hneg

theorem length_of_bodyEnd {ending : List UInt8} (h : BodyEnd lenient ending) :
    ending.length = 2 := by
  rcases h with rfl | ⟨-, hlength⟩
  · rfl
  · exact hlength

/-- A body of the declared length is read whole, and its line end is dropped. -/
theorem readBulk_append {bytes ending : List UInt8} (hfits : BulkFits bytes.length)
    (hending : ending.length = 2) (rest : List UInt8) :
    readBulk bytes.length (bytes ++ ending ++ rest) = .ok (.bulk bytes, rest) := by
  have hlength : (bytes ++ ending).length = bytes.length + 2 := by rw [List.length_append, hending]
  rw [readBulk, if_neg (not_lt.mpr (Int.natCast_nonneg _)), Int.toNat_natCast,
    if_neg (not_lt.mpr hfits), readExact_append hlength, ok_bind]
  show Except.ok (Resp.bulk ((bytes ++ ending).take bytes.length), rest) = _
  rw [List.take_left]

theorem readBulk_tooLarge {n : ℕ} (hlarge : ¬BulkFits n) (stream : List UInt8) :
    readBulk n stream = .error .capacityOverflow := by
  rw [readBulk, if_neg (not_lt.mpr (Int.natCast_nonneg _)), Int.toNat_natCast,
    if_pos (not_le.mp hlarge)]

theorem readArray_tooLarge {reader : List UInt8 → Except ReadFailure (Resp × List UInt8)} {n : ℕ}
    (hlarge : ¬ArrayFits n) (stream : List UInt8) :
    readArray reader n stream = .error .capacityOverflow := by
  rw [readArray, if_neg (not_lt.mpr (Int.natCast_nonneg _)), Int.toNat_natCast,
    if_pos (not_le.mp hlarge)]

/-- The elements of an array are read by the loop that reads items. -/
theorem readElements_eq_readMany (read : List UInt8 → Except ReadFailure (Resp × List UInt8))
    (n : ℕ) (items : List Resp) (stream : List UInt8) :
    readElements read n items stream = readMany read n items stream := by
  induction n generalizing items stream with
  | zero => rfl
  | succ n ih =>
    rw [readElements, readMany]
    simp only [ih]

end Parts

/-! ### Replies -/

section Replies

variable {lenient : Prop} {reader : List UInt8 → Except ReadFailure (Resp × List UInt8)}

/-- A reply is what the tag of its first line makes of the rest. -/
theorem readFuel_of_readLine {tag : UInt8} {stream text rest : List UInt8} (fuel : ℕ)
    (hline : readLine [] stream = .ok (tag :: text, rest)) :
    readFuel (fuel + 1) stream = readTagged (readFuel fuel) tag (fromUtf8Lossy text) rest := by
  rw [readFuel, hline]
  rfl

theorem tag_eq_iff {tag : UInt8} {c : Char} (hc : c.toNat < 256) :
    Char.ofNat tag.toNat = c ↔ tag = UInt8.ofNat c.toNat := by
  constructor
  · rintro rfl
    have hvalid : tag.toNat.isValidChar := .inl (lt_trans tag.toNat_lt (by decide))
    have hnumber : (Char.ofNat tag.toNat).toNat = tag.toNat := by
      rw [Char.ofNat, dif_pos hvalid]
      rfl
    rw [hnumber, UInt8.ofNat_toNat]
  · rintro rfl
    rw [UInt8.toNat_ofNat', Nat.mod_eq_of_lt hc, Char.ofNat_toNat]

theorem mem_tags {tag : UInt8} : tag ∈ asBytes "+-:$*" ↔
    tag = 43 ∨ tag = 45 ∨ tag = 58 ∨ tag = 36 ∨ tag = 42 := by
  rw [show asBytes "+-:$*" = [43, 45, 58, 36, 42] from rfl]
  simp

/-- The cases of a tag. -/
theorem readTagged_eq (tag : UInt8) (text : String) (stream : List UInt8) :
    readTagged reader tag text stream =
      if tag = 43 then .ok (.simple text, stream)
      else if tag = 45 then .ok (.error text, stream)
      else if tag = 58 then .ok (.int ((parseI64 text).getD 0), stream)
      else if tag = 36 then readBulk ((parseI64 text).getD (-1)) stream
      else if tag = 42 then readArray reader ((parseI64 text).getD (-1)) stream
      else .ok (.simple text, stream) := by
  unfold readTagged
  split
  · next h =>
    obtain rfl := (tag_eq_iff (by decide)).mp h
    rfl
  · next h =>
    obtain rfl := (tag_eq_iff (by decide)).mp h
    rfl
  · next h =>
    obtain rfl := (tag_eq_iff (by decide)).mp h
    rfl
  · next h =>
    obtain rfl := (tag_eq_iff (by decide)).mp h
    rfl
  · next h =>
    obtain rfl := (tag_eq_iff (by decide)).mp h
    rfl
  · next hplus hminus hcolon hdollar hstar =>
    have hne : ∀ c : Char, c.toNat < 256 → (Char.ofNat tag.toNat = c → False) →
        tag ≠ UInt8.ofNat c.toNat := fun c hc hchar ↦ mt (tag_eq_iff hc).mpr hchar
    rw [if_neg (show tag ≠ 43 from hne '+' (by decide) hplus),
      if_neg (show tag ≠ 45 from hne '-' (by decide) hminus),
      if_neg (show tag ≠ 58 from hne ':' (by decide) hcolon),
      if_neg (show tag ≠ 36 from hne '$' (by decide) hdollar),
      if_neg (show tag ≠ 42 from hne '*' (by decide) hstar)]

/-- An array of the declared length is read when its elements are. -/
theorem readArray_of_words {G : Grammar UInt8 Resp} (hread : Reads id G reader) {body : List UInt8}
    {items : List Resp} (hfits : ArrayFits items.length) (hwords : Words G body items)
    (rest : List UInt8) :
    readArray reader items.length (body ++ rest) = .ok (.array items, rest) := by
  obtain ⟨_, hmany, rfl⟩ := hread.many hwords (rfl : id (body ++ rest) = body ++ rest) []
  rw [readArray, if_neg (not_lt.mpr (Int.natCast_nonneg _)), Int.toNat_natCast,
    if_neg (not_lt.mpr hfits), readElements_eq_readMany, hmany]
  rfl

/-- An array fails when one of its elements does. -/
theorem readArray_of_element {G : Grammar UInt8 Resp} (hread : Reads id G reader)
    {body word rest : List UInt8} {items : List Resp} {n : ℕ} {e : ReadFailure}
    (hfits : ArrayFits n) (hwords : Words G body items) (hincomplete : items.length < n)
    (herror : reader (word ++ rest) = .error e) :
    readArray reader n (body ++ (word ++ rest)) = .error e := by
  obtain ⟨_, hmany, rfl⟩ :=
    hread.many hwords (rfl : id (body ++ (word ++ rest)) = body ++ (word ++ rest)) []
  have hfails : readMany reader n [] (body ++ (word ++ rest)) = .error e :=
    readMany_eq_error_iff.mpr ⟨items.length, hincomplete, _, _, hmany, herror⟩
  rw [readArray, if_neg (not_lt.mpr (Int.natCast_nonneg _)), Int.toNat_natCast,
    if_neg (not_lt.mpr hfits), readElements_eq_readMany, hfails]
  rfl

/-- A reader that reads short words reads sequences that are not longer. -/
theorem reads_of_fuel {fuel : ℕ} {body : List UInt8} {items : List Resp}
    (ih : ∀ {word v}, Encodes lenient word v → word.length < fuel → ∀ rest,
      reader (word ++ rest) = .ok (v, rest)) (hfuel : body.length < fuel)
    (hwords : Words (Encodes lenient) body items) :
    ∃ G, Reads id G reader ∧ Words G body items := by
  refine ⟨fun word v ↦ word.length ≤ body.length ∧ Encodes lenient word v, ?_, hwords.length_le⟩
  rintro word v ⟨hle, henc⟩ s tail hs
  exact ⟨tail, (congrArg reader hs).trans (ih henc (by omega) tail), rfl⟩

/-- With more fuel than the length of a word its value is read, by induction on the fuel: the words
of the elements of an array are shorter than that of the array. -/
theorem readFuel_of_encodes (fuel : ℕ) {word : List UInt8} {v : Resp} (h : Encodes lenient word v)
    (hfuel : word.length < fuel) (rest : List UInt8) :
    readFuel fuel (word ++ rest) = .ok (v, rest) := by
  induction fuel generalizing word v rest with
  | zero => exact absurd hfuel (Nat.not_lt_zero _)
  | succ fuel ih =>
    cases h with
    | simple line content =>
      rw [readFuel_of_readLine fuel (readLine_of_line line rest), fromUtf8Lossy_of_text content]
      rfl
    | error line content =>
      rw [readFuel_of_readLine fuel (readLine_of_line line rest), fromUtf8Lossy_of_text content]
      rfl
    | int line number =>
      rw [readFuel_of_readLine fuel (readLine_of_line line rest)]
      show Except.ok (Resp.int ((parseI64 (fromUtf8Lossy _)).getD 0), rest) = _
      rw [getD_of_number number]
    | bulk line length fits bodyEnd =>
      rw [List.append_assoc, readFuel_of_readLine fuel (readLine_of_line line _)]
      show readBulk ((parseI64 (fromUtf8Lossy _)).getD (-1)) _ = _
      rw [getD_of_length length, readBulk_append fits (length_of_bodyEnd bodyEnd)]
    | nil line length nilLength =>
      rw [readFuel_of_readLine fuel (readLine_of_line line rest)]
      show readBulk ((parseI64 (fromUtf8Lossy _)).getD (-1)) _ = _
      rw [getD_of_length length, readBulk, if_pos (neg_of_nilLength nilLength)]
    | @array header text body items line length fits words =>
      rw [List.append_assoc, readFuel_of_readLine fuel (readLine_of_line line _)]
      show readArray (readFuel fuel) ((parseI64 (fromUtf8Lossy _)).getD (-1)) _ = _
      rw [List.length_append] at hfuel
      have hheader := length_line_pos line
      obtain ⟨G, hread, hwords⟩ := reads_of_fuel ih (by omega) words
      rw [getD_of_length length, readArray_of_words hread fits hwords]
    | nilArray line length nilLength =>
      rw [readFuel_of_readLine fuel (readLine_of_line line rest)]
      show readArray (readFuel fuel) ((parseI64 (fromUtf8Lossy _)).getD (-1)) _ = _
      rw [getD_of_length length, readArray, if_pos (neg_of_nilLength nilLength)]
    | emptyLine fallback line =>
      rw [readFuel, readLine_of_line line rest]
      rfl
    | unknownTag fallback unknown line =>
      rw [readFuel_of_readLine fuel (readLine_of_line line rest), readTagged_eq]
      simp only [mem_tags, not_or] at unknown
      simp only [unknown, if_false]

theorem read_of_encodes {word : List UInt8} {v : Resp} (h : Encodes lenient word v)
    (rest : List UInt8) : read (word ++ rest) = .ok (v, rest) := by
  refine readFuel_of_encodes _ h (Nat.lt_succ_of_le ?_) rest
  rw [List.length_append]
  exact Nat.le_add_right _ _

theorem encodes_of_readBulk {word text stream rest : List UInt8} {v : Resp}
    (hline : Line True word (36 :: text))
    (hread : readBulk ((parseI64 (fromUtf8Lossy text)).getD (-1)) stream = .ok (v, rest)) :
    ∃ body, stream = body ++ rest ∧ Encodes True (word ++ body) v := by
  have hdeclared := length_getD text
  rw [readBulk] at hread
  split_ifs at hread with hneg hlarge
  · obtain ⟨rfl, rfl⟩ := Prod.mk.inj (Except.ok.inj hread)
    exact ⟨[], rfl, (List.append_nil word).symm ▸ .nil hline hdeclared (.inr ⟨trivial, hneg⟩)⟩
  · obtain ⟨⟨buf, tail⟩, hexact, hbody⟩ := bind_eq_ok.mp hread
    obtain ⟨hlength, rfl⟩ := eq_append_of_readExact hexact
    obtain ⟨rfl, rfl⟩ := Prod.mk.inj (Except.ok.inj hbody)
    generalize (parseI64 (fromUtf8Lossy text)).getD (-1) = n at hdeclared hneg hlarge hlength ⊢
    obtain ⟨n, rfl⟩ := Int.eq_ofNat_of_zero_le (not_lt.mp hneg)
    rw [Int.toNat_natCast] at hlarge hlength ⊢
    refine ⟨buf, rfl, ?_⟩
    have hbytes : (buf.take n).length = n := List.length_take_of_le (by omega)
    have hending : (buf.drop n).length = 2 := by
      rw [List.length_drop]
      omega
    rw [← hbytes] at hdeclared hlarge
    have hbulk := Encodes.bulk hline hdeclared (not_lt.mp hlarge) (.inr ⟨trivial, hending⟩)
    rwa [List.take_append_drop] at hbulk

theorem encodes_of_readArray (hreader : ReadsOnly id (Encodes True) reader)
    {word text stream rest : List UInt8} {v : Resp} (hline : Line True word (42 :: text))
    (hread : readArray reader ((parseI64 (fromUtf8Lossy text)).getD (-1)) stream = .ok (v, rest)) :
    ∃ body, stream = body ++ rest ∧ Encodes True (word ++ body) v := by
  have hdeclared := length_getD text
  rw [readArray] at hread
  split_ifs at hread with hneg hlarge
  · obtain ⟨rfl, rfl⟩ := Prod.mk.inj (Except.ok.inj hread)
    exact ⟨[], rfl,
      (List.append_nil word).symm ▸ .nilArray hline hdeclared (.inr ⟨trivial, hneg⟩)⟩
  · obtain ⟨⟨items, tail⟩, hmany, hitems⟩ := bind_eq_ok.mp hread
    obtain ⟨rfl, rfl⟩ := Prod.mk.inj (Except.ok.inj hitems)
    rw [readElements_eq_readMany] at hmany
    obtain ⟨body, items, rfl, hlength, hbody, hwords⟩ := hreader.many hmany
    have hcount := Int.toNat_of_nonneg (not_lt.mp hneg)
    rw [← hcount, ← hlength] at hdeclared
    rw [← hlength] at hlarge
    exact ⟨body, hbody, .array hline hdeclared (not_lt.mp hlarge) hwords⟩

/-- What is read as the value of a tag is one of the lenient words. -/
theorem encodes_of_readTagged (hreader : ReadsOnly id (Encodes True) reader) {tag : UInt8}
    {word text stream rest : List UInt8} {v : Resp} (hline : Line True word (tag :: text))
    (htagged : readTagged reader tag (fromUtf8Lossy text) stream = .ok (v, rest)) :
    ∃ body, stream = body ++ rest ∧ Encodes True (word ++ body) v := by
  have hdone : ∀ v', Encodes True word v' →
      (.ok (v', stream) : Except ReadFailure _) = .ok (v, rest) →
      ∃ body, stream = body ++ rest ∧ Encodes True (word ++ body) v := by
    rintro v' hword hsame
    obtain ⟨rfl, rfl⟩ := Prod.mk.inj (Except.ok.inj hsame)
    exact ⟨[], rfl, (List.append_nil word).symm ▸ hword⟩
  rw [readTagged_eq] at htagged
  split_ifs at htagged with hplus hminus hcolon hdollar hstar
  · subst hplus
    exact hdone _ (.simple hline (.inr ⟨trivial, rfl⟩)) htagged
  · subst hminus
    exact hdone _ (.error hline (.inr ⟨trivial, rfl⟩)) htagged
  · subst hcolon
    exact hdone _ (.int hline (number_getD text)) htagged
  · subst hdollar
    exact encodes_of_readBulk hline htagged
  · subst hstar
    exact encodes_of_readArray hreader hline htagged
  · have hunknown : tag ∉ asBytes "+-:$*" := by
      rw [mem_tags]
      simp only [hplus, hminus, hcolon, hdollar, hstar, or_false, not_false_eq_true]
    exact hdone _ (.unknownTag trivial hunknown hline) htagged

/-- What is read is one of the lenient words, by induction on the fuel. -/
theorem encodes_of_readFuel (fuel : ℕ) : ReadsOnly id (Encodes True) (readFuel fuel) := by
  induction fuel with
  | zero =>
    intro stream v rest hread
    cases hread
  | succ fuel ih =>
    intro stream v rest hread
    obtain ⟨⟨line, tail⟩, hline, htagged⟩ := bind_eq_ok.mp hread
    obtain ⟨word, rfl, hword⟩ := line_of_readLine hline
    cases line with
    | nil =>
      obtain ⟨rfl, rfl⟩ := Prod.mk.inj (Except.ok.inj htagged)
      exact ⟨word, rfl, .emptyLine trivial hword⟩
    | cons tag text =>
      obtain ⟨body, rfl, hencodes⟩ := encodes_of_readTagged ih hword htagged
      exact ⟨word ++ body, (List.append_assoc _ _ _).symm, hencodes⟩

end Replies

/-! ### Panics -/

section Panics

variable {reader : List UInt8 → Except ReadFailure (Resp × List UInt8)}

/-- With more fuel than the length of the word the read panics, by induction on the word. -/
theorem readFuel_of_overflows {word : List UInt8} (h : Overflows word) {fuel : ℕ}
    (hfuel : word.length < fuel) (rest : List UInt8) :
    readFuel fuel (word ++ rest) = .error .capacityOverflow := by
  induction h generalizing fuel with
  | bulk line length tooLarge =>
    obtain ⟨fuel, rfl⟩ := Nat.exists_eq_add_of_lt hfuel
    rw [readFuel_of_readLine _ (readLine_of_line line rest)]
    show readBulk ((parseI64 (fromUtf8Lossy _)).getD (-1)) _ = _
    rw [getD_of_length length, readBulk_tooLarge tooLarge]
  | array line length tooLarge =>
    obtain ⟨fuel, rfl⟩ := Nat.exists_eq_add_of_lt hfuel
    rw [readFuel_of_readLine _ (readLine_of_line line rest)]
    show readArray _ ((parseI64 (fromUtf8Lossy _)).getD (-1)) _ = _
    rw [getD_of_length length, readArray_tooLarge tooLarge]
  | @element header text body word n items line length fits words incomplete overflows ih =>
    obtain ⟨fuel, rfl⟩ : ∃ m, fuel = m + 1 := ⟨fuel - 1, by omega⟩
    rw [List.length_append, List.length_append] at hfuel
    have hheader := length_line_pos line
    rw [List.append_assoc, List.append_assoc,
      readFuel_of_readLine fuel (readLine_of_line line _)]
    show readArray _ ((parseI64 (fromUtf8Lossy _)).getD (-1)) _ = _
    obtain ⟨G, hread, hwords⟩ := reads_of_fuel
      (fun henc hlt rest ↦ readFuel_of_encodes fuel henc hlt rest) (by omega) words
    rw [getD_of_length length]
    exact readArray_of_element hread fits hwords incomplete (ih (by omega))

theorem readLine_ne_capacityOverflow (out stream : List UInt8) :
    readLine out stream ≠ .error .capacityOverflow := by
  induction stream generalizing out with
  | nil => rintro ⟨⟩
  | cons byte stream ih =>
    rw [readLine]
    split_ifs
    · refine bind_ne_error (fun herror ↦ ?_) fun _ ↦ by rintro ⟨⟩
      rw [readExact] at herror
      split_ifs at herror
      cases herror
    · exact ih (out ++ [byte])

theorem overflows_of_readBulk {word text stream : List UInt8} (hline : Line True word (36 :: text))
    (hread : readBulk ((parseI64 (fromUtf8Lossy text)).getD (-1)) stream =
      .error .capacityOverflow) : Overflows word := by
  have hdeclared := length_getD text
  rw [readBulk] at hread
  split_ifs at hread with hneg hlarge
  · rw [← Int.toNat_of_nonneg (not_lt.mp hneg)] at hdeclared
    exact .bulk hline hdeclared (not_le.mpr hlarge)
  · rcases bind_eq_error.mp hread with herror | ⟨_, -, ⟨⟩⟩
    rw [readExact] at herror
    split_ifs at herror
    cases herror

theorem overflows_of_readArray (hreads : ReadsOnly id (Encodes True) reader)
    (hreader : ∀ stream, reader stream = .error .capacityOverflow →
      ∃ word rest, stream = word ++ rest ∧ Overflows word)
    {word text stream : List UInt8} (hline : Line True word (42 :: text))
    (hread : readArray reader ((parseI64 (fromUtf8Lossy text)).getD (-1)) stream =
      .error .capacityOverflow) :
    ∃ body rest, stream = body ++ rest ∧ Overflows (word ++ body) := by
  have hdeclared := length_getD text
  rw [readArray] at hread
  split_ifs at hread with hneg hlarge
  · rw [← Int.toNat_of_nonneg (not_lt.mp hneg)] at hdeclared
    exact ⟨[], stream, rfl,
      (List.append_nil word).symm ▸ .array hline hdeclared (not_le.mpr hlarge)⟩
  · rcases bind_eq_error.mp hread with herror | ⟨_, -, ⟨⟩⟩
    rw [readElements_eq_readMany, readMany_eq_error_iff] at herror
    obtain ⟨m, hlt, all, tail, hmany, hpanic⟩ := herror
    obtain ⟨body, items, -, rfl, hbody, hwords⟩ := hreads.many hmany
    obtain ⟨last, rest, rfl, hoverflows⟩ := hreader tail hpanic
    rw [← Int.toNat_of_nonneg (not_lt.mp hneg)] at hdeclared
    refine ⟨body ++ last, rest, ?_, .element hline hdeclared (not_lt.mp hlarge) hwords hlt
      hoverflows⟩
    exact hbody.trans (List.append_assoc _ _ _).symm

/-- A read that panics has come to the end of such a word, by induction on the fuel. -/
theorem overflows_of_readFuel (fuel : ℕ) (stream : List UInt8)
    (hread : readFuel fuel stream = .error .capacityOverflow) :
    ∃ word rest, stream = word ++ rest ∧ Overflows word := by
  induction fuel generalizing stream with
  | zero => cases hread
  | succ fuel ih =>
    rcases bind_eq_error.mp hread with hline | ⟨⟨line, tail⟩, hline, htagged⟩
    · exact absurd hline (readLine_ne_capacityOverflow [] stream)
    obtain ⟨word, rfl, hword⟩ := line_of_readLine hline
    cases line with
    | nil => cases htagged
    | cons tag text =>
      change readTagged (readFuel fuel) tag (fromUtf8Lossy text) tail = _ at htagged
      rw [readTagged_eq] at htagged
      split_ifs at htagged with hplus hminus hcolon hdollar hstar
      · subst hdollar
        exact ⟨word, tail, rfl, overflows_of_readBulk hword htagged⟩
      · subst hstar
        obtain ⟨body, rest, rfl, hoverflows⟩ :=
          overflows_of_readArray (encodes_of_readFuel fuel) ih hword htagged
        exact ⟨word ++ body, rest, (List.append_assoc _ _ _).symm, hoverflows⟩

theorem read_of_overflows {word : List UInt8} (h : Overflows word) (rest : List UInt8) :
    read (word ++ rest) = .error .capacityOverflow := by
  refine readFuel_of_overflows h (Nat.lt_succ_of_le ?_) rest
  rw [List.length_append]
  exact Nat.le_add_right _ _

end Panics

end RedisCvlr.Driver
