import RedisCvlr.Driver.Difftest
import RedisCvlr.Driver.Framing
import RedisCvlr.Library.SelfDelimiting

/-!
# Malformed replies

The client does not check what it reads: it has a default for every number, takes any bytes for a
line end, and reads a line with an unknown tag as a text. So it reads more than RESP2 replies, and
the harness takes some of what it reads for the reply of the model (`malformed_replies_read`).
`replies_read_iff` says exactly which streams it reads, and as what, and on which it panics.
-/

set_option autoImplicit false
set_option relaxedAutoImplicit false

namespace RedisCvlr.Driver

open RedisCvlr.Library RedisCvlr.Model

/-! ### What the client reads -/

/-- The client reads a value, having consumed a prefix, exactly when the prefix is a word of the
lenient grammar for the value. It panics exactly when a header declares more than a vector can hold
before a value is complete, every other stream is an error, and every RESP2 encoding of a value is
read as that value. -/
theorem replies_read_iff :
    (∀ stream v rest, read stream = .ok (v, rest) ↔
      ∃ word, stream = word ++ rest ∧ Encodes True word v) ∧
    (∀ stream, read stream = .error .capacityOverflow ↔
      ∃ word rest, stream = word ++ rest ∧ Overflows word) ∧
    (∀ stream, read stream = .error .unexpectedEof ↔
      (¬∃ word v rest, stream = word ++ rest ∧ Encodes True word v) ∧
        ¬∃ word rest, stream = word ++ rest ∧ Overflows word) ∧
    ∀ word v, Encodes False word v → ∀ rest, read (word ++ rest) = .ok (v, rest) := by
  have hread : ∀ stream v rest, read stream = .ok (v, rest) ↔
      ∃ word, stream = word ++ rest ∧ Encodes True word v := by
    refine fun stream v rest ↦ ⟨fun hread ↦ encodes_of_readFuel _ hread, ?_⟩
    rintro ⟨word, rfl, hword⟩
    exact read_of_encodes hword rest
  have hpanic : ∀ stream, read stream = .error .capacityOverflow ↔
      ∃ word rest, stream = word ++ rest ∧ Overflows word := by
    refine fun stream ↦ ⟨overflows_of_readFuel _ stream, ?_⟩
    rintro ⟨word, rest, rfl, hword⟩
    exact read_of_overflows hword rest
  refine ⟨hread, hpanic, fun stream ↦ ?_, fun word v hword ↦ read_of_encodes hword⟩
  constructor
  · intro herror
    refine ⟨?_, fun hoverflows ↦ ?_⟩
    · rintro ⟨word, v, rest, hword⟩
      rw [(hread stream v rest).mpr ⟨word, hword⟩] at herror
      cases herror
    · rw [(hpanic stream).mpr hoverflows] at herror
      cases herror
  · rintro ⟨hnone, hnever⟩
    have hfuel := read_ne_outOfFuel stream
    cases hresult : read stream with
    | ok value =>
      obtain ⟨word, hword⟩ := (hread stream value.1 value.2).mp hresult
      exact absurd ⟨word, value.1, value.2, hword⟩ hnone
    | error e =>
      cases e with
      | unexpectedEof => rfl
      | capacityOverflow => exact absurd ((hpanic stream).mp hresult) hnever
      | outOfFuel => exact absurd hresult hfuel

/-! ### What RESP2 has instead -/

section Strict

variable {word : List UInt8} {v : Resp}

/-- A line that declares the length of a RESP2 reply: a decimal rendering, `-1` for nil. -/
def isLength (text : List UInt8) : Bool :=
  match parseI64 (fromUtf8Lossy text) with
  | some n => decide (-1 ≤ n) && text == asBytes (toString n)
  | none => false

/-- A first line that a RESP2 reply can have: a known tag, and a number where the tag asks for
one. -/
def isReplyLine : List UInt8 → Bool
  | [] => false
  | tag :: text =>
    tag == 43 || tag == 45 || (tag == 58 && (parseI64 (fromUtf8Lossy text)).isSome) ||
      ((tag == 36 || tag == 42) && isLength text)

theorem isReplyLine_text {tag : UInt8} (htag : tag = 43 ∨ tag = 45) (text : List UInt8) :
    isReplyLine (tag :: text) = true := by
  rcases htag with rfl | rfl <;> simp [isReplyLine]

theorem isReplyLine_int {text : List UInt8} {n : ℤ} (h : Number False text n) :
    isReplyLine (58 :: text) = true := by
  have hparse : parseI64 (fromUtf8Lossy text) = some n := h.resolve_right And.left
  simp [isReplyLine, hparse]

theorem isReplyLine_length {tag : UInt8} (htag : tag = 36 ∨ tag = 42) {text : List UInt8} {n : ℤ}
    (h : Length False text n) (hn : -1 ≤ n) : isReplyLine (tag :: text) = true := by
  obtain ⟨h64, hrender⟩ := h.resolve_right And.left
  have hlength : isLength text = true := by
    rw [isLength, hrender, fromUtf8Lossy_asBytes, parseI64_toString h64]
    simp only [decide_eq_true hn, beq_self_eq_true, Bool.and_self]
  rcases htag with rfl | rfl <;> simp [isReplyLine, hlength]

/-- A RESP2 reply starts with such a line, which ends with a line feed. -/
theorem isReplyLine_of_encodes (h : Encodes False word v) {line body : List UInt8} {last : UInt8}
    (hword : word = line ++ 13 :: last :: body) (hline : 13 ∉ line) :
    last = 10 ∧ isReplyLine line = true := by
  have hstart : ∀ {header text tail : List UInt8}, Line False header text →
      word = header ++ tail → isReplyLine text = true → last = 10 ∧ isReplyLine line = true := by
    rintro header text tail ⟨htext, -, feed, hfeed, rfl⟩ hsplit hreply
    obtain rfl := hfeed.resolve_right id
    rw [hword, List.append_assoc] at hsplit
    obtain ⟨rfl, hrest⟩ := append_stop_inj hline htext hsplit
    exact ⟨(List.cons.inj hrest).1, hreply⟩
  have hall : word = word ++ [] := (List.append_nil word).symm
  cases h with
  | simple line => exact hstart line hall (isReplyLine_text (.inl rfl) _)
  | error line => exact hstart line hall (isReplyLine_text (.inr rfl) _)
  | int line number => exact hstart line hall (isReplyLine_int number)
  | @bulk header text bytes ending line length fits bodyEnd =>
    have hlength : (-1 : ℤ) ≤ bytes.length := by omega
    exact hstart line rfl (isReplyLine_length (.inl rfl) length hlength)
  | nil line length nilLength =>
    obtain rfl := nilLength.resolve_right And.left
    exact hstart line hall (isReplyLine_length (.inl rfl) length le_rfl)
  | @array header text body items line length fits words =>
    have hlength : (-1 : ℤ) ≤ items.length := by omega
    exact hstart line rfl (isReplyLine_length (.inr rfl) length hlength)
  | nilArray line length nilLength =>
    obtain rfl := nilLength.resolve_right And.left
    exact hstart line hall (isReplyLine_length (.inr rfl) length le_rfl)
  | emptyLine fallback line => exact fallback.elim
  | unknownTag fallback unknown line => exact fallback.elim

/-- A stream whose first line is none of a RESP2 reply, or has another byte for its line feed. -/
theorem not_encodes_of_line {line body : List UInt8} {last : UInt8} (hline : 13 ∉ line)
    (hbad : ¬(last = 10 ∧ isReplyLine line = true)) :
    ¬Encodes False (line ++ 13 :: last :: body) v := fun h ↦
  hbad (isReplyLine_of_encodes h rfl hline)

/-- The body of a RESP2 bulk string ends with a line end. -/
theorem eq_append_crlf_of_encodes {bytes : List UInt8} (h : Encodes False word (.bulk bytes)) :
    ∃ start, word = start ++ crlf := by
  cases h with
  | @bulk header text bytes ending line length fits bodyEnd =>
    obtain rfl := bodyEnd.resolve_right And.left
    exact ⟨header ++ bytes, (List.append_assoc _ _ _).symm⟩

end Strict

/-- A stream that is no RESP2 reply is read whole, as a value that the harness takes for the reply
of the model. -/
def Misread (stream : List UInt8) (v : Resp) (reply : Reply keyCount) : Prop :=
  read stream = .ok (v, []) ∧ repliesAgree reply v false = true ∧ ¬Encodes False stream v

/-- An unknown tag, an empty line, an integer, a length and a negative length that are none, a
padded length, and the wrong bytes at the end of a line and of a body. -/
theorem malformed_replies_read :
    Misread (asBytes "?OK\r\n") (.simple "OK") .ok ∧
      Misread (asBytes "\r\n") .nil .nil ∧
      Misread (asBytes ":\r\n") (.int 0) (.int 0) ∧
      Misread (asBytes "$\r\n") .nil .nil ∧
      Misread (asBytes "*-2\r\n") .nilArray .nil ∧
      Misread (asBytes "$+00\r\n\r\n") (.bulk []) (.str Str.empty) ∧
      Misread (asBytes "+OK\r+") (.simple "OK") .ok ∧
      Misread (asBytes "$0\r\n+O") (.bulk []) (.str Str.empty) ∧
      ¬∀ stream v rest, read stream = .ok (v, rest) →
        ∃ word, stream = word ++ rest ∧ Encodes False word v := by
  have hunknown : Misread (asBytes "?OK\r\n") (.simple "OK") .ok :=
    ⟨rfl, rfl, @not_encodes_of_line _ [63, 79, 75] [] 10 (by decide) (by decide)⟩
  have hempty : Misread (asBytes "\r\n") .nil .nil :=
    ⟨rfl, rfl, @not_encodes_of_line _ [] [] 10 (by decide) (by decide)⟩
  have hint : Misread (asBytes ":\r\n") (.int 0) (.int 0) :=
    ⟨rfl, rfl, @not_encodes_of_line _ [58] [] 10 (by decide) (by decide)⟩
  have hlength : Misread (asBytes "$\r\n") .nil .nil :=
    ⟨rfl, rfl, @not_encodes_of_line _ [36] [] 10 (by decide) (by decide)⟩
  have hnegative : Misread (asBytes "*-2\r\n") .nilArray .nil :=
    ⟨rfl, rfl, @not_encodes_of_line _ [42, 45, 50] [] 10 (by decide) (by decide)⟩
  have hpadded : Misread (asBytes "$+00\r\n\r\n") (.bulk []) (.str Str.empty) :=
    ⟨rfl, rfl, @not_encodes_of_line _ [36, 43, 48, 48] [13, 10] 10 (by decide) (by decide)⟩
  have hfeed : Misread (asBytes "+OK\r+") (.simple "OK") .ok :=
    ⟨rfl, rfl, @not_encodes_of_line _ [43, 79, 75] [] 43 (by decide) (by decide)⟩
  have hbody : Misread (asBytes "$0\r\n+O") (.bulk []) (.str Str.empty) := by
    refine ⟨rfl, rfl, fun h ↦ ?_⟩
    obtain ⟨start, hstart⟩ := eq_append_crlf_of_encodes h
    have hends : crlf <:+ asBytes "$0\r\n+O" := ⟨start, hstart.symm⟩
    exact absurd hends (by decide)
  refine ⟨hunknown, hempty, hint, hlength, hnegative, hpadded, hfeed, hbody, fun hvalid ↦ ?_⟩
  obtain ⟨word, hword, hencodes⟩ := hvalid _ _ _ hunknown.1
  rw [List.append_nil] at hword
  exact hunknown.2.2 (hword ▸ hencodes)

end RedisCvlr.Driver
