import RedisCvlr.Driver.Grammar

/-!
# Framing of replies

`respBytes` is the RESP2 encoding of a reply. The client reads an encoded reply back and leaves
exactly what follows it, however replies are nested and whatever bytes a body holds, so a sequence
of replies is read back reply by reply.
-/

set_option autoImplicit false
set_option relaxedAutoImplicit false

namespace RedisCvlr.Driver

open RedisCvlr.Library RedisCvlr.Model

/-! ### The encoding -/

/-- A line of the protocol: a tag, a text and the line end. -/
def lineBytes (tag text : String) : List UInt8 := asBytes tag ++ asBytes text ++ crlf

mutual

/-- The RESP2 encoding of a reply. -/
def respBytes : Resp → List UInt8
  | .simple text => lineBytes "+" text
  | .error text => lineBytes "-" text
  | .int n => lineBytes ":" (toString n)
  | .bulk bytes => lineBytes "$" (toString bytes.length) ++ (bytes ++ crlf)
  | .nil => lineBytes "$" "-1"
  | .array items => lineBytes "*" (toString items.length) ++ respListBytes items
  | .nilArray => lineBytes "*" "-1"

/-- The encodings of replies, one after the other. -/
def respListBytes : List Resp → List UInt8
  | [] => []
  | item :: items => respBytes item ++ respListBytes items

end

mutual

/-- The replies that a server can send and a vector can hold: texts have no carriage return, and
integers are `i64`. -/
def Resp.Sendable : Resp → Prop
  | .simple text => '\r' ∉ text.toList
  | .error text => '\r' ∉ text.toList
  | .int n => IsI64 n
  | .bulk bytes => BulkFits bytes.length
  | .nil => True
  | .array items => ArrayFits items.length ∧ AllSendable items
  | .nilArray => True

/-- All the replies are sendable. -/
def AllSendable : List Resp → Prop
  | [] => True
  | item :: items => item.Sendable ∧ AllSendable items

end

theorem respListBytes_eq (vs : List Resp) : respListBytes vs = (vs.map respBytes).flatten := by
  induction vs with
  | nil => rfl
  | cons v vs ih => rw [respListBytes, ih, List.map_cons, List.flatten_cons]

theorem allSendable_iff (vs : List Resp) : AllSendable vs ↔ ∀ v ∈ vs, v.Sendable := by
  induction vs with
  | nil => exact ⟨fun _ _ hv ↦ absurd hv List.not_mem_nil, fun _ ↦ trivial⟩
  | cons v vs ih => rw [AllSendable, ih, List.forall_mem_cons]

/-! ### The encoding is read -/

section Words

/-- A line with a tag is a line of the grammar. A line feed in its text is left alone. -/
theorem line_lineBytes {tag text : String} {byte : UInt8} (htag : asBytes tag = [byte])
    (hbyte : byte ≠ 13) (htext : '\r' ∉ text.toList) :
    Line True (lineBytes tag text) (byte :: asBytes text) := by
  refine ⟨?_, .inr trivial, 10, .inl rfl, ?_⟩
  · rw [List.mem_cons, not_or]
    exact ⟨Ne.symm hbyte, not_mem_asBytes htext⟩
  · rw [lineBytes, htag, crlf_eq, List.singleton_append]

/-- The rendering of an `i64` is its number. -/
theorem number_toString {n : ℤ} (hn : IsI64 n) : Number True (asBytes (toString n)) n := by
  rw [Number, fromUtf8Lossy_asBytes]
  exact .inl (parseI64_toString hn)

/-- The rendering of a declared length. -/
theorem length_toString {n : ℕ} (hn : n ≤ isizeMax) :
    Length True (asBytes (toString n)) (n : ℤ) := by
  have h64 : IsI64 (n : ℤ) := by
    unfold isizeMax at hn
    unfold IsI64
    omega
  have hrender : toString n = toString (n : ℤ) := by
    rw [toString_of_nonneg (Int.natCast_nonneg n), Int.toNat_natCast]
  rw [hrender]
  exact .inl ⟨h64, rfl⟩

theorem BulkFits.of_le {n m : ℕ} (h : BulkFits m) (hle : n ≤ m) : BulkFits n :=
  (Nat.add_le_add_right hle 2).trans h

theorem ArrayFits.of_le {n m : ℕ} (h : ArrayFits m) (hle : n ≤ m) : ArrayFits n :=
  (Nat.mul_le_mul_right sizeOfResp hle).trans h

theorem le_isizeMax_of_bulkFits {n : ℕ} (h : BulkFits n) : n ≤ isizeMax :=
  (Nat.le_add_right n 2).trans h

theorem le_isizeMax_of_arrayFits {n : ℕ} (h : ArrayFits n) : n ≤ isizeMax :=
  (Nat.le_mul_of_pos_right n (by decide)).trans h

theorem length_nil : Length True (asBytes "-1") (-1) := .inl ⟨by decide, rfl⟩

mutual

/-- The encoding of a reply is a word of the grammar, by induction on the reply. -/
theorem encodes_respBytes : ∀ v : Resp, v.Sendable → Encodes True (respBytes v) v
  | .simple text, hv => by
    rw [Resp.Sendable] at hv
    exact .simple (line_lineBytes (show asBytes "+" = [43] from rfl) (by decide) hv) (.inl rfl)
  | .error text, hv => by
    rw [Resp.Sendable] at hv
    exact .error (line_lineBytes (show asBytes "-" = [45] from rfl) (by decide) hv) (.inl rfl)
  | .int n, hv => by
    rw [Resp.Sendable] at hv
    exact .int (line_lineBytes rfl (by decide) (return_notMem_toString_int n))
      (number_toString hv)
  | .bulk bytes, hv => by
    rw [Resp.Sendable] at hv
    exact .bulk (line_lineBytes rfl (by decide) (return_notMem_toString_nat bytes.length))
      (length_toString (le_isizeMax_of_bulkFits hv)) hv (.inl rfl)
  | .nil, _ => .nil (line_lineBytes rfl (by decide) (by decide)) length_nil (.inl rfl)
  | .array items, hv => by
    rw [Resp.Sendable] at hv
    exact .array (line_lineBytes rfl (by decide) (return_notMem_toString_nat items.length))
      (length_toString (le_isizeMax_of_arrayFits hv.1)) hv.1 (words_respListBytes items hv.2)
  | .nilArray, _ => .nilArray (line_lineBytes rfl (by decide) (by decide)) length_nil (.inl rfl)

theorem words_respListBytes : ∀ items : List Resp, AllSendable items →
    Words (Encodes True) (respListBytes items) items
  | [], _ => .nil
  | item :: items, hv => by
    rw [AllSendable] at hv
    exact .cons (encodes_respBytes item hv.1) (words_respListBytes items hv.2)

end

end Words

/-! ### Replies are read back -/

section Replies

theorem read_respBytes {v : Resp} (hv : v.Sendable) (rest : List UInt8) :
    read (respBytes v ++ rest) = .ok (v, rest) :=
  read_of_encodes (encodes_respBytes v hv) rest

/-- Replies one after the other are read one by one. -/
theorem readElements_read {vs : List Resp} (hvs : AllSendable vs) (rest : List UInt8) :
    readElements read vs.length [] (respListBytes vs ++ rest) = .ok (vs, rest) := by
  have hread : Reads id (Encodes True) read := by
    intro word v henc s tail hs
    exact ⟨tail, (congrArg read hs).trans (read_of_encodes henc tail), rfl⟩
  obtain ⟨_, hmany, rfl⟩ :=
    hread.many (words_respListBytes vs hvs) (rfl : id (respListBytes vs ++ rest) = _) []
  rw [readElements_eq_readMany, hmany]
  rfl

/-- A reply is read back from its encoding, whatever follows, and nothing of what follows is read.
Hence a sequence of replies is read back in order. -/
theorem replies_framed :
    (∀ v : Resp, v.Sendable → ∀ rest, read (respBytes v ++ rest) = .ok (v, rest)) ∧
    ∀ vs : List Resp, (∀ v ∈ vs, v.Sendable) → ∀ rest,
      readElements read vs.length [] ((vs.map respBytes).flatten ++ rest) = .ok (vs, rest) := by
  refine ⟨fun v hv rest ↦ read_respBytes hv rest, fun vs hvs rest ↦ ?_⟩
  rw [← respListBytes_eq]
  exact readElements_read ((allSendable_iff vs).mpr hvs) rest

/-- A nested reply whose body holds a line end, alone and followed by another reply. -/
theorem replies_framed_nested :
    let nested : Resp := .array [.bulk [13, 10, 0], .array [], .nil, .int (-7)]
    read (respBytes nested ++ asBytes "+") = .ok (nested, asBytes "+") ∧
      readElements read 2 [] (([nested, .simple "OK"].map respBytes).flatten ++ asBytes "+") =
        .ok ([nested, .simple "OK"], asBytes "+") := by
  intro nested
  have hbody : (Resp.bulk [13, 10, 0]).Sendable := show BulkFits 3 by decide
  have hint : (Resp.int (-7)).Sendable := show IsI64 (-7) by decide
  have hempty : (Resp.array []).Sendable := ⟨show ArrayFits 0 by decide, trivial⟩
  have hnested : nested.Sendable :=
    ⟨show ArrayFits 4 by decide, hbody, hempty, trivial, hint, trivial⟩
  have hok : (Resp.simple "OK").Sendable := show '\r' ∉ "OK".toList by decide
  refine ⟨replies_framed.1 nested hnested _, replies_framed.2 [nested, .simple "OK"] ?_ _⟩
  rw [List.forall_mem_cons, List.forall_mem_singleton]
  exact ⟨hnested, hok⟩

end Replies

/-! ### The fuel suffices -/

section Fuel

variable {α β : Type}

/-- A read that does not run out of fuel and leaves fewer bytes than given. -/
def LeavesLess (n : ℕ) : Except ReadFailure (α × List UInt8) → Prop
  | .ok (_, rest) => rest.length < n
  | .error e => e ≠ .outOfFuel

theorem LeavesLess.mono {n m : ℕ} (hle : n ≤ m) {result : Except ReadFailure (α × List UInt8)}
    (h : LeavesLess n result) : LeavesLess m result := by
  cases result with
  | ok value => exact lt_of_lt_of_le h hle
  | error e => exact h

theorem LeavesLess.bind {n m : ℕ} {first : Except ReadFailure (α × List UInt8)}
    {next : α × List UInt8 → Except ReadFailure (β × List UInt8)} (hfirst : LeavesLess n first)
    (hnext : ∀ a rest, rest.length < n → LeavesLess m (next (a, rest))) :
    LeavesLess m (first >>= next) := by
  cases first with
  | ok value => exact hnext value.1 value.2 hfirst
  | error e => exact hfirst

theorem leavesLess_readExact (n : ℕ) (stream : List UInt8) :
    LeavesLess (stream.length + 1) (readExact n stream) := by
  rw [readExact]
  split_ifs
  · show (stream.drop n).length < stream.length + 1
    rw [List.length_drop]
    omega
  · show ReadFailure.unexpectedEof ≠ .outOfFuel
    decide

theorem leavesLess_readLine (out stream : List UInt8) :
    LeavesLess stream.length (readLine out stream) := by
  induction stream generalizing out with
  | nil =>
    show ReadFailure.unexpectedEof ≠ .outOfFuel
    decide
  | cons byte stream ih =>
    rw [readLine]
    split_ifs
    · exact (leavesLess_readExact 1 stream).bind fun _ _ hrest ↦ hrest
    · exact (ih (out ++ [byte])).mono (Nat.le_succ _)

theorem leavesLess_readBulk (n : ℤ) (stream : List UInt8) :
    LeavesLess (stream.length + 1) (readBulk n stream) := by
  rw [readBulk]
  split_ifs
  · exact Nat.lt_succ_self _
  · show ReadFailure.capacityOverflow ≠ .outOfFuel
    decide
  · exact (leavesLess_readExact _ stream).bind fun _ _ hrest ↦ hrest

section Array

variable {read : List UInt8 → Except ReadFailure (Resp × List UInt8)} {fuel : ℕ}

theorem leavesLess_readElements
    (hread : ∀ stream, stream.length < fuel → LeavesLess stream.length (read stream)) (n : ℕ)
    (items : List Resp) (stream : List UInt8) (hstream : stream.length < fuel) :
    LeavesLess (stream.length + 1) (readElements read n items stream) := by
  induction n generalizing items stream with
  | zero => exact Nat.lt_succ_self _
  | succ n ih =>
    refine (hread stream hstream).bind fun item rest hrest ↦ ?_
    exact (ih (items ++ [item]) rest (hrest.trans hstream)).mono (Nat.succ_le_succ hrest.le)

theorem leavesLess_readArray
    (hread : ∀ stream, stream.length < fuel → LeavesLess stream.length (read stream)) (n : ℤ)
    (stream : List UInt8) (hstream : stream.length < fuel) :
    LeavesLess (stream.length + 1) (readArray read n stream) := by
  rw [readArray]
  split_ifs
  · exact Nat.lt_succ_self _
  · show ReadFailure.capacityOverflow ≠ .outOfFuel
    decide
  · exact (leavesLess_readElements hread _ [] stream hstream).bind fun _ _ hrest ↦ hrest

theorem leavesLess_readTagged
    (hread : ∀ stream, stream.length < fuel → LeavesLess stream.length (read stream)) (tag : UInt8)
    (text : String) (stream : List UInt8) (hstream : stream.length < fuel) :
    LeavesLess (stream.length + 1) (readTagged read tag text stream) := by
  rw [readTagged]
  split
  · exact Nat.lt_succ_self _
  · exact Nat.lt_succ_self _
  · exact Nat.lt_succ_self _
  · exact leavesLess_readBulk _ stream
  · exact leavesLess_readArray hread _ stream hstream
  · exact Nat.lt_succ_self _

end Array

/-- With more fuel than bytes a read does not run out of fuel, by induction on the fuel: the line of
an array is shorter than the stream, so its elements have enough fuel too. -/
theorem leavesLess_readFuel (fuel : ℕ) (stream : List UInt8) (hfuel : stream.length < fuel) :
    LeavesLess stream.length (readFuel fuel stream) := by
  induction fuel generalizing stream with
  | zero => exact absurd hfuel (Nat.not_lt_zero _)
  | succ fuel ih =>
    rw [readFuel]
    refine (leavesLess_readLine [] stream).bind fun line rest hrest ↦ ?_
    cases line with
    | nil => exact hrest
    | cons tag text =>
      exact (leavesLess_readTagged ih tag _ rest (by omega)).mono hrest

/-- `Client::read` terminates on every stream. -/
theorem read_ne_outOfFuel (stream : List UInt8) : read stream ≠ .error .outOfFuel := by
  intro hfuel
  have hless := leavesLess_readFuel (stream.length + 1) stream (Nat.lt_succ_self _)
  rw [show readFuel (stream.length + 1) stream = .error .outOfFuel from hfuel] at hless
  exact hless rfl

end Fuel

end RedisCvlr.Driver
