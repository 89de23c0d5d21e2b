import RedisCvlr.Driver.Text

/-!
# The RESP2 client

The replies and the client of `src/driver/resp.rs`. The connection is two byte streams: `cmdBytes`
is what `Client::cmd` writes, and `read` is `Client::read` on the bytes that are still unread; it
returns the value and what it leaves. A vector of more than `isize::MAX` bytes cannot be asked for:
the standard library panics. That smaller ones are allocated, and that no nesting exhausts the
stack, is taken for granted.
-/

set_option autoImplicit false
set_option relaxedAutoImplicit false

namespace RedisCvlr.Driver

open RedisCvlr.Model

/-! ### Replies -/

/-- Replies of a server. -/
inductive Resp
  | simple (text : String)
  | error (text : String)
  | int (n : ℤ)
  | bulk (bytes : List UInt8)
  | nil
  | array (items : List Resp)
  | nilArray

/-- `as_int`. -/
def Resp.asInt : Resp → Option ℤ
  | .int n => some n
  | _ => none

/-- `as_bulk`. -/
def Resp.asBulk : Resp → Option (List UInt8)
  | .bulk bytes => some bytes
  | _ => none

/-- `is_nil`. -/
def Resp.isNil : Resp → Bool
  | .nil => true
  | .nilArray => true
  | _ => false

/-! ### Writing a command -/

/-- The line end of the protocol. -/
def crlf : List UInt8 := asBytes "\r\n"

/-- The bytes of one argument. -/
def argBytes (arg : List UInt8) : List UInt8 :=
  asBytes ("$" ++ toString arg.length ++ "\r\n") ++ arg ++ crlf

/-- The bytes that `Client::cmd` writes. -/
def cmdBytes (args : List (List UInt8)) : List UInt8 :=
  args.foldl (fun written arg ↦ written ++ argBytes arg)
    (asBytes ("*" ++ toString args.length ++ "\r\n"))

/-! ### Reading a reply -/

/-- `isize::MAX`, for 64 bits. -/
def isizeMax : ℕ := 2 ^ 63 - 1

/-- `size_of::<Resp>()`: four of the variants hold a vector of 24 bytes, and the tag is next to
it. -/
def sizeOfResp : ℕ := 32

/-- Why a read returns no value: the connection ends, or the standard library panics because a
vector would be too large. The last is none of the source: it ends the recursion of the model and
does not occur (`read_ne_outOfFuel`). -/
inductive ReadFailure
  | unexpectedEof
  | capacityOverflow
  | outOfFuel
  deriving DecidableEq

/-- `read_exact` with a buffer of the given length. -/
def readExact (n : ℕ) (stream : List UInt8) : Except ReadFailure (List UInt8 × List UInt8) :=
  if n ≤ stream.length then .ok (stream.take n, stream.drop n) else .error .unexpectedEof

/-- `read_line`, with the bytes read so far: up to a carriage return, and one more byte, which is
not looked at. -/
def readLine (out : List UInt8) : List UInt8 → Except ReadFailure (List UInt8 × List UInt8)
  | [] => .error .unexpectedEof
  | byte :: stream =>
    if byte == 13 then do
      let (_, stream) ← readExact 1 stream
      return (out, stream)
    else readLine (out ++ [byte]) stream

/-- The body of a bulk string of a declared length and its line end, which is not looked at. The
buffer for both is allocated first. A negative length is nil. -/
def readBulk (n : ℤ) (stream : List UInt8) : Except ReadFailure (Resp × List UInt8) :=
  if n < 0 then .ok (.nil, stream)
  else if isizeMax < n.toNat + 2 then .error .capacityOverflow
  else do
    let (buf, stream) ← readExact (n.toNat + 2) stream
    return (.bulk (buf.take n.toNat), stream)

/-- The elements of an array, with those read so far. -/
def readElements (read : List UInt8 → Except ReadFailure (Resp × List UInt8)) :
    ℕ → List Resp → List UInt8 → Except ReadFailure (List Resp × List UInt8)
  | 0, items, stream => .ok (items, stream)
  | n + 1, items, stream => do
    let (item, stream) ← read stream
    readElements read n (items ++ [item]) stream

/-- An array of a declared length, which is allocated first. A negative length is the nil array. -/
def readArray (read : List UInt8 → Except ReadFailure (Resp × List UInt8)) (n : ℤ)
    (stream : List UInt8) : Except ReadFailure (Resp × List UInt8) :=
  if n < 0 then .ok (.nilArray, stream)
  else if isizeMax < n.toNat * sizeOfResp then .error .capacityOverflow
  else do
    let (items, stream) ← readElements read n.toNat [] stream
    return (.array items, stream)

/-- What the tag of a line makes of its text and of the stream after the line. -/
def readTagged (read : List UInt8 → Except ReadFailure (Resp × List UInt8)) (tag : UInt8)
    (text : String) (stream : List UInt8) : Except ReadFailure (Resp × List UInt8) :=
  match Char.ofNat tag.toNat with
  | '+' => .ok (.simple text, stream)
  | '-' => .ok (.error text, stream)
  | ':' => .ok (.int ((parseI64 text).getD 0), stream)
  | '$' => readBulk ((parseI64 text).getD (-1)) stream
  | '*' => readArray read ((parseI64 text).getD (-1)) stream
  | _ => .ok (.simple text, stream)

/-- `Client::read`, where the fuel bounds the nesting. -/
def readFuel : ℕ → List UInt8 → Except ReadFailure (Resp × List UInt8)
  | 0, _ => .error .outOfFuel
  | fuel + 1, stream => do
    let (line, stream) ← readLine [] stream
    match line with
    | [] => return (.nil, stream)
    | tag :: rest => readTagged (readFuel fuel) tag (fromUtf8Lossy rest) stream

/-- `Client::read`. Every value takes at least a byte, so there is fuel for every nesting. -/
def read (stream : List UInt8) : Except ReadFailure (Resp × List UInt8) :=
  readFuel (stream.length + 1) stream

end RedisCvlr.Driver
