import RedisCvlr.Driver.Text
import RedisCvlr.Library.Reading

/-!
# The shape of an artifact

The script `scripts/wasm_shape.py`, on the bytes of the file it opens. Cursors are natural numbers,
and each function returns the cursor that it leaves. What the script prints is left out: `Report` is
what it has computed when it returns.
-/

set_option autoImplicit false
set_option relaxedAutoImplicit false

namespace RedisCvlr.Scripts

open RedisCvlr.Driver RedisCvlr.Library

/-! ### Reading -/

/-- What ends the script early. The last is not an error of the source: it ends the loop of the
model and does not occur (`main_ne_outOfFuel`). -/
inductive PyError
  | indexError
  | unicodeDecodeError
  | systemExit (message : String)
  | outOfFuel
  deriving DecidableEq

/-- `d[p]`. -/
def byteAt (d : List UInt8) (p : ℕ) : Except PyError UInt8 :=
  match d[p]? with
  | some b => .ok b
  | none => .error .indexError

/-- The loop of `u32` on the bytes from the cursor on, with the number read so far, the shift and
the cursor. -/
def u32Loop : List UInt8 → ℕ → ℕ → ℕ → Except PyError (ℕ × ℕ)
  | [], _, _, _ => .error .indexError
  | b :: unread, r, s, p =>
    let r := r ||| (b.toNat &&& 0x7f) <<< s
    if b.toNat &&& 0x80 = 0 then .ok (r, p + 1) else u32Loop unread r (s + 7) (p + 1)

/-- `u32`. -/
def u32 (d : List UInt8) (p : ℕ) : Except PyError (ℕ × ℕ) := u32Loop (d.drop p) 0 0 p

/-- `bytes.decode()`: UTF-8, where any other sequence is an error. -/
def decode (bytes : List UInt8) : Except PyError String :=
  match String.fromUTF8? bytes.toByteArray with
  | some s => .ok s
  | none => .error .unicodeDecodeError

/-- A length and a text of that many bytes. The slice ends with the data. -/
def readName (d : List UInt8) (q : ℕ) : Except PyError (String × ℕ) := do
  let (l, q) ← u32 d q
  let nm ← decode ((d.drop q).take l)
  return (nm, q + l)

/-! ### Imports -/

/-- The flag, the minimum and the optional maximum of a table or memory. -/
def skipLimits (d : List UInt8) (q : ℕ) : Except PyError ℕ := do
  let fl ← byteAt d q
  let (_, q) ← u32 d (q + 1)
  if fl ≠ 0 then
    let (_, q) ← u32 d q
    return q
  else return q

/-- The descriptor of an import, by its kind. -/
def skipDescriptor (d : List UInt8) (kind : UInt8) (q : ℕ) : Except PyError ℕ :=
  if kind = 0 then do
    let (_, q) ← u32 d q
    return q
  else if kind = 1 then skipLimits d (q + 1)
  else if kind = 2 then skipLimits d q
  else if kind = 3 then .ok (q + 2)
  else .ok q

/-- One turn of the loop over the imports. -/
def readImport (d : List UInt8) (q : ℕ) : Except PyError ((String × String) × ℕ) := do
  let (mod, q) ← readName d q
  let (nm, q) ← readName d q
  let kind ← byteAt d q
  let q ← skipDescriptor d kind (q + 1)
  return ((mod, nm), q)

/-- One turn of the loop over the exports. -/
def readExport (d : List UInt8) (q : ℕ) : Except PyError (String × ℕ) := do
  let (nm, q) ← readName d q
  let (_, q) ← u32 d (q + 1)
  return (nm, q)

/-! ### Sections -/

/-- `imports` and `exports`. -/
structure Interface where
  imports : List (String × String)
  exports : List String
  deriving DecidableEq

/-- One turn of the loop over the sections, which goes on after the declared size whatever has been
read inside. -/
def readSection (d : List UInt8) (seen : Interface) (p : ℕ) : Except PyError (Interface × ℕ) := do
  let sid ← byteAt d p
  let (size, p) ← u32 d (p + 1)
  if sid = 2 then
    let (n, q) ← u32 d p
    let (imports, _) ← readMany (readImport d) n seen.imports q
    return ({ seen with imports := imports }, p + size)
  else if sid = 7 then
    let (n, q) ← u32 d p
    let (exports, _) ← readMany (readExport d) n seen.exports q
    return ({ seen with exports := exports }, p + size)
  else return (seen, p + size)

/-- The loop over the sections, where the fuel bounds their number. -/
def readSections (d : List UInt8) : ℕ → Interface → ℕ → Except PyError Interface
  | 0, _, _ => .error .outOfFuel
  | fuel + 1, seen, p =>
    if p < d.length then do
      let (seen, p) ← readSection d seen p
      readSections d fuel seen p
    else .ok seen

/-! ### The report -/

/-- `mods.setdefault(m, []).append(n)`, on the entries in the order in which they were made. -/
def addName (m n : String) : List (String × List String) → List (String × List String)
  | [] => [(m, [n])]
  | (m', ns) :: mods => if m' = m then (m', ns ++ [n]) :: mods else (m', ns) :: addName m n mods

/-- `mods`. -/
def modsOf (imports : List (String × String)) : List (String × List String) :=
  imports.foldl (fun mods i ↦ addName i.1 i.2 mods) []

/-- `str.startswith`. -/
def startsWith (s start : String) : Bool := start.toList.isPrefixOf s.toList

/-- What `main` has computed when it returns, and the status that it returns. -/
structure Report where
  imports : List (String × String)
  exports : List String
  mods : List (String × List String)
  bad : List String
  nonCvt : List String
  rules : List String
  status : ℕ
  deriving DecidableEq

/-- The rest of `main`, on what it has collected. -/
def report (seen : Interface) : Report :=
  let mods := modsOf seen.imports
  let bad := (mods.map Prod.fst).filter (· ≠ "env")
  { imports := seen.imports
    exports := seen.exports
    mods := mods
    bad := bad
    nonCvt := (seen.imports.filter fun i ↦ i.1 = "env" ∧ ¬startsWith i.2 "CVT_").map Prod.snd
    rules := seen.exports.filter fun e ↦ e ≠ "memory" ∧ ¬startsWith e "__"
    status := if bad ≠ [] then 1 else 0 }

/-- The first four bytes of a module. -/
def magic : List UInt8 := asBytes "\x00asm"

/-- `main` on the bytes `d` of the file at `path`. A turn of the loop goes on by at least a byte, so
there is fuel for every section. -/
def main (path : String) (d : List UInt8) : Except PyError Report :=
  if d.take 4 ≠ magic then .error (.systemExit (path ++ ": not a wasm module"))
  else do
    let seen ← readSections d (d.length + 1) ⟨[], []⟩ 8
    return report seen

/-! ### Termination -/

section Termination

variable {d : List UInt8}

theorem byteAt_ne_outOfFuel (p : ℕ) : byteAt d p ≠ .error .outOfFuel := by
  rw [byteAt]
  split <;> rintro ⟨⟩

theorem u32Loop_ne_outOfFuel (unread : List UInt8) (r s p : ℕ) :
    u32Loop unread r s p ≠ .error .outOfFuel := by
  induction unread generalizing r s p with
  | nil => rintro ⟨⟩
  | cons b unread ih =>
    rw [u32Loop]
    split_ifs
    · rintro ⟨⟩
    · exact ih _ _ _

theorem u32_ne_outOfFuel (p : ℕ) : u32 d p ≠ .error .outOfFuel := u32Loop_ne_outOfFuel _ _ _ _

theorem readName_ne_outOfFuel (q : ℕ) : readName d q ≠ .error .outOfFuel := by
  refine bind_ne_error (u32_ne_outOfFuel q) fun _ ↦ bind_ne_error ?_ fun _ ↦ ?_
  · rw [decode]
    split <;> rintro ⟨⟩
  · rintro ⟨⟩

theorem skipLimits_ne_outOfFuel (q : ℕ) : skipLimits d q ≠ .error .outOfFuel := by
  refine bind_ne_error (byteAt_ne_outOfFuel q) fun _ ↦
    bind_ne_error (u32_ne_outOfFuel _) fun _ ↦ ?_
  show (if _ then _ else _) ≠ _
  split_ifs
  · refine bind_ne_error (u32_ne_outOfFuel _) fun _ ↦ ?_
    rintro ⟨⟩
  · rintro ⟨⟩

theorem skipDescriptor_ne_outOfFuel (kind : UInt8) (q : ℕ) :
    skipDescriptor d kind q ≠ .error .outOfFuel := by
  rw [skipDescriptor]
  split_ifs
  · refine bind_ne_error (u32_ne_outOfFuel _) fun _ ↦ ?_
    rintro ⟨⟩
  · exact skipLimits_ne_outOfFuel _
  · exact skipLimits_ne_outOfFuel _
  · rintro ⟨⟩
  · rintro ⟨⟩

theorem readImport_ne_outOfFuel (q : ℕ) : readImport d q ≠ .error .outOfFuel := by
  refine bind_ne_error (readName_ne_outOfFuel _) fun _ ↦
    bind_ne_error (readName_ne_outOfFuel _) fun _ ↦ bind_ne_error (byteAt_ne_outOfFuel _) fun _ ↦
    bind_ne_error (skipDescriptor_ne_outOfFuel _ _) fun _ ↦ ?_
  rintro ⟨⟩

theorem readExport_ne_outOfFuel (q : ℕ) : readExport d q ≠ .error .outOfFuel := by
  refine bind_ne_error (readName_ne_outOfFuel _) fun _ ↦
    bind_ne_error (u32_ne_outOfFuel _) fun _ ↦ ?_
  rintro ⟨⟩

theorem readSection_ne_outOfFuel (seen : Interface) (p : ℕ) :
    readSection d seen p ≠ .error .outOfFuel := by
  refine bind_ne_error (byteAt_ne_outOfFuel _) fun _ ↦
    bind_ne_error (u32_ne_outOfFuel _) fun _ ↦ ?_
  show (if _ then _ else if _ then _ else _) ≠ _
  split_ifs
  · refine bind_ne_error (u32_ne_outOfFuel _) fun _ ↦
      bind_ne_error (readMany_ne_error readImport_ne_outOfFuel _ _ _) fun _ ↦ ?_
    rintro ⟨⟩
  · refine bind_ne_error (u32_ne_outOfFuel _) fun _ ↦
      bind_ne_error (readMany_ne_error readExport_ne_outOfFuel _ _ _) fun _ ↦ ?_
    rintro ⟨⟩
  · rintro ⟨⟩

theorem lt_of_u32Loop {unread : List UInt8} {r s p n p' : ℕ}
    (h : u32Loop unread r s p = .ok (n, p')) : p < p' := by
  induction unread generalizing r s p with
  | nil => cases h
  | cons b unread ih =>
    rw [u32Loop] at h
    split_ifs at h
    · obtain ⟨-, rfl⟩ := Prod.mk.inj (Except.ok.inj h)
      exact Nat.lt_succ_self p
    · exact Nat.lt_of_succ_lt (ih h)

/-- A turn of the loop over the sections goes on by at least a byte. -/
theorem lt_of_readSection {seen seen' : Interface} {p p' : ℕ}
    (h : readSection d seen p = .ok (seen', p')) : p < p' := by
  obtain ⟨sid, -, h⟩ := bind_eq_ok.mp h
  obtain ⟨⟨size, q⟩, hu32, h⟩ := bind_eq_ok.mp h
  have hq : p + 1 < q := lt_of_u32Loop hu32
  have hp' : p' = q + size := by
    change (if _ then _ else if _ then _ else _) = _ at h
    split_ifs at h
    · obtain ⟨_, -, h⟩ := bind_eq_ok.mp h
      obtain ⟨_, -, h⟩ := bind_eq_ok.mp h
      exact (Prod.mk.inj (Except.ok.inj h)).2.symm
    · obtain ⟨_, -, h⟩ := bind_eq_ok.mp h
      obtain ⟨_, -, h⟩ := bind_eq_ok.mp h
      exact (Prod.mk.inj (Except.ok.inj h)).2.symm
    · exact (Prod.mk.inj (Except.ok.inj h)).2.symm
  omega

/-- The loop ends when its fuel is more than the bytes that are left, by induction on the fuel. -/
theorem readSections_ne_outOfFuel {fuel p : ℕ} (hfuel : d.length < fuel + p)
    (hpos : 0 < fuel) (seen : Interface) : readSections d fuel seen p ≠ .error .outOfFuel := by
  induction fuel generalizing p seen with
  | zero => exact absurd hpos (Nat.lt_irrefl 0)
  | succ fuel ih =>
    rw [readSections]
    split_ifs with hlt
    · cases hread : readSection d seen p with
      | error e =>
        rintro ⟨⟩
        exact readSection_ne_outOfFuel seen p hread
      | ok next =>
        have hnext := lt_of_readSection hread
        exact ih (by omega) (by omega) next.1
    · rintro ⟨⟩

/-- `main` terminates on every file. -/
theorem main_ne_outOfFuel (path : String) : main path d ≠ .error .outOfFuel := by
  rw [main]
  split_ifs
  · rintro ⟨⟩
  · refine bind_ne_error (readSections_ne_outOfFuel (by omega) (Nat.succ_pos _) _) fun _ ↦ ?_
    rintro ⟨⟩

end Termination

end RedisCvlr.Scripts
