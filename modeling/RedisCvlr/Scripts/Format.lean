import RedisCvlr.Driver.Text
import RedisCvlr.Library.Leb128
import RedisCvlr.Library.Reading

/-!
# The binary format of modules

WebAssembly 1.0 modules and the grammar of their binary format, as far as a reader of imports and
exports needs it: the contents of every other section are any bytes, and sections stand in any
number and order. So every well-formed module is one of these, with its custom sections and with
the padded numbers that LEB128 has.
-/

set_option autoImplicit false
set_option relaxedAutoImplicit false

namespace RedisCvlr.Scripts

open RedisCvlr.Driver RedisCvlr.Library

/-! ### Modules -/

/-- The sizes of a table or memory. -/
structure Limits where
  min : ℕ
  max : Option ℕ
  deriving DecidableEq

/-- Value types. -/
inductive ValType
  | i32
  | i64
  | f32
  | f64
  deriving DecidableEq

/-- What an import asks for. -/
inductive ImportDesc
  | func (typeIdx : ℕ)
  | table (limits : Limits)
  | mem (limits : Limits)
  | global (type : ValType) (mutable : Bool)
  deriving DecidableEq

/-- Imports. -/
structure Import where
  module : String
  name : String
  desc : ImportDesc
  deriving DecidableEq

/-- What an export gives. -/
inductive ExportKind
  | func
  | table
  | mem
  | global
  deriving DecidableEq

/-- Exports. -/
structure Export where
  name : String
  kind : ExportKind
  index : ℕ
  deriving DecidableEq

/-- Sections. -/
inductive Section
  | imports (entries : List Import)
  | exports (entries : List Export)
  | other (id : UInt8) (contents : List UInt8)
  deriving DecidableEq

/-- Modules. -/
structure WasmModule where
  sections : List Section
  deriving DecidableEq

/-- The imports in a section. -/
def Section.importList : Section → List Import
  | .imports entries => entries
  | _ => []

/-- The exports in a section. -/
def Section.exportList : Section → List Export
  | .exports entries => entries
  | _ => []

/-- The imports of a module, in order. -/
def WasmModule.imports (m : WasmModule) : List Import := m.sections.flatMap Section.importList

/-- The exports of a module, in order. -/
def WasmModule.exports (m : WasmModule) : List Export := m.sections.flatMap Section.exportList

/-! ### Words -/

/-- Numbers. -/
abbrev U32 : Grammar UInt8 ℕ := Leb128 32

/-- A number of items and the items. -/
inductive VecWord {α : Type} (G : Grammar UInt8 α) : Grammar UInt8 (List α)
  | vec {count body : List UInt8} {items : List α} (length : U32 count items.length)
    (words : Words G body items) : VecWord G (count ++ body) items

/-- A number of bytes and the bytes of a text. -/
inductive NameWord : Grammar UInt8 String
  | name {size : List UInt8} {s : String} (length : U32 size (asBytes s).length) :
    NameWord (size ++ asBytes s) s

/-- A flag, a minimum, and a maximum if the flag is set. -/
inductive LimitsWord : Grammar UInt8 Limits
  | min {least : List UInt8} {n : ℕ} (hleast : U32 least n) : LimitsWord (0 :: least) ⟨n, none⟩
  | max {least most : List UInt8} {n m : ℕ} (hleast : U32 least n) (hmost : U32 most m) :
    LimitsWord (1 :: (least ++ most)) ⟨n, some m⟩

/-- The byte of a value type. -/
def ValType.byte : ValType → UInt8
  | .i32 => 0x7F
  | .i64 => 0x7E
  | .f32 => 0x7D
  | .f64 => 0x7C

/-- A kind and what it needs. The elements of a table are functions, of type `0x70`. -/
inductive ImportDescWord : Grammar UInt8 ImportDesc
  | func {index : List UInt8} {x : ℕ} (hindex : U32 index x) : ImportDescWord (0 :: index) (.func x)
  | table {size : List UInt8} {limits : Limits} (hsize : LimitsWord size limits) :
    ImportDescWord (1 :: 0x70 :: size) (.table limits)
  | mem {size : List UInt8} {limits : Limits} (hsize : LimitsWord size limits) :
    ImportDescWord (2 :: size) (.mem limits)
  | global (type : ValType) (mutable : Bool) :
    ImportDescWord [3, type.byte, if mutable then 1 else 0] (.global type mutable)

/-- Two names and a descriptor. -/
inductive ImportWord : Grammar UInt8 Import
  | entry {first second last : List UInt8} {module name : String} {desc : ImportDesc}
    (hmodule : NameWord first module) (hname : NameWord second name)
    (hdesc : ImportDescWord last desc) :
    ImportWord (first ++ (second ++ last)) ⟨module, name, desc⟩

/-- The byte of a kind of export. -/
def ExportKind.byte : ExportKind → UInt8
  | .func => 0
  | .table => 1
  | .mem => 2
  | .global => 3

/-- A name, a kind and an index. -/
inductive ExportWord : Grammar UInt8 Export
  | entry {first last : List UInt8} {name : String} {kind : ExportKind} {x : ℕ}
    (hname : NameWord first name) (hindex : U32 last x) :
    ExportWord (first ++ kind.byte :: last) ⟨name, kind, x⟩

/-- An id, the size of the contents and the contents. -/
inductive SectionWord : Grammar UInt8 Section
  | imports {size contents : List UInt8} {entries : List Import} (hsize : U32 size contents.length)
    (hcontents : VecWord ImportWord contents entries) :
    SectionWord (2 :: (size ++ contents)) (.imports entries)
  | exports {size contents : List UInt8} {entries : List Export} (hsize : U32 size contents.length)
    (hcontents : VecWord ExportWord contents entries) :
    SectionWord (7 :: (size ++ contents)) (.exports entries)
  | other {id : UInt8} {size contents : List UInt8} (hid : id ≠ 2 ∧ id ≠ 7)
    (hsize : U32 size contents.length) : SectionWord (id :: (size ++ contents)) (.other id contents)

/-- The magic number, the version and the sections. -/
inductive ModuleWord : Grammar UInt8 WasmModule
  | module {body : List UInt8} {sections : List Section} (words : Words SectionWord body sections) :
    ModuleWord (asBytes "\x00asm" ++ ([1, 0, 0, 0] ++ body)) ⟨sections⟩

end RedisCvlr.Scripts
