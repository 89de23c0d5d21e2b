import RedisCvlr.Scripts.Format
import RedisCvlr.Scripts.WasmShape

/-!
# Collecting an interface

The script reads each part of the format by leaving its cursor behind the word of that part, so that
it collects the imports and exports of every module (`interface_collected`).
-/

set_option autoImplicit false
set_option relaxedAutoImplicit false

namespace RedisCvlr.Scripts

open RedisCvlr.Driver RedisCvlr.Library

variable {d : List UInt8}

/-! ### Numbers and names -/

theorem byteAt_eq {b : UInt8} {rest : List UInt8} {p : ℕ} (h : unreadFrom d p = b :: rest) :
    byteAt d p = .ok b := by
  rw [byteAt, getElem?_of_unreadFrom h]

/-- The loop of `u32` adds the digits of a word to what it has read, by induction on the word. -/
theorem u32Loop_append {N n : ℕ} {word : List UInt8} (hword : Leb128 N word n)
    (rest : List UInt8) (r s p : ℕ) :
    u32Loop (word ++ rest) r s p = .ok (r ||| n <<< s, p + word.length) := by
  induction hword generalizing r s p with
  | last low fits =>
    show (if _ then _ else _) = _
    rw [if_pos (and_top_eq_zero_iff.mpr low), and_digit_of_low low]
    rfl
  | @more N n b word high room hword ih =>
    have htop : ¬b.toNat &&& 0x80 = 0 := mt and_top_eq_zero_iff.mp (not_lt.mpr high)
    have hdigit : b.toNat - 2 ^ 7 < 2 ^ 7 := by
      have hbyte : b.toNat < 2 ^ 8 := b.toNat_lt
      omega
    show (if _ then _ else u32Loop (word ++ rest) _ (s + 7) (p + 1)) = _
    rw [if_neg htop, ih, and_digit_of_high high, Nat.or_assoc, shift_digits hdigit,
      List.length_cons, Nat.add_assoc, Nat.add_comm 1]

theorem reads_u32 : Reads (unreadFrom d) U32 (u32 d) := by
  intro word n hword p rest hunread
  refine ⟨p + word.length, ?_, unreadFrom_add hunread⟩
  rw [u32, show d.drop p = word ++ rest from hunread, u32Loop_append hword, Nat.shiftLeft_zero,
    Nat.zero_or]

theorem decode_asBytes (s : String) : decode (asBytes s) = .ok s := by
  have hbytes : (asBytes s).toByteArray = s.toByteArray := String.utf8Encode_toList
  rw [decode, hbytes, String.fromUTF8?, dif_pos s.isValidUTF8]
  rfl

theorem reads_name : Reads (unreadFrom d) NameWord (readName d) := by
  rintro word s ⟨hsize⟩ q rest hunread
  rw [List.append_assoc] at hunread
  obtain ⟨q', hsize, hq'⟩ := reads_u32 hsize hunread
  have hslice : (d.drop q').take (asBytes s).length = asBytes s := by
    rw [show d.drop q' = asBytes s ++ rest from hq', List.take_left]
  refine ⟨q' + (asBytes s).length, ?_, unreadFrom_add hq'⟩
  simp only [readName, hsize, ok_bind, hslice, decode_asBytes]
  rfl

/-! ### Imports and exports -/

/-- The limits of a table or memory are skipped. -/
theorem skipLimits_eq {word rest : List UInt8} {limits : Limits} (h : LimitsWord word limits)
    {q : ℕ} (hunread : unreadFrom d q = word ++ rest) :
    ∃ q', skipLimits d q = .ok q' ∧ unreadFrom d q' = rest := by
  cases h with
  | min hleast =>
    obtain ⟨q', hu32, hq'⟩ := reads_u32 hleast (unreadFrom_succ hunread)
    refine ⟨q', ?_, hq'⟩
    simp only [skipLimits, byteAt_eq hunread, hu32, ok_bind]
    rfl
  | max hleast hmost =>
    rw [List.cons_append, List.append_assoc] at hunread
    obtain ⟨q', hu32, hq'⟩ := reads_u32 hleast (unreadFrom_succ hunread)
    obtain ⟨q'', hu32', hq''⟩ := reads_u32 hmost hq'
    refine ⟨q'', ?_, hq''⟩
    simp only [skipLimits, byteAt_eq hunread, hu32, hu32', ok_bind]
    rfl

/-- Each layout of a descriptor is skipped, after its kind. -/
theorem skipDescriptor_eq {word rest : List UInt8} {desc : ImportDesc}
    (h : ImportDescWord word desc) {q : ℕ} (hunread : unreadFrom d q = word ++ rest) :
    ∃ kind q', byteAt d q = .ok kind ∧ skipDescriptor d kind (q + 1) = .ok q' ∧
      unreadFrom d q' = rest := by
  cases h with
  | func hindex =>
    obtain ⟨q', hu32, hq'⟩ := reads_u32 hindex (unreadFrom_succ hunread)
    refine ⟨0, q', byteAt_eq hunread, ?_, hq'⟩
    rw [skipDescriptor, if_pos rfl, hu32]
    rfl
  | table hsize =>
    obtain ⟨q', hskip, hq'⟩ := skipLimits_eq hsize (unreadFrom_succ (unreadFrom_succ hunread))
    exact ⟨1, q', byteAt_eq hunread, hskip, hq'⟩
  | mem hsize =>
    obtain ⟨q', hskip, hq'⟩ := skipLimits_eq hsize (unreadFrom_succ hunread)
    exact ⟨2, q', byteAt_eq hunread, hskip, hq'⟩
  | global type mutable =>
    exact ⟨3, q + 3, byteAt_eq hunread, rfl,
      unreadFrom_succ (unreadFrom_succ (unreadFrom_succ hunread))⟩

/-- What the script keeps of an import. -/
def Import.names (i : Import) : String × String := (i.module, i.name)

theorem reads_import :
    Reads (unreadFrom d) (fun word names ↦ ∃ i, ImportWord word i ∧ i.names = names)
      (readImport d) := by
  rintro word _ ⟨i, ⟨hmodule, hname, hdesc⟩, rfl⟩ q rest hunread
  simp only [List.append_assoc] at hunread
  obtain ⟨q₁, hreadModule, hq₁⟩ := reads_name hmodule hunread
  obtain ⟨q₂, hreadName, hq₂⟩ := reads_name hname hq₁
  obtain ⟨kind, q₃, hkind, hskip, hq₃⟩ := skipDescriptor_eq hdesc hq₂
  refine ⟨q₃, ?_, hq₃⟩
  simp only [readImport, hreadModule, hreadName, hkind, hskip, ok_bind]
  rfl

theorem reads_export :
    Reads (unreadFrom d) (fun word name ↦ ∃ e, ExportWord word e ∧ e.name = name)
      (readExport d) := by
  rintro word _ ⟨e, ⟨hname, hindex⟩, rfl⟩ q rest hunread
  rw [List.append_assoc] at hunread
  obtain ⟨q₁, hreadName, hq₁⟩ := reads_name hname hunread
  obtain ⟨q₂, hu32, hq₂⟩ := reads_u32 hindex (unreadFrom_succ hq₁)
  refine ⟨q₂, ?_, hq₂⟩
  simp only [readExport, hreadName, hu32, ok_bind]
  rfl

/-! ### Sections -/

/-- The number and the items of a list are read, and what is kept of each item is appended. -/
theorem readMany_of_vecWord {α β : Type} {G : Grammar UInt8 α} {f : α → β}
    {read : ℕ → Except PyError (β × ℕ)}
    (hread : Reads (unreadFrom d) (fun word b ↦ ∃ a, G word a ∧ f a = b) read)
    {word rest : List UInt8} {items : List α} (h : VecWord G word items) {p : ℕ}
    (hunread : unreadFrom d p = word ++ rest) (seen : List β) :
    ∃ q q', u32 d p = .ok (items.length, q) ∧
      readMany read items.length seen q = .ok (seen ++ items.map f, q') := by
  obtain ⟨hlength, hwords⟩ := h
  rw [List.append_assoc] at hunread
  obtain ⟨q, hu32, hq⟩ := reads_u32 hlength hunread
  obtain ⟨q', hmany, -⟩ := hread.many (hwords.map fun _ a ha ↦ ⟨a, ha, rfl⟩) hq seen
  rw [List.length_map] at hmany
  exact ⟨q, q', hu32, hmany⟩

/-- What the script keeps of a list of sections, after what it has. -/
def Interface.addSections (seen : Interface) (sections : List Section) : Interface where
  imports := seen.imports ++ (sections.flatMap Section.importList).map Import.names
  exports := seen.exports ++ (sections.flatMap Section.exportList).map Export.name

@[simp] theorem Interface.addSections_nil (seen : Interface) : seen.addSections [] = seen := by
  simp only [addSections, List.flatMap_nil, List.map_nil, List.append_nil]

theorem Interface.addSections_cons (seen : Interface) (s : Section) (sections : List Section) :
    seen.addSections (s :: sections) = (seen.addSections [s]).addSections sections := by
  simp only [addSections, List.flatMap_cons, List.flatMap_nil, List.append_nil, List.map_append,
    List.append_assoc]

theorem Interface.addSections_imports (seen : Interface) (entries : List Import) :
    seen.addSections [.imports entries] =
      { seen with imports := seen.imports ++ entries.map Import.names } := by
  simp only [addSections, List.flatMap_cons, List.flatMap_nil, List.append_nil,
    Section.importList, Section.exportList, List.map_nil]

theorem Interface.addSections_exports (seen : Interface) (entries : List Export) :
    seen.addSections [.exports entries] =
      { seen with exports := seen.exports ++ entries.map Export.name } := by
  simp only [addSections, List.flatMap_cons, List.flatMap_nil, List.append_nil,
    Section.importList, Section.exportList, List.map_nil]

theorem Interface.addSections_other (seen : Interface) (id : UInt8) (contents : List UInt8) :
    seen.addSections [.other id contents] = seen := by
  simp only [addSections, List.flatMap_cons, List.flatMap_nil, List.append_nil,
    Section.importList, Section.exportList, List.map_nil]

/-- A turn of the loop collects the section that it is at. -/
theorem readSection_eq {word rest : List UInt8} {s : Section} (h : SectionWord word s) {p : ℕ}
    (hunread : unreadFrom d p = word ++ rest) (seen : Interface) :
    ∃ p', readSection d seen p = .ok (seen.addSections [s], p') ∧ unreadFrom d p' = rest := by
  have hnext : ∀ {id : UInt8} {size contents : List UInt8}, U32 size contents.length →
      word = id :: (size ++ contents) → ∃ p', byteAt d p = .ok id ∧
        u32 d (p + 1) = .ok (contents.length, p') ∧ unreadFrom d p' = contents ++ rest := by
    rintro id size contents hsize rfl
    rw [List.cons_append, List.append_assoc] at hunread
    obtain ⟨p', hu32, hp'⟩ := reads_u32 hsize (unreadFrom_succ hunread)
    exact ⟨p', byteAt_eq hunread, hu32, hp'⟩
  cases h with
  | imports hsize hcontents =>
    obtain ⟨p', hid, hu32, hp'⟩ := hnext hsize rfl
    obtain ⟨q, q', hcount, hmany⟩ := readMany_of_vecWord reads_import hcontents hp' seen.imports
    refine ⟨_, ?_, unreadFrom_add hp'⟩
    simp only [readSection, hid, hu32, hcount, hmany, ok_bind, if_true, seen.addSections_imports]
    rfl
  | exports hsize hcontents =>
    obtain ⟨p', hid, hu32, hp'⟩ := hnext hsize rfl
    obtain ⟨q, q', hcount, hmany⟩ := readMany_of_vecWord reads_export hcontents hp' seen.exports
    refine ⟨_, ?_, unreadFrom_add hp'⟩
    simp only [readSection, hid, hu32, hcount, hmany, ok_bind, if_true, seen.addSections_exports]
    rfl
  | other hother hsize =>
    obtain ⟨p', hid, hu32, hp'⟩ := hnext hsize rfl
    refine ⟨_, ?_, unreadFrom_add hp'⟩
    simp only [readSection, hid, hu32, ok_bind, hother.1, hother.2, if_false,
      seen.addSections_other]
    rfl

theorem length_sectionWord_pos {word : List UInt8} {s : Section} (h : SectionWord word s) :
    0 < word.length := by
  cases h with
  | imports => exact Nat.succ_pos _
  | exports => exact Nat.succ_pos _
  | other => exact Nat.succ_pos _

/-- The loop collects the sections that are left, by induction on them, with a turn of fuel for
each of their bytes. -/
theorem readSections_eq {word : List UInt8} {sections : List Section}
    (h : Words SectionWord word sections) {fuel : ℕ} (hfuel : word.length < fuel) {p : ℕ}
    (hunread : unreadFrom d p = word) (seen : Interface) :
    readSections d fuel seen p = .ok (seen.addSections sections) := by
  induction h generalizing fuel p seen with
  | nil =>
    obtain ⟨fuel, rfl⟩ := Nat.exists_eq_succ_of_ne_zero (Nat.ne_of_gt hfuel)
    rw [readSections, if_neg (unreadFrom_eq_nil_iff.mp hunread), Interface.addSections_nil]
  | @cons word rest s sections head _ ih =>
    have hpos := length_sectionWord_pos head
    rw [List.length_append] at hfuel
    obtain ⟨fuel, rfl⟩ := Nat.exists_eq_succ_of_ne_zero (Nat.ne_of_gt (Nat.zero_lt_of_lt hfuel))
    have hlt : p < d.length := by
      by_contra hend
      rw [unreadFrom_eq_nil_iff.mpr hend] at hunread
      rw [(List.append_eq_nil_iff.mp hunread.symm).1] at hpos
      exact absurd hpos (Nat.lt_irrefl 0)
    obtain ⟨p', hread, hp'⟩ := readSection_eq head hunread seen
    rw [readSections, if_pos hlt, hread, ok_bind]
    show readSections d fuel (seen.addSections [s]) p' = _
    rw [ih (by omega) hp', ← Interface.addSections_cons]

/-- What the script keeps of a module. -/
def WasmModule.interface (m : WasmModule) : Interface where
  imports := m.imports.map Import.names
  exports := m.exports.map Export.name

/-- On every module `main` returns the report on the interface of the module. -/
theorem main_of_moduleWord {m : WasmModule} (h : ModuleWord d m) (path : String) :
    main path d = .ok (report m.interface) := by
  cases h with
  | @module body sections words =>
    have hbody : unreadFrom (magic ++ ([1, 0, 0, 0] ++ body)) 8 = body := rfl
    have hfuel : body.length < (magic ++ ([1, 0, 0, 0] ++ body)).length + 1 := by
      simp only [List.length_append]
      omega
    have hmagic : (magic ++ ([1, 0, 0, 0] ++ body)).take 4 = magic := List.take_left' rfl
    show main path (magic ++ ([1, 0, 0, 0] ++ body)) = _
    rw [main, if_neg (not_not.mpr hmagic), readSections_eq words hfuel hbody, ok_bind]
    rfl

end RedisCvlr.Scripts
