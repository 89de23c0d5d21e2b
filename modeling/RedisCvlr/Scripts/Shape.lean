import RedisCvlr.Scripts.Collecting

/-!
# The promised shape

The script collects exactly the imports and exports of a module (`interface_collected`). It is meant
to confirm that a module imports only `CVT_*` functions from `env`, but its exit status does not
look at the names: `promised_shape_iff` says for which modules a success means what it promises.
-/

set_option autoImplicit false
set_option relaxedAutoImplicit false

namespace RedisCvlr.Scripts

open RedisCvlr.Driver RedisCvlr.Library

/-! ### The exit status -/

theorem mem_map_fst_addName {m m' n : String} {mods : List (String × List String)} :
    m' ∈ (addName m n mods).map Prod.fst ↔ m' = m ∨ m' ∈ mods.map Prod.fst := by
  induction mods with
  | nil => exact List.mem_cons
  | cons entry mods ih =>
    obtain ⟨k, ns⟩ := entry
    rw [addName]
    split_ifs with hk
    · subst hk
      rw [List.map_cons, List.map_cons, List.mem_cons, or_self_left]
    · rw [List.map_cons, List.map_cons, List.mem_cons, List.mem_cons, ih, or_left_comm]

/-- The modules that have an entry are those of the imports, by induction on the imports. -/
theorem mem_map_fst_modsOf {m : String} {imports : List (String × String)} :
    m ∈ (modsOf imports).map Prod.fst ↔ m ∈ imports.map Prod.fst := by
  have hfold : ∀ mods : List (String × List String),
      m ∈ (imports.foldl (fun mods i ↦ addName i.1 i.2 mods) mods).map Prod.fst ↔
        m ∈ mods.map Prod.fst ∨ m ∈ imports.map Prod.fst := by
    induction imports with
    | nil =>
      intro mods
      rw [List.foldl_nil, List.map_nil, List.mem_nil_iff, or_false]
    | cons i imports ih =>
      intro mods
      rw [List.foldl_cons, ih, mem_map_fst_addName, List.map_cons, List.mem_cons, or_assoc,
        or_left_comm]
  rw [modsOf, hfold, List.map_nil, List.mem_nil_iff, false_or]

/-- The status is that of a success exactly when every import is from `env`. -/
theorem report_status_eq_zero_iff {seen : Interface} :
    (report seen).status = 0 ↔ ∀ i ∈ seen.imports, i.1 = "env" := by
  have hbad : (report seen).bad = [] ↔ ∀ i ∈ seen.imports, i.1 = "env" := by
    show ((modsOf seen.imports).map Prod.fst).filter (· ≠ "env") = [] ↔ _
    rw [List.filter_eq_nil_iff]
    simp only [decide_eq_true_eq, not_not, mem_map_fst_modsOf, List.forall_mem_map]
  have hstatus : (report seen).status = if (report seen).bad ≠ [] then 1 else 0 := rfl
  rw [← hbad, hstatus, ite_eq_right_iff]
  constructor
  · intro hone
    by_contra hne
    exact absurd (hone hne) Nat.one_ne_zero
  · exact fun hnil hne ↦ absurd hnil hne

/-! ### Modules that import one function -/

/-- A module that imports a function and exports its memory. It has a custom section, and sections
for the type of the function and for the memory. -/
def oneImport (module name : String) : WasmModule where
  sections := [.other 0 [1, 97], .other 1 [1, 0x60, 0, 0], .imports [⟨module, name, .func 0⟩],
    .other 5 [1, 0, 1], .exports [⟨"memory", .mem, 0⟩]]

/-- The entry of its import, with a padded type index. -/
def oneEntry (module name : String) : List UInt8 :=
  UInt8.ofNat (asBytes module).length :: asBytes module ++
    (UInt8.ofNat (asBytes name).length :: asBytes name ++ [0, 0x80, 0])

/-- The bytes of the module. -/
def oneImportBytes (module name : String) : List UInt8 :=
  magic ++ [1, 0, 0, 0] ++ [0, 2, 1, 97] ++ [1, 4, 1, 0x60, 0, 0] ++
    (2 :: UInt8.ofNat ((oneEntry module name).length + 1) :: 1 :: oneEntry module name) ++
    [5, 3, 1, 0, 1] ++ (7 :: 10 :: 1 :: 6 :: asBytes "memory" ++ [2, 0])

theorem leb128_byte {n : ℕ} (hn : n < 2 ^ 7) : U32 [UInt8.ofNat n] n := by
  have htoNat : (UInt8.ofNat n).toNat = n := by
    rw [UInt8.toNat_ofNat', Nat.mod_eq_of_lt (Nat.lt_trans hn (by decide))]
  have hlast : U32 [UInt8.ofNat n] (UInt8.ofNat n).toNat :=
    .last (htoNat.symm ▸ hn) (htoNat.symm ▸ Nat.lt_trans hn (by decide))
  rwa [htoNat] at hlast

theorem nameWord_byte {s : String} (hs : (asBytes s).length < 2 ^ 7) :
    NameWord (UInt8.ofNat (asBytes s).length :: asBytes s) s := .name (leb128_byte hs)

theorem moduleWord_oneImportBytes {module name : String}
    (hlength : (asBytes module).length + (asBytes name).length < 100) :
    ModuleWord (oneImportBytes module name) (oneImport module name) := by
  have hindex : U32 [0x80, 0] 0 := .more (by decide) (by decide) (.last (by decide) (by decide))
  have hentry : ImportWord (oneEntry module name) ⟨module, name, .func 0⟩ :=
    .entry (nameWord_byte (by omega)) (nameWord_byte (by omega)) (.func hindex)
  have hlengthEntry : (oneEntry module name).length < 2 ^ 7 - 1 := by
    simp only [oneEntry, List.length_append, List.length_cons, List.length_nil]
    omega
  have himports : VecWord ImportWord (1 :: oneEntry module name) [⟨module, name, .func 0⟩] := by
    have hvec := VecWord.vec (leb128_byte (n := 1) (by decide)) (.cons hentry .nil)
    rwa [List.append_nil] at hvec
  have hmemory : ExportWord (6 :: asBytes "memory" ++ [2, 0]) ⟨"memory", .mem, 0⟩ :=
    @ExportWord.entry (6 :: asBytes "memory") [0] "memory" .mem 0
      (@nameWord_byte "memory" (by decide)) (leb128_byte (n := 0) (by decide))
  have hexports : VecWord ExportWord (1 :: (6 :: asBytes "memory" ++ [2, 0]))
      [⟨"memory", .mem, 0⟩] := by
    have hvec := VecWord.vec (leb128_byte (n := 1) (by decide)) (.cons hmemory .nil)
    rwa [List.append_nil] at hvec
  have hcustom : SectionWord [0, 2, 1, 97] (.other 0 [1, 97]) :=
    @SectionWord.other 0 [2] [1, 97] (by decide) (leb128_byte (n := 2) (by decide))
  have htypes : SectionWord [1, 4, 1, 0x60, 0, 0] (.other 1 [1, 0x60, 0, 0]) :=
    @SectionWord.other 1 [4] [1, 0x60, 0, 0] (by decide) (leb128_byte (n := 4) (by decide))
  have hmemories : SectionWord [5, 3, 1, 0, 1] (.other 5 [1, 0, 1]) :=
    @SectionWord.other 5 [3] [1, 0, 1] (by decide) (leb128_byte (n := 3) (by decide))
  have hsize : U32 [UInt8.ofNat ((oneEntry module name).length + 1)]
      (1 :: oneEntry module name).length := leb128_byte (Nat.add_lt_of_lt_sub hlengthEntry)
  have hmodule := ModuleWord.module (.cons hcustom (.cons htypes (.cons (.imports hsize himports)
    (.cons hmemories (.cons (.exports (leb128_byte (n := 10) (by decide)) hexports) .nil)))))
  rw [oneImportBytes]
  simp only [List.append_assoc, List.append_nil] at hmodule ⊢
  exact hmodule

/-! ### What the script collects -/

section Results

variable {d : List UInt8} {m : WasmModule}

/-- On every module the script ends without an error, and it collects the imports and the exports of
the module, in order. -/
theorem interface_collected (h : ModuleWord d m) (path : String) :
    ∃ r, main path d = .ok r ∧ r.imports = m.imports.map (fun i ↦ (i.module, i.name)) ∧
      r.exports = m.exports.map Export.name :=
  ⟨report m.interface, main_of_moduleWord h path, rfl, rfl⟩

theorem interface_collected_oneImport :
    ∃ r, main "a.wasm" (oneImportBytes "env" "CVT_assert") = .ok r ∧
      r.imports = [("env", "CVT_assert")] ∧ r.exports = ["memory"] :=
  interface_collected (moduleWord_oneImportBytes (by decide)) "a.wasm"

/-! ### What a success means -/

/-- `env::CVT_*`. -/
def Import.IsCvt (i : Import) : Prop := i.module = "env" ∧ "CVT_".toList <+: i.name.toList

instance (i : Import) : Decidable i.IsCvt := inferInstanceAs (Decidable (_ ∧ _))

/-- A module whose imports are all from `env` is a success, whatever their names. So a success means
the promised shape exactly where some import is from another module, which is no success, and where
every import from `env` has a `CVT_` name. -/
theorem promised_shape_iff (h : ModuleWord d m) (path : String) :
    ((main path d).map Report.status = .ok 0 → ∀ i ∈ m.imports, i.IsCvt) ↔
      (∃ i ∈ m.imports, i.module ≠ "env") ∨
        ∀ i ∈ m.imports, i.module = "env" → "CVT_".toList <+: i.name.toList := by
  have hsuccess : (main path d).map Report.status = .ok 0 ↔ ∀ i ∈ m.imports, i.module = "env" := by
    rw [main_of_moduleWord h path]
    show (Except.ok (report m.interface).status : Except PyError ℕ) = .ok 0 ↔ _
    rw [Except.ok.injEq, report_status_eq_zero_iff]
    exact List.forall_mem_map
  rw [hsuccess]
  constructor
  · intro hshape
    by_cases henv : ∀ i ∈ m.imports, i.module = "env"
    · exact .inr fun i hi _ ↦ (hshape henv i hi).2
    · push Not at henv
      exact .inl henv
  · rintro (⟨i, hi, hother⟩ | hcvt) henv
    · exact absurd (henv i hi) hother
    · exact fun i hi ↦ ⟨henv i hi, hcvt i hi (henv i hi)⟩

theorem promised_shape_iff_oneImport :
    (main "a.wasm" (oneImportBytes "env" "CVT_assert")).map Report.status = .ok 0 ∧
      ∀ i ∈ (oneImport "env" "CVT_assert").imports, i.IsCvt := by
  have hmodule : ModuleWord (oneImportBytes "env" "CVT_assert") (oneImport "env" "CVT_assert") :=
    moduleWord_oneImportBytes (by decide)
  have hsuccess : (main "a.wasm" (oneImportBytes "env" "CVT_assert")).map Report.status =
      .ok 0 := by
    rw [main_of_moduleWord hmodule]
    rfl
  exact ⟨hsuccess, (promised_shape_iff hmodule "a.wasm").mpr (.inr (by decide)) hsuccess⟩

/-- A module that imports `memcpy` passes. -/
theorem promised_shape_counterexample :
    ModuleWord (oneImportBytes "env" "memcpy") (oneImport "env" "memcpy") ∧
      (main "a.wasm" (oneImportBytes "env" "memcpy")).map Report.status = .ok 0 ∧
      ¬∀ i ∈ (oneImport "env" "memcpy").imports, i.IsCvt := by
  have hmodule : ModuleWord (oneImportBytes "env" "memcpy") (oneImport "env" "memcpy") :=
    moduleWord_oneImportBytes (by decide)
  refine ⟨hmodule, ?_, by decide⟩
  rw [main_of_moduleWord hmodule]
  rfl

end Results

end RedisCvlr.Scripts
