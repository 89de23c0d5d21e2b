import Mathlib.Algebra.Order.Group.Nat
import Mathlib.Data.List.Basic
import Mathlib.Data.List.Induction
import Mathlib.Tactic.Common

/-!
# Fixed-size arrays used as prefixes

A fixed-size array of optional cells together with a length stands for the list stored in its
first cells. `Holds` is that reading: the length is the length of the list, the list fits, and
every cell is the list entry of its index, so that the cells past the end are `none`.

`keepCells` is the usual in-place filter: one pass that copies every kept cell down to a write
index and returns the array with that index, and `clearFrom` blanks the cells from an index on.
`Holds.retain` shows that the pass followed by the blanking holds the filtered list, and
`Holds.push` that writing at the length appends one entry when there is room.
-/

set_option autoImplicit false
set_option relaxedAutoImplicit false

namespace RedisCvlr.Library.PrefixArray

variable {α : Type*} {n : ℕ}

/-! ### Cells -/

/-- The cell at an index, `none` past the end of the array. -/
def read (row : Fin n → Option α) (i : ℕ) : Option α :=
  if h : i < n then row ⟨i, h⟩ else none

/-- The array with the cell at an index replaced. -/
def write (row : Fin n → Option α) (i : ℕ) (x : Option α) : Fin n → Option α :=
  fun j ↦ if j.val = i then x else row j

/-- One iteration of the in-place filter: the cell at `i`, when it passes `keep`, is copied to the
write index, which then advances. -/
def keepCell (keep : Option α → Bool) (state : (Fin n → Option α) × ℕ) (i : ℕ) :
    (Fin n → Option α) × ℕ :=
  if keep (read state.1 i) then (write state.1 state.2 (read state.1 i), state.2 + 1) else state

/-- The in-place filtering pass over the first `len` cells. Returns the array and the final write
index. -/
def keepCells (keep : Option α → Bool) (row : Fin n → Option α) (len : ℕ) :
    (Fin n → Option α) × ℕ :=
  (List.range len).foldl (keepCell keep) (row, 0)

/-- Blanks the cells from index `start` to the end of the array. -/
def clearFrom (row : Fin n → Option α) (start : ℕ) : Fin n → Option α :=
  (List.range' start (n - start)).foldl (fun cells j ↦ write cells j none) row

/-- The entries of the first `len` cells, in order. -/
def contents (row : Fin n → Option α) (len : ℕ) : List α :=
  (List.range len).filterMap (read row)

/-- The first `len` cells hold the list `xs`, and all later cells are `none`. -/
structure Holds (row : Fin n → Option α) (len : ℕ) (xs : List α) : Prop where
  len_eq : len = xs.length
  fits : xs.length ≤ n
  cell : ∀ i : Fin n, row i = xs[i.val]?

/-! ### Reading a held list -/

section Reading

variable {row row' : Fin n → Option α} {len len' : ℕ} {xs : List α}

theorem Holds.read_eq (h : Holds row len xs) (i : ℕ) : read row i = xs[i]? := by
  unfold read
  split_ifs with hi
  · exact h.cell ⟨i, hi⟩
  · have hout : xs.length ≤ i := h.fits.trans (not_lt.mp hi)
    rw [List.getElem?_eq_none hout]

/-- The snapshot of the first `len` cells is the held list. -/
theorem Holds.map_read (h : Holds row len xs) : (List.range len).map (read row) = xs.map some := by
  apply List.ext_getElem?
  intro i
  rw [List.getElem?_map, List.getElem?_map, h.len_eq]
  rcases lt_or_ge i xs.length with hi | hi
  · rw [List.getElem?_range hi, Option.map_some, h.read_eq, List.getElem?_eq_getElem hi,
      Option.map_some]
  · rw [List.getElem?_eq_none (by simpa using hi), List.getElem?_eq_none hi]
    rfl

/-- The held list is read off as the contents. -/
theorem Holds.contents_eq (h : Holds row len xs) : contents row len = xs := by
  have hmap : contents row len = ((List.range len).map (read row)).filterMap id := by
    rw [List.filterMap_map]
    rfl
  rw [hmap, h.map_read, List.filterMap_map]
  exact List.filterMap_some

theorem Holds.mem_iff (h : Holds row len xs) (x : α) : x ∈ xs ↔ ∃ i, row i = some x := by
  constructor
  · intro hx
    obtain ⟨i, hi, hget⟩ := List.getElem_of_mem hx
    refine ⟨⟨i, lt_of_lt_of_le hi h.fits⟩, ?_⟩
    rw [h.cell, List.getElem?_eq_getElem hi, hget]
  · rintro ⟨i, hi⟩
    rw [h.cell] at hi
    exact List.mem_of_getElem? hi

end Reading

/-- Writing an entry at the length appends it to the contents. -/
theorem contents_write_push (row : Fin n → Option α) {len : ℕ} (hroom : len < n) (x : α) :
    contents (write row len (some x)) (len + 1) = contents row len ++ [x] := by
  have hbelow : (List.range len).filterMap (read (write row len (some x))) =
      (List.range len).filterMap (read row) := by
    refine List.filterMap_congr fun i hi ↦ ?_
    have hne : i ≠ len := Nat.ne_of_lt (List.mem_range.mp hi)
    by_cases hin : i < n <;> simp [read, write, hin, hne]
  have hlast : read (write row len (some x)) len = some x := by simp [read, write, hroom]
  rw [contents, List.range_succ, List.filterMap_append, hbelow]
  simp [contents, hlast]

/-- Writing to an array whose entries are read through a map. -/
theorem write_map {β : Type*} (g : α → β) (row : Fin n → Option α) (i : ℕ) (x : Option α) :
    write (fun j ↦ (row j).map g) i (x.map g) = fun j ↦ (write row i x j).map g := by
  funext j
  rw [write, write, apply_ite (Option.map g)]

/-- The contents of an array whose entries are read through a map. -/
theorem contents_map {β : Type*} (g : α → β) (row : Fin n → Option α) (len : ℕ) :
    contents (fun j ↦ (row j).map g) len = (contents row len).map g := by
  rw [contents, contents, List.map_filterMap]
  refine List.filterMap_congr fun i _ ↦ ?_
  rw [read, read, apply_dite (Option.map g)]
  rfl

/-- A prefix of filled cells followed by blank cells holds its contents. -/
theorem holds_contents {row : Fin n → Option α} {len : ℕ} (hlen : len ≤ n)
    (hfilled : ∀ i : Fin n, i.val < len → (row i).isSome)
    (hblank : ∀ i : Fin n, len ≤ i.val → row i = none) : Holds row len (contents row len) := by
  have hprefix : ∀ m ≤ len, (contents row m).length = m ∧
      ∀ i < m, (contents row m)[i]? = read row i := by
    intro m
    induction m with
    | zero => exact fun _ ↦ ⟨rfl, fun i hi ↦ absurd hi (Nat.not_lt_zero i)⟩
    | succ m ih =>
      intro hm
      obtain ⟨hcount, hget⟩ := ih (Nat.le_of_succ_le hm)
      have hmn : m < n := lt_of_lt_of_le hm hlen
      obtain ⟨x, hx⟩ := Option.isSome_iff_exists.mp (hfilled ⟨m, hmn⟩ hm)
      have hread : read row m = some x := by rw [read, dif_pos hmn, hx]
      have hsnoc : contents row (m + 1) = contents row m ++ [x] := by
        rw [contents, List.range_succ, List.filterMap_append]
        simp [contents, hread]
      rw [hsnoc]
      refine ⟨by simp [hcount], fun i hi ↦ ?_⟩
      rcases Nat.lt_succ_iff_lt_or_eq.mp hi with hlt | rfl
      · rw [List.getElem?_append_left (by omega), hget i hlt]
      · rw [List.getElem?_append_right (by omega), hcount, hread]
        simp
  obtain ⟨hcount, hget⟩ := hprefix len le_rfl
  refine ⟨hcount.symm, by omega, fun i ↦ ?_⟩
  rcases lt_or_ge i.val len with hi | hi
  · rw [hget i hi, read, dif_pos i.isLt]
  · rw [hblank i hi, List.getElem?_eq_none (by omega)]

/-! ### Appending and filtering -/

section Updating

variable {row : Fin n → Option α} {len : ℕ} {xs : List α}

/-- Writing at the length appends an entry when there is room. -/
theorem Holds.push (h : Holds row len xs) (x : α) (hroom : len < n) :
    Holds (write row len (some x)) (len + 1) (xs ++ [x]) := by
  have hlen := h.len_eq
  refine ⟨by simp [hlen], by simp; omega, fun i ↦ ?_⟩
  unfold write
  split_ifs with hi
  · simp [hi, hlen]
  · rw [h.cell]
    rcases lt_or_ge i.val xs.length with hlt | hge
    · rw [List.getElem?_append_left hlt]
    · have hout : xs.length + 1 ≤ i.val := by omega
      rw [List.getElem?_eq_none hge, List.getElem?_eq_none (by simpa using hout)]

/-- The filtering pass over the first `m` cells: the write index counts the kept entries, the
cells below it are those entries, and the cells from it on are untouched. -/
private theorem keepCells_prefix (h : Holds row len xs) (keep : Option α → Bool) (m : ℕ)
    (hm : m ≤ xs.length) :
    (keepCells keep row m).2 = ((xs.take m).filter (keep ∘ some)).length ∧
      ∀ i : Fin n, (keepCells keep row m).1 i =
        if i.val < (keepCells keep row m).2 then ((xs.take m).filter (keep ∘ some))[i.val]?
        else row i := by
  induction m with
  | zero => exact ⟨by simp [keepCells], fun i ↦ by simp [keepCells]⟩
  | succ m ih =>
    obtain ⟨hcount, hcells⟩ := ih (Nat.le_of_succ_le hm)
    have hkept : ((xs.take m).filter (keep ∘ some)).length ≤ m :=
      (List.length_filter_le _ _).trans (List.length_take_le _ _)
    -- the cell about to be examined lies at or above the write index, so it is still the original
    have hcurrent : read (keepCells keep row m).1 m = some xs[m] := by
      have hmn : m < n := lt_of_lt_of_le hm h.fits
      rw [read, dif_pos hmn, hcells, if_neg (by simp only [hcount]; omega), h.cell,
        List.getElem?_eq_getElem hm]
    have hstep : keepCells keep row (m + 1) =
        if keep (some xs[m]) then
          (write (keepCells keep row m).1 (keepCells keep row m).2 (some xs[m]),
            (keepCells keep row m).2 + 1)
        else keepCells keep row m := by
      rw [keepCells, List.range_succ, List.foldl_append, List.foldl_cons, List.foldl_nil]
      change keepCell keep (keepCells keep row m) m = _
      rw [keepCell, hcurrent]
    have htake : xs.take (m + 1) = xs.take m ++ [xs[m]] := by
      rw [List.take_add_one, List.getElem?_eq_getElem hm]
      rfl
    rw [hstep, htake, List.filter_append]
    by_cases hk : keep (some xs[m]) = true
    · have hsingle : [xs[m]].filter (keep ∘ some) = [xs[m]] := by simp [hk]
      rw [if_pos hk, hsingle]
      refine ⟨by simp [hcount], fun i ↦ ?_⟩
      simp only [write, hcells, hcount]
      by_cases hi : i.val = ((xs.take m).filter (keep ∘ some)).length
      · simp [hi]
      · by_cases hlt : i.val < ((xs.take m).filter (keep ∘ some)).length
        · rw [if_neg hi, if_pos hlt, if_pos (by omega), List.getElem?_append_left hlt]
        · rw [if_neg hi, if_neg hlt, if_neg (by omega)]
    · have hnone : [xs[m]].filter (keep ∘ some) = [] := by simp [hk]
      rw [if_neg hk, hnone, List.append_nil]
      exact ⟨hcount, hcells⟩

theorem clearFrom_apply (row : Fin n → Option α) (start : ℕ) (i : Fin n) :
    clearFrom row start i = if start ≤ i.val then none else row i := by
  have hblank : ∀ (indices : List ℕ) (cells : Fin n → Option α),
      indices.foldl (fun cells j ↦ write cells j none) cells i =
        if i.val ∈ indices then none else cells i := by
    intro indices
    induction indices with
    | nil => simp
    | cons j rest ih =>
      intro cells
      rw [List.foldl_cons, ih]
      by_cases hrest : i.val ∈ rest <;> by_cases hj : i.val = j <;> simp [write, hrest, hj]
  rw [clearFrom, hblank]
  have hmem : i.val ∈ List.range' start (n - start) ↔ start ≤ i.val := by
    rw [List.mem_range'_1]
    have := i.isLt
    omega
  simp only [hmem]

/-- The in-place filter followed by blanking holds the filtered list. -/
theorem Holds.retain (h : Holds row len xs) (keep : Option α → Bool) :
    Holds (clearFrom (keepCells keep row len).1 (keepCells keep row len).2)
      (keepCells keep row len).2 (xs.filter (keep ∘ some)) := by
  obtain ⟨hcount, hcells⟩ := keepCells_prefix h keep xs.length le_rfl
  rw [← h.len_eq] at hcount hcells
  rw [h.len_eq, List.take_length, ← h.len_eq] at hcount
  refine ⟨hcount, (List.length_filter_le _ _).trans h.fits, fun i ↦ ?_⟩
  rw [clearFrom_apply, hcells, h.len_eq, List.take_length, ← h.len_eq]
  by_cases hi : (keepCells keep row len).2 ≤ i.val
  · rw [if_pos hi, List.getElem?_eq_none (hcount ▸ hi)]
  · rw [if_neg hi, if_pos (not_le.mp hi)]

end Updating

end RedisCvlr.Library.PrefixArray
