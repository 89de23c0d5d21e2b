import Mathlib.Order.Basic

/-!
# Readers and grammars

A grammar says which words encode which values. A reader takes a value off what is still unread,
which is a stream, or the data behind a cursor. It reads a grammar when it returns the value of
every word that comes first and leaves exactly what follows (`Reads`), and it reads nothing else
when whatever it returns has been encoded by what it has consumed (`ReadsOnly`). Both pass from the
reader of an item to the loop that reads a number of items.
-/

set_option autoImplicit false
set_option relaxedAutoImplicit false

namespace RedisCvlr.Library

universe u

variable {α α' β ε σ : Type*} {γ δ : Type u}

/-! ### Grammars -/

/-- Which words encode which values. -/
abbrev Grammar (β α : Type*) := List β → α → Prop

/-- Words one after the other, with the list of their values. -/
inductive Words (G : Grammar β α) : List β → List α → Prop
  | nil : Words G [] []
  | cons {word rest : List β} {a : α} {as : List α} (head : G word a) (tail : Words G rest as) :
    Words G (word ++ rest) (a :: as)

section Words

variable {G H : Grammar β α} {word : List β} {as : List α}

/-- The values of a sequence under a map, by induction on the sequence. -/
theorem Words.map {F : Grammar β α'} {f : α → α'} (himp : ∀ ⦃word a⦄, G word a → F word (f a))
    (h : Words G word as) : Words F word (as.map f) := by
  induction h with
  | nil => exact .nil
  | cons head _ ih => exact .cons (himp head) ih

theorem Words.mono (himp : ∀ ⦃word a⦄, G word a → H word a) (h : Words G word as) :
    Words H word as := by
  have hmap := h.map (f := id) himp
  rwa [List.map_id] at hmap

/-- No word of a sequence is longer than the whole. -/
theorem Words.length_le (h : Words G word as) :
    Words (fun first a ↦ first.length ≤ word.length ∧ G first a) word as := by
  induction h with
  | nil => exact .nil
  | cons head tail ih =>
    rw [List.length_append]
    exact .cons ⟨Nat.le_add_right _ _, head⟩
      (ih.mono fun _ _ hfirst ↦ ⟨Nat.le_trans hfirst.1 (Nat.le_add_left _ _), hfirst.2⟩)

end Words

/-! ### Readers -/

/-- A step of a computation that may fail succeeds when both its parts do. -/
theorem bind_eq_ok {first : Except ε γ} {next : γ → Except ε δ} {d : δ} :
    (first >>= next) = .ok d ↔ ∃ c, first = .ok c ∧ next c = .ok d := by
  cases first with
  | error e =>
    constructor
    · rintro ⟨⟩
    · rintro ⟨c, ⟨⟩, -⟩
  | ok c => exact ⟨fun h ↦ ⟨c, rfl, h⟩, fun ⟨_, h, hnext⟩ ↦ Except.ok.inj h ▸ hnext⟩

@[simp] theorem ok_bind (c : γ) (next : γ → Except ε δ) : (Except.ok c >>= next) = next c := rfl

/-- A step of a computation fails when one of its parts does. -/
theorem bind_eq_error {first : Except ε γ} {next : γ → Except ε δ} {e : ε} :
    (first >>= next) = .error e ↔
      first = .error e ∨ ∃ c, first = .ok c ∧ next c = .error e := by
  cases first with
  | error e' =>
    constructor
    · rintro ⟨⟩
      exact .inl rfl
    · rintro (⟨⟨⟩⟩ | ⟨c, ⟨⟩, -⟩)
      rfl
  | ok c =>
    refine ⟨fun h ↦ .inr ⟨c, rfl, h⟩, ?_⟩
    rintro (⟨⟨⟩⟩ | ⟨_, ⟨⟩, hnext⟩)
    exact hnext

/-- An error that neither part of a computation raises is not raised by the whole. -/
theorem bind_ne_error {first : Except ε γ} {next : γ → Except ε δ} {e : ε}
    (hfirst : first ≠ .error e) (hnext : ∀ c, next c ≠ .error e) : (first >>= next) ≠ .error e := by
  rw [Ne, bind_eq_error]
  rintro (herror | ⟨c, -, herror⟩)
  · exact hfirst herror
  · exact hnext c herror

/-- Where a word of the grammar comes first, the reader returns its value and leaves what follows
it. -/
def Reads (unread : σ → List β) (G : Grammar β α) (read : σ → Except ε (α × σ)) : Prop :=
  ∀ ⦃word a⦄, G word a → ∀ ⦃s rest⦄, unread s = word ++ rest →
    ∃ s', read s = .ok (a, s') ∧ unread s' = rest

/-- What the reader has consumed is a word for what it returns. -/
def ReadsOnly (unread : σ → List β) (G : Grammar β α) (read : σ → Except ε (α × σ)) : Prop :=
  ∀ ⦃s a s'⦄, read s = .ok (a, s') → ∃ word, unread s = word ++ unread s' ∧ G word a

/-! ### Cursors -/

section Cursor

variable {data word rest : List β} {p : ℕ} {b : β}

/-- What is still unread behind a cursor. -/
def unreadFrom (data : List β) (p : ℕ) : List β := data.drop p

theorem unreadFrom_add (h : unreadFrom data p = word ++ rest) :
    unreadFrom data (p + word.length) = rest := by
  rw [unreadFrom, ← List.drop_drop, show data.drop p = word ++ rest from h, List.drop_left]

theorem unreadFrom_succ (h : unreadFrom data p = b :: rest) : unreadFrom data (p + 1) = rest := by
  rw [unreadFrom, ← List.drop_drop, show data.drop p = b :: rest from h, List.drop_succ_cons,
    List.drop_zero]

theorem getElem?_of_unreadFrom (h : unreadFrom data p = b :: rest) : data[p]? = some b := by
  rw [← List.head?_drop, show data.drop p = b :: rest from h, List.head?_cons]

theorem unreadFrom_eq_nil_iff : unreadFrom data p = [] ↔ ¬p < data.length := by
  rw [unreadFrom, List.drop_eq_nil_iff, Nat.not_lt]

end Cursor

/-! ### Reading many -/

/-- A loop that reads a number of items and appends them to those it has. -/
def readMany (read : σ → Except ε (α × σ)) : ℕ → List α → σ → Except ε (List α × σ)
  | 0, items, s => .ok (items, s)
  | n + 1, items, s => do
    let (item, s) ← read s
    readMany read n (items ++ [item]) s

section Many

variable {unread : σ → List β} {G : Grammar β α} {read : σ → Except ε (α × σ)}

/-- The loop reads a sequence of words, by induction on the sequence. -/
theorem Reads.many (h : Reads unread G read) {word : List β} {as : List α}
    (hwords : Words G word as) {s : σ} {rest : List β} (hunread : unread s = word ++ rest)
    (items : List α) :
    ∃ s', readMany read as.length items s = .ok (items ++ as, s') ∧ unread s' = rest := by
  induction hwords generalizing s items with
  | nil => exact ⟨s, by rw [List.append_nil]; rfl, hunread⟩
  | @cons word tail a as head _ ih =>
    rw [List.append_assoc] at hunread
    obtain ⟨s', hread, hunread'⟩ := h head hunread
    obtain ⟨s'', hmany, hrest⟩ := ih hunread' (items ++ [a])
    refine ⟨s'', ?_, hrest⟩
    rw [List.length_cons, readMany, hread]
    show readMany read as.length (items ++ [a]) s' = _
    rw [hmany, List.append_assoc, List.singleton_append]

/-- The loop consumes a sequence of words, by induction on their number. -/
theorem ReadsOnly.many (h : ReadsOnly unread G read) {n : ℕ} {items all : List α} {s s' : σ}
    (hmany : readMany read n items s = .ok (all, s')) :
    ∃ word as, all = items ++ as ∧ as.length = n ∧ unread s = word ++ unread s' ∧
      Words G word as := by
  induction n generalizing items s with
  | zero =>
    obtain ⟨rfl, rfl⟩ := Prod.mk.inj (Except.ok.inj hmany)
    exact ⟨[], [], (List.append_nil _).symm, rfl, rfl, .nil⟩
  | succ n ih =>
    obtain ⟨⟨item, middle⟩, hread, htail⟩ := bind_eq_ok.mp hmany
    obtain ⟨word, hword, hitem⟩ := h hread
    obtain ⟨rest, as, rfl, rfl, hrest, hwords⟩ := ih htail
    refine ⟨word ++ rest, item :: as, ?_, rfl, ?_, .cons hitem hwords⟩
    · rw [List.append_assoc, List.singleton_append]
    · rw [hword, hrest, List.append_assoc]

/-- The loop reads a first part of the items and then the others. -/
theorem readMany_add (read : σ → Except ε (α × σ)) (m n : ℕ) (items : List α) (s : σ) :
    readMany read (m + n) items s =
      readMany read m items s >>= fun (items, s) ↦ readMany read n items s := by
  induction m generalizing items s with
  | zero =>
    rw [Nat.zero_add]
    rfl
  | succ m ih =>
    rw [Nat.succ_add, readMany, readMany]
    cases read s with
    | error e => rfl
    | ok first => exact ih _ _

/-- The loop fails exactly when it reads fewer items and reading the next one fails. -/
theorem readMany_eq_error_iff {e : ε} {n : ℕ} {items : List α} {s : σ} :
    readMany read n items s = .error e ↔
      ∃ m < n, ∃ all s', readMany read m items s = .ok (all, s') ∧ read s' = .error e := by
  constructor
  · intro herror
    induction n generalizing items s with
    | zero => cases herror
    | succ n ih =>
      rcases bind_eq_error.mp herror with hread | ⟨⟨item, s'⟩, hread, hmany⟩
      · exact ⟨0, Nat.succ_pos n, items, s, rfl, hread⟩
      · obtain ⟨m, hlt, all, s'', hearlier, hnext⟩ := ih hmany
        exact ⟨m + 1, Nat.succ_lt_succ hlt, all, s'', bind_eq_ok.mpr ⟨_, hread, hearlier⟩, hnext⟩
  · rintro ⟨m, hlt, all, s', hearlier, hnext⟩
    obtain ⟨later, rfl⟩ := Nat.exists_eq_add_of_lt hlt
    rw [Nat.add_assoc, readMany_add, hearlier, ok_bind]
    exact bind_eq_error.mpr (.inl hnext)

/-- The loop raises no error that reading an item does not raise. -/
theorem readMany_ne_error {e : ε} (h : ∀ s, read s ≠ .error e) (n : ℕ) (items : List α) (s : σ) :
    readMany read n items s ≠ .error e := by
  rw [Ne, readMany_eq_error_iff]
  rintro ⟨m, -, all, s', -, herror⟩
  exact h s' herror

end Many

end RedisCvlr.Library
