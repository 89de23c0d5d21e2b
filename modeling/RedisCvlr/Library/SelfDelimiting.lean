import Mathlib.Data.List.Basic

/-!
# Self-delimiting codes

A code is self-delimiting when a code word determines where it ends: whatever follows, two streams
that start with code words and are equal start with the same code word. Such codes are injective and
compose: a terminated line, a body after its own length, and a list after its own length are
self-delimiting.
-/

set_option autoImplicit false
set_option relaxedAutoImplicit false

namespace RedisCvlr.Library

variable {α β : Type*}

/-- A stream that starts with a code word determines the word and what follows it. -/
def SelfDelimiting (code : α → List β) : Prop :=
  ∀ ⦃a b : α⦄ ⦃r s : List β⦄, code a ++ r = code b ++ s → a = b ∧ r = s

/-- The first terminator of a stream determines what is before it and what is after it. -/
theorem append_stop_inj {stop : β} {x y r s : List β} (hx : stop ∉ x) (hy : stop ∉ y)
    (hstream : x ++ stop :: r = y ++ stop :: s) : x = y ∧ r = s := by
  induction x generalizing y with
  | nil =>
    cases y with
    | nil => exact ⟨rfl, (List.cons.inj hstream).2⟩
    | cons b y =>
      obtain ⟨rfl, -⟩ := List.cons.inj hstream
      exact absurd List.mem_cons_self hy
  | cons a x ih =>
    cases y with
    | nil =>
      obtain ⟨rfl, -⟩ := List.cons.inj hstream
      exact absurd List.mem_cons_self hx
    | cons b y =>
      obtain ⟨rfl, htail⟩ := List.cons.inj hstream
      obtain ⟨rfl, hrest⟩ :=
        ih (mt (List.mem_cons_of_mem a) hx) (mt (List.mem_cons_of_mem a) hy) htail
      exact ⟨rfl, hrest⟩

/-- An optional part is determined by what starts with it, if the first item of a code word
determines its length and what follows does not start like a code word. -/
theorem append_inj_of_head {code : α → List β} (hinjective : Function.Injective code)
    (hlength : ∀ a b, (code a).head? = (code b).head? → (code a).length = (code b).length)
    {r s : List β} (hr : ∀ a, code a ≠ [] → r.head? ≠ (code a).head?)
    (hs : ∀ a, code a ≠ [] → s.head? ≠ (code a).head?) {a b : α}
    (hstream : code a ++ r = code b ++ s) : a = b ∧ r = s := by
  have hhead : (code a).head? = (code b).head? := by
    have hheads := congrArg List.head? hstream
    by_cases ha : code a = [] <;> by_cases hb : code b = []
    · rw [ha, hb]
    · rw [ha, List.nil_append, List.head?_append_of_ne_nil _ hb] at hheads
      exact absurd hheads (hr b hb)
    · rw [hb, List.nil_append, List.head?_append_of_ne_nil _ ha] at hheads
      exact absurd hheads.symm (hs a ha)
    · rwa [List.head?_append_of_ne_nil _ ha, List.head?_append_of_ne_nil _ hb] at hheads
  obtain ⟨hcode, hrest⟩ := List.append_inj hstream (hlength a b hhead)
  exact ⟨hinjective hcode, hrest⟩

namespace SelfDelimiting

variable {code : α → List β}

theorem injective (h : SelfDelimiting code) : Function.Injective code := by
  intro a b hcode
  exact (h (congrArg (· ++ []) hcode)).1

/-- A body without the terminator, a terminator, and a fixed tail. -/
theorem terminated {body : α → List β} (hinjective : Function.Injective body) {stop : β}
    (hfree : ∀ a, stop ∉ body a) (tail : List β) :
    SelfDelimiting fun a ↦ body a ++ stop :: tail := by
  intro a b r s hstream
  simp only [List.append_assoc, List.cons_append] at hstream
  obtain ⟨hbody, hrest⟩ := append_stop_inj (hfree a) (hfree b) hstream
  exact ⟨hinjective hbody, List.append_cancel_left hrest⟩

/-- A fixed start before a code word. -/
theorem preceded (h : SelfDelimiting code) (start : List β) :
    SelfDelimiting fun a ↦ start ++ code a := by
  intro a b r s hstream
  simp only [List.append_assoc] at hstream
  exact h (List.append_cancel_left hstream)

/-- A body of any content after a header that encodes its length, and a fixed tail. -/
theorem lengthPrefixed {header : ℕ → List β} (h : SelfDelimiting header) (tail : List β) :
    SelfDelimiting fun body : List β ↦ header body.length ++ (body ++ tail) := by
  intro a b r s hstream
  simp only [List.append_assoc] at hstream
  obtain ⟨hlength, hbody⟩ := h hstream
  obtain ⟨hsame, hrest⟩ := List.append_inj hbody hlength
  exact ⟨hsame, List.append_cancel_left hrest⟩

/-- Code words one after the other, where their number is known. -/
theorem flatMap_append_inj (h : SelfDelimiting code) {xs ys : List α}
    (hlength : xs.length = ys.length) {r s : List β}
    (hstream : xs.flatMap code ++ r = ys.flatMap code ++ s) : xs = ys ∧ r = s := by
  induction xs generalizing ys with
  | nil =>
    obtain rfl := List.length_eq_zero_iff.mp hlength.symm
    exact ⟨rfl, hstream⟩
  | cons x xs ih =>
    cases ys with
    | nil => exact absurd hlength (by simp)
    | cons y ys =>
      rw [List.flatMap_cons, List.flatMap_cons, List.append_assoc, List.append_assoc] at hstream
      obtain ⟨rfl, htail⟩ := h hstream
      obtain ⟨rfl, hrest⟩ := ih (Nat.succ.inj hlength) htail
      exact ⟨rfl, hrest⟩

/-- A list of code words after a header that encodes their number. -/
theorem counted {header : ℕ → List β} (hheader : SelfDelimiting header)
    (hitem : SelfDelimiting code) :
    SelfDelimiting fun items : List α ↦ header items.length ++ items.flatMap code := by
  intro a b r s hstream
  simp only [List.append_assoc] at hstream
  obtain ⟨hlength, hitems⟩ := hheader hstream
  exact hitem.flatMap_append_inj hlength hitems

end SelfDelimiting

end RedisCvlr.Library
