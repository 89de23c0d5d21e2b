import Mathlib.Data.Stream.Init

/-!
# Programs that draw

A program draws values, assumes and asserts conditions and returns a value; an assume that fails
does not stop it. `Program` is the tree of what it does next, so whoever runs a program decides what
a draw gives and what a failed condition means. On a stream of draws a program has a value, a
sequence of events, and a rest of the stream.

`Meets Q program` says that on every stream the value and the events are related by `Q`. There is
one rule for each way to build a program. `Ensures` is the case in which every condition is true,
and `Draws` the case without events. `Exactly` adds to `Draws` that each value is drawn from some
beginning of a stream, whatever comes after it.
-/

set_option autoImplicit false
set_option relaxedAutoImplicit false

namespace RedisCvlr.Library

variable {α β δ : Type}

/-! ### Programs -/

/-- A condition that a program has reported. -/
inductive Event
  | assume (c : Bool)
  | assert (c : Bool)
  deriving DecidableEq

/-- The condition of an event. -/
def Event.condition : Event → Bool
  | .assume c => c
  | .assert c => c

/-- What a program does: it returns, or makes a call and goes on. -/
inductive Program (δ α : Type)
  | done (a : α)
  | draw (next : δ → Program δ α)
  | assume (c : Bool) (next : Program δ α)
  | assert (c : Bool) (next : Program δ α)

namespace Program

/-- A program and then what depends on its value. -/
protected def bind (next : α → Program δ β) : Program δ α → Program δ β
  | .done a => next a
  | .draw more => .draw fun x ↦ (more x).bind next
  | .assume c more => .assume c (more.bind next)
  | .assert c more => .assert c (more.bind next)

instance : Monad (Program δ) where
  pure := .done
  bind program next := program.bind next

/-- The value on a stream. -/
def value : Program δ α → Stream' δ → α
  | .done a, _ => a
  | .draw next, s => (next s.head).value s.tail
  | .assume _ next, s => next.value s
  | .assert _ next, s => next.value s

/-- What is left of a stream. -/
def rest : Program δ α → Stream' δ → Stream' δ
  | .done _, s => s
  | .draw next, s => (next s.head).rest s.tail
  | .assume _ next, s => next.rest s
  | .assert _ next, s => next.rest s

/-- The events on a stream, in program order. -/
def events : Program δ α → Stream' δ → List Event
  | .done _, _ => []
  | .draw next, s => (next s.head).events s.tail
  | .assume c next, s => .assume c :: next.events s
  | .assert c next, s => .assert c :: next.events s

section Laws

variable (program : Program δ α) (next : α → Program δ β) (s : Stream' δ)

instance : LawfulMonad (Program δ) := by
  refine LawfulMonad.mk' (Program δ) (fun program ↦ ?_) (fun _ _ ↦ rfl) fun program _ _ ↦ ?_
  · show program.bind .done = program
    induction program with
    | done a => rfl
    | draw more ih => exact congrArg draw (funext ih)
    | assume c more ih => exact congrArg (assume c) ih
    | assert c more ih => exact congrArg (assert c) ih
  · induction program with
    | done a => rfl
    | draw more ih => exact congrArg draw (funext ih)
    | assume c more ih => exact congrArg (assume c) ih
    | assert c more ih => exact congrArg (assert c) ih

theorem value_bind :
    (program >>= next).value s = (next (program.value s)).value (program.rest s) := by
  induction program generalizing s with
  | done a => rfl
  | draw more ih => exact ih s.head s.tail
  | assume c more ih => exact ih s
  | assert c more ih => exact ih s

theorem value_map (f : α → β) : (f <$> program).value s = f (program.value s) := by
  rw [map_eq_pure_bind, value_bind]
  rfl

theorem rest_bind : (program >>= next).rest s = (next (program.value s)).rest (program.rest s) := by
  induction program generalizing s with
  | done a => rfl
  | draw more ih => exact ih s.head s.tail
  | assume c more ih => exact ih s
  | assert c more ih => exact ih s

theorem events_bind : (program >>= next).events s =
    program.events s ++ (next (program.value s)).events (program.rest s) := by
  induction program generalizing s with
  | done a => rfl
  | draw more ih => exact ih s.head s.tail
  | assume c more ih => exact congrArg (Event.assume c :: ·) (ih s)
  | assert c more ih => exact congrArg (Event.assert c :: ·) (ih s)

end Laws

end Program

/-! ### The rules -/

/-- On every stream, what the program returns and reports has the property. -/
def Meets (Q : α → List Event → Prop) (program : Program δ α) : Prop :=
  ∀ s, Q (program.value s) (program.events s)

/-- On every stream, what the program returns has the property, and every condition is true. -/
abbrev Ensures (P : α → Prop) (program : Program δ α) : Prop :=
  Meets (fun a events ↦ P a ∧ ∀ e ∈ events, e.condition = true) program

/-- On every stream, what the program returns has the property, and it reports nothing. -/
abbrev Draws (P : α → Prop) (program : Program δ α) : Prop :=
  Meets (fun a events ↦ P a ∧ events = []) program

section Logic

variable {Q Q' : α → List Event → Prop} {R : β → List Event → Prop} {P : α → Prop}
  {program : Program δ α} {next next' : α → Program δ β} {c : Bool}

theorem meets_pure {a : α} (h : Q a []) : Meets Q (pure a : Program δ α) := fun _ ↦ h

theorem meets_mono (h : Meets Q program) (hle : ∀ a events, Q a events → Q' a events) :
    Meets Q' program := fun s ↦ hle _ _ (h s)

theorem meets_bind (hfirst : Meets Q program)
    (hnext : ∀ a earlier, Q a earlier → Meets (fun b later ↦ R b (earlier ++ later)) (next a)) :
    Meets R (program >>= next) := by
  intro s
  rw [Program.value_bind, Program.events_bind]
  exact hnext _ _ (hfirst s) _

theorem meets_draw : Draws (fun _ ↦ True) (.draw .done : Program δ δ) := fun _ ↦ ⟨trivial, rfl⟩

theorem meets_assume (c : Bool) :
    Meets (fun _ events ↦ events = [.assume c]) (.assume c (.done ()) : Program δ Unit) :=
  fun _ ↦ rfl

theorem meets_assert (c : Bool) :
    Meets (fun _ events ↦ events = [.assert c]) (.assert c (.done ()) : Program δ Unit) :=
  fun _ ↦ rfl

/-- A draw followed by a program meets what the program meets after every drawn value. -/
theorem meets_drawn (hdraw : Draws P program) (hnext : ∀ a, P a → Meets R (next a)) :
    Meets R (program >>= next) := by
  refine meets_bind hdraw ?_
  rintro a _ ⟨ha, rfl⟩
  exact hnext a ha

/-- A program that goes on from what it draws reports what it reports then. -/
theorem events_drawn (hdraw : Draws P program) (s : Stream' δ) :
    (program >>= next).events s = (next (program.value s)).events (program.rest s) := by
  rw [Program.events_bind, (hdraw s).2, List.nil_append]

theorem draws_pure {a : α} (h : P a) : Draws P (pure a : Program δ α) := meets_pure ⟨h, rfl⟩

theorem draws_bind {P' : β → Prop} (hfirst : Draws P program)
    (hnext : ∀ a, P a → Draws P' (next a)) : Draws P' (program >>= next) :=
  meets_drawn hfirst hnext

theorem draws_mono {P' : α → Prop} (h : Draws P program) (hle : ∀ a, P a → P' a) :
    Draws P' program := meets_mono h fun a _ ha ↦ ⟨hle a ha.1, ha.2⟩

/-- Two programs that go on alike from every value that is drawn, by induction on the draws. -/
theorem bind_congr_of_draws [Nonempty δ] (hfirst : Draws P program)
    (hnext : ∀ a, P a → next a = next' a) : program >>= next = program >>= next' := by
  obtain ⟨x⟩ := ‹Nonempty δ›
  induction program with
  | done a => exact hnext a (hfirst (Stream'.const x)).1
  | draw more ih =>
    exact congrArg Program.draw (funext fun y ↦ ih y fun s ↦ hfirst (Stream'.cons y s))
  | assume c more _ => exact absurd (hfirst (Stream'.const x)).2 (List.cons_ne_nil _ _)
  | assert c more _ => exact absurd (hfirst (Stream'.const x)).2 (List.cons_ne_nil _ _)

theorem ensures_pure {a : α} (h : P a) : Ensures P (pure a : Program δ α) := meets_pure ⟨h, by simp⟩

theorem ensures_bind {P' : β → Prop} (hfirst : Ensures P program)
    (hnext : ∀ a, P a → Ensures P' (next a)) : Ensures P' (program >>= next) := by
  refine meets_bind hfirst fun a earlier ha ↦ meets_mono (hnext a ha.1) fun b later hb ↦ ?_
  refine ⟨hb.1, fun e hmem ↦ ?_⟩
  exact (List.mem_append.mp hmem).elim (ha.2 e) (hb.2 e)

theorem ensures_assume (h : c = true) :
    Ensures (fun _ ↦ True) (.assume c (.done ()) : Program δ Unit) :=
  meets_mono (meets_assume c) (by simp [h, Event.condition])

theorem ensures_assert (h : c = true) :
    Ensures (fun _ ↦ True) (.assert c (.done ()) : Program δ Unit) :=
  meets_mono (meets_assert c) (by simp [h, Event.condition])

theorem ensures_assert_then {P' : β → Prop} {program : Program δ β} (h : c = true)
    (hnext : Ensures P' program) :
    Ensures P' ((.assert c (.done ()) : Program δ Unit) >>= fun _ ↦ program) :=
  ensures_bind (ensures_assert h) fun _ _ ↦ hnext

/-- A loop whose rounds report true conditions, by induction on the list. -/
theorem ensures_forM {γ : Type} {body : γ → Program δ Unit} {xs : List γ}
    (h : ∀ x ∈ xs, Ensures (fun _ ↦ True) (body x)) : Ensures (fun _ ↦ True) (xs.forM body) := by
  induction xs with
  | nil => exact ensures_pure trivial
  | cons x rest ih =>
    rw [List.forall_mem_cons] at h
    exact ensures_bind h.1 fun _ _ ↦ ih h.2

end Logic

/-! ### Exact ranges -/

/-- There are draws on which the program returns the value, whatever is drawn afterwards. -/
def Produces (program : Program δ α) (a : α) : Prop :=
  ∃ draws : List δ, ∀ s, program.value (Stream'.appendStream' draws s) = a ∧
    program.rest (Stream'.appendStream' draws s) = s

/-- The program returns the values with the property and no others, and reports nothing. -/
structure Exactly (P : α → Prop) (program : Program δ α) : Prop where
  sound : Draws P program
  complete : ∀ a, P a → Produces program a

section Exact

variable {P P' : α → Prop} {R : α → β → Prop} {program : Program δ α} {next : α → Program δ β}

theorem produces_pure (a : α) : Produces (pure a : Program δ α) a := ⟨[], fun _ ↦ ⟨rfl, rfl⟩⟩

theorem produces_bind {a : α} {b : β} (hfirst : Produces program a) (hnext : Produces (next a) b) :
    Produces (program >>= next) b := by
  obtain ⟨draws, hdraws⟩ := hfirst
  obtain ⟨draws', hdraws'⟩ := hnext
  refine ⟨draws ++ draws', fun s ↦ ?_⟩
  obtain ⟨hvalue, hrest⟩ := hdraws (Stream'.appendStream' draws' s)
  rw [Stream'.append_append_stream, Program.value_bind, Program.rest_bind, hvalue, hrest]
  exact hdraws' s

theorem exactly_congr (h : Exactly P program) (hiff : ∀ a, P a ↔ P' a) : Exactly P' program where
  sound := draws_mono h.sound fun a ↦ (hiff a).mp
  complete a ha := h.complete a ((hiff a).mpr ha)

theorem exactly_pure (a : α) : Exactly (fun a' ↦ a' = a) (pure a : Program δ α) where
  sound := draws_pure rfl
  complete := by
    rintro _ rfl
    exact produces_pure _

theorem exactly_draw : Exactly (fun _ ↦ True) (.draw .done : Program δ δ) where
  sound := meets_draw
  complete x _ := ⟨[x], fun _ ↦ ⟨rfl, rfl⟩⟩

theorem exactly_bind (hfirst : Exactly P program) (hnext : ∀ a, P a → Exactly (R a) (next a)) :
    Exactly (fun b ↦ ∃ a, P a ∧ R a b) (program >>= next) where
  sound := draws_bind hfirst.sound fun a ha ↦ draws_mono (hnext a ha).sound fun _ hb ↦ ⟨a, ha, hb⟩
  complete := by
    rintro b ⟨a, ha, hb⟩
    exact produces_bind (hfirst.complete a ha) ((hnext a ha).complete b hb)

/-- A program that returns a function of what it draws. -/
theorem exactly_map (f : α → β) (h : Exactly P program) :
    Exactly (fun b ↦ ∃ a, P a ∧ b = f a) (program >>= fun a ↦ pure (f a)) :=
  exactly_bind h fun a _ ↦ exactly_pure (f a)

/-- A value is in the exact range if and only if some stream gives it. -/
theorem exactly_iff [Nonempty δ] (h : Exactly P program) (a : α) :
    P a ↔ ∃ s, program.value s = a := by
  constructor
  · intro ha
    obtain ⟨draws, hdraws⟩ := h.complete a ha
    obtain ⟨x⟩ := ‹Nonempty δ›
    exact ⟨Stream'.appendStream' draws (Stream'.const x), (hdraws _).1⟩
  · rintro ⟨s, rfl⟩
    exact (h.sound s).1

end Exact

end RedisCvlr.Library
