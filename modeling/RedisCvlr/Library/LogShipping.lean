import Mathlib.Data.List.Induction
import RedisCvlr.Library.Machine

/-!
# Log shipping

A primary machine emits operations at each of its steps. They travel in order through a channel to a
follower, which applies them one by one and takes steps of its own in between. `Faithful` says what
the two sides owe each other in terms of a common view: the operations of a step take the view of
the primary before the step to its view after, a valid operation does on the follower what it says,
and the steps of the follower itself do not change its view.

`view_follower` is the consequence for every interleaving: when the follower has applied exactly
what the primary emitted in a prefix of its steps, it has the view of the primary after that prefix.
-/

set_option autoImplicit false
set_option relaxedAutoImplicit false

namespace RedisCvlr.Library.LogShipping

open Machine

variable {σ ℓ ε τ κ δ : Type*}

/-- The two parties, and the operations in flight, the oldest first. -/
structure Link (σ ε τ : Type*) where
  primary : σ
  channel : List ε
  follower : τ

/-- A step of the primary, the delivery of the oldest operation, or a step of the follower. -/
inductive Action (ℓ κ : Type*)
  | primary (label : ℓ)
  | deliver
  | follower (label : κ)

/-- The behaviour of the two parties. -/
structure Parties (σ ℓ ε τ κ : Type*) where
  step : σ → ℓ → σ
  emit : σ → ℓ → List ε
  apply : τ → ε → τ
  own : τ → κ → τ

/-- The steps that the primary takes in a schedule of actions. -/
def primaryLabels : List (Action ℓ κ) → List ℓ
  | [] => []
  | .primary label :: rest => label :: primaryLabels rest
  | .deliver :: rest => primaryLabels rest
  | .follower _ :: rest => primaryLabels rest

theorem primaryLabels_append (first second : List (Action ℓ κ)) :
    primaryLabels (first ++ second) = primaryLabels first ++ primaryLabels second := by
  induction first with
  | nil => rfl
  | cons action rest ih =>
    cases action with
    | primary label => exact congrArg (label :: ·) ih
    | deliver => exact ih
    | follower label => exact ih

namespace Parties

variable (P : Parties σ ℓ ε τ κ)

/-- One action. A delivery from an empty channel does nothing. -/
def next (link : Link σ ε τ) : Action ℓ κ → Link σ ε τ
  | .primary label =>
    ⟨P.step link.primary label, link.channel ++ P.emit link.primary label, link.follower⟩
  | .deliver =>
    match link.channel with
    | [] => link
    | e :: rest => ⟨link.primary, rest, P.apply link.follower e⟩
  | .follower label => ⟨link.primary, link.channel, P.own link.follower label⟩

/-- What the primary emits along its steps. -/
def emissions : σ → List ℓ → List ε
  | _, [] => []
  | s, label :: rest => P.emit s label ++ emissions (P.step s label) rest

theorem emissions_append (s : σ) (first second : List ℓ) :
    P.emissions s (first ++ second) =
      P.emissions s first ++ P.emissions (run P.step s first) second := by
  induction first generalizing s with
  | nil => rfl
  | cons label rest ih =>
    show P.emit s label ++ P.emissions (P.step s label) (rest ++ second) = _
    rw [ih, ← List.append_assoc]
    rfl

/-- What the two sides owe each other, for a common view of their states and the meaning of the
operations on it. -/
structure Faithful (op : δ → ε → δ) (valid : δ → ε → Prop) (view : σ → δ) (view' : τ → δ)
    (I : σ → Prop) (J : τ → Prop) : Prop where
  kept : ∀ s label, I s → I (P.step s label)
  emitted : ∀ s label, I s → Admissible op valid (view s) (P.emit s label) ∧
    run op (view s) (P.emit s label) = view (P.step s label)
  applied : ∀ t e, J t → valid (view' t) e → J (P.apply t e) ∧ view' (P.apply t e) = op (view' t) e
  owned : ∀ t label, J t → J (P.own t label) ∧ view' (P.own t label) = view' t

variable {P} {op : δ → ε → δ} {valid : δ → ε → Prop} {view : σ → δ} {view' : τ → δ}
  {I : σ → Prop} {J : τ → Prop}

/-- The emissions of a schedule can be replayed, and the replay gives the view of the primary. -/
theorem Faithful.replay (hP : P.Faithful op valid view view' I J) {s : σ} (hs : I s)
    (labels : List ℓ) :
    Admissible op valid (view s) (P.emissions s labels) ∧
      run op (view s) (P.emissions s labels) = view (run P.step s labels) := by
  induction labels generalizing s with
  | nil => exact ⟨trivial, rfl⟩
  | cons label rest ih =>
    obtain ⟨hvalid, hview⟩ := hP.emitted s label hs
    obtain ⟨hrestValid, hrestView⟩ := ih (hP.kept s label hs)
    show Admissible op valid (view s) (P.emit s label ++ P.emissions (P.step s label) rest) ∧
      run op (view s) (P.emit s label ++ P.emissions (P.step s label) rest) = _
    rw [admissible_append, run_append, hview]
    exact ⟨⟨hvalid, hrestValid⟩, hrestView⟩

/-- The primary does not notice the follower. -/
theorem primary_run (link : Link σ ε τ) (actions : List (Action ℓ κ)) :
    (run P.next link actions).primary = run P.step link.primary (primaryLabels actions) := by
  induction actions generalizing link with
  | nil => rfl
  | cons action rest ih =>
    cases action with
    | primary label => exact ih _
    | follower label => exact ih _
    | deliver =>
      obtain ⟨primary, channel, follower⟩ := link
      cases channel <;> exact ih _

section Runs

variable {s₀ : σ} {t₀ : τ}

/-- The emissions so far are the delivered ones followed by those in the channel, and the view of
the follower is the replay of the delivered ones. -/
theorem Faithful.delivered (hP : P.Faithful op valid view view' I J) (hs : I s₀) (ht : J t₀)
    (hview : view' t₀ = view s₀) (actions : List (Action ℓ κ)) :
    ∃ done, done ++ (run P.next ⟨s₀, [], t₀⟩ actions).channel =
        P.emissions s₀ (primaryLabels actions) ∧
      J (run P.next ⟨s₀, [], t₀⟩ actions).follower ∧
      view' (run P.next ⟨s₀, [], t₀⟩ actions).follower = run op (view s₀) done := by
  induction actions using List.reverseRecOn with
  | nil => exact ⟨[], rfl, ht, hview⟩
  | append_singleton before action ih =>
    have hprimary := primary_run (P := P) ⟨s₀, [], t₀⟩ before
    obtain ⟨done, hdone, hfollower, hreplayed⟩ := ih
    rw [run_append, primaryLabels_append, emissions_append, ← hprimary, ← hdone]
    have hvalid := (hP.replay hs (primaryLabels before)).1
    rw [← hdone] at hvalid
    generalize run P.next ⟨s₀, [], t₀⟩ before = link at hdone hfollower hreplayed hvalid ⊢
    cases action with
    | primary label =>
      refine ⟨done, ?_, hfollower, hreplayed⟩
      show done ++ (link.channel ++ P.emit link.primary label) =
        done ++ link.channel ++ (P.emit link.primary label ++ [])
      rw [List.append_nil, List.append_assoc]
    | follower label =>
      obtain ⟨hkept, hsame⟩ := hP.owned link.follower label hfollower
      refine ⟨done, ?_, hkept, hsame.trans hreplayed⟩
      exact (List.append_nil _).symm
    | deliver =>
      obtain ⟨primary, channel, follower⟩ := link
      cases channel with
      | nil => exact ⟨done, (List.append_nil _).symm, hfollower, hreplayed⟩
      | cons e rest =>
        obtain ⟨-, he, -⟩ := admissible_append.mp hvalid
        rw [← hreplayed] at he
        obtain ⟨hkept, happlied⟩ := hP.applied follower e hfollower he
        refine ⟨done ++ [e], ?_, hkept, ?_⟩
        · show done ++ [e] ++ rest = done ++ e :: rest ++ []
          rw [List.append_nil, List.append_assoc]
          rfl
        · show view' (P.apply follower e) = _
          rw [happlied, run_append, ← hreplayed]
          rfl

/-- When the follower has applied exactly what the primary emitted in a prefix of its steps, it has
the view of the primary after that prefix. -/
theorem Faithful.view_follower (hP : P.Faithful op valid view view' I J) (hs : I s₀) (ht : J t₀)
    (hview : view' t₀ = view s₀) {actions : List (Action ℓ κ)} {before after : List ℓ}
    (hsteps : primaryLabels actions = before ++ after)
    (hpending : (run P.next ⟨s₀, [], t₀⟩ actions).channel =
      P.emissions (run P.step s₀ before) after) :
    view' (run P.next ⟨s₀, [], t₀⟩ actions).follower = view (run P.step s₀ before) := by
  obtain ⟨done, hdone, -, hreplayed⟩ := hP.delivered hs ht hview actions
  rw [hsteps, emissions_append, hpending] at hdone
  rw [hreplayed, List.append_cancel_right hdone, (hP.replay hs before).2]

/-- Delivering everything that is in flight empties the channel. -/
theorem run_deliver (link : Link σ ε τ) :
    (run P.next link
      (List.replicate link.channel.length (.deliver : Action ℓ κ))).channel = [] := by
  obtain ⟨primary, channel, follower⟩ := link
  induction channel generalizing follower with
  | nil => rfl
  | cons e rest ih => exact ih (P.apply follower e)

theorem primaryLabels_deliver (n : ℕ) :
    primaryLabels (List.replicate n (.deliver : Action ℓ κ)) = [] := by
  induction n with
  | zero => rfl
  | succ n ih => exact ih

/-- Once everything in flight is delivered, the follower has the view of the primary. -/
theorem Faithful.converges (hP : P.Faithful op valid view view' I J) (hs : I s₀) (ht : J t₀)
    (hview : view' t₀ = view s₀) (actions : List (Action ℓ κ)) :
    view' (run P.next (run P.next ⟨s₀, [], t₀⟩ actions) (List.replicate
        (run P.next ⟨s₀, [], t₀⟩ actions).channel.length .deliver)).follower =
      view (run P.next ⟨s₀, [], t₀⟩ actions).primary := by
  have hempty := run_deliver (P := P) (run P.next ⟨s₀, [], t₀⟩ actions)
  have hsteps : primaryLabels (actions ++ List.replicate
      (run P.next ⟨s₀, [], t₀⟩ actions).channel.length .deliver) = primaryLabels actions ++ [] := by
    rw [primaryLabels_append, primaryLabels_deliver]
  rw [← run_append] at hempty
  rw [primary_run, ← run_append]
  exact hP.view_follower hs ht hview hsteps hempty

end Runs

end Parties

end RedisCvlr.Library.LogShipping
