import RedisCvlr.Keyspace.Steps

/-!
# Accounting of an execution unit

The source writes a change of the keyspace out by hand wherever one happens: the slot, the dirty
counter, the log and the watchers, in commands and inside the lookups of commands that then fail.
`unit_accounting` says that the books balance after every execution unit: the dirty counter is the
number of logged effects, every changed slot is named by one of them, and a unit that logs nothing
has changed nothing.
-/

set_option autoImplicit false
set_option relaxedAutoImplicit false

namespace RedisCvlr.Contracts

open RedisCvlr.Model RedisCvlr.Watch RedisCvlr.Keyspace

variable {K C : ℕ}

/-- The key that a command names. -/
def commandKey? : Cmd K C → Option (Fin K)
  | .set key _ _ _ _ => some key
  | .get key => some key
  | .del key => some key
  | .existsKey key => some key
  | .type key => some key
  | .expire key _ _ => some key
  | .persist key => some key
  | .pttl key => some key
  | .keys => none
  | .dbSize => none
  | .watch _ key => some key
  | .unwatch _ => none

/-- The command adds or drops watches. -/
def changesWatches : Cmd K C → Bool
  | .watch _ _ => true
  | .unwatch _ => true
  | _ => false

section Units

variable {w : World K C} {s : Step K C}

/-- An emitted effect propagates an edit of the step: it names the key of the edit and is no
transaction marker. -/
theorem exists_edit_of_mem_emitted (hK : K ≤ replCap) {e : Effect K} (he : e ∈ emitted w s) :
    ∃ k edit, (k, edit) ∈ stepEdits w s ∧ e.key? = some k ∧ e ≠ .multi ∧ e ≠ .exec := by
  rw [emitted_eq w s hK] at he
  obtain ⟨⟨k, edit⟩, hmem, rfl⟩ := List.mem_map.mp he
  refine ⟨k, edit, hmem, Edit.effect_key k edit, ?_, ?_⟩ <;> cases edit <;> simp [Edit.effect]

/-- A step with room in the log appends what it emits. -/
theorem repl_next_emitted (w : World K C) (s : Step K C)
    (hroom : w.repl.len + max 2 K ≤ replCap) :
    (w.next s).repl.entries = w.repl.entries ++ emitted w s ∧
      (w.next s).repl.len = w.repl.len + (emitted w s).length ∧
      (emitted w s).length = (stepEdits w s).length := by
  have hK : K ≤ replCap := (le_max_right 2 K).trans (Nat.le_of_add_left_le hroom)
  have hfits := (Nat.add_le_add_left (length_stepEdits_le_max w s) w.repl.len).trans hroom
  rw [emitted_eq w s hK, List.length_map]
  exact ⟨(repl_next w s hfits).1, (repl_next w s hfits).2, rfl⟩

/-- The edits of a command are about its key. -/
theorem commandKey_of_mem_stepEdits {c : Fin C} {command : Cmd K C} {k : Fin K} {e : Edit}
    (hmem : (k, e) ∈ stepEdits w (.cmd c command)) : commandKey? command = some k := by
  rw [← mem_editsOn] at hmem
  revert hmem
  refine editsOn_rule w (fun edits ↦ e ∈ edits → commandKey? command = some k) k _
    (fun hmem ↦ absurd hmem List.not_mem_nil) (fun hcycle ↦ ?_) fun c' command' op hs hop _ ↦ ?_
  · cases hcycle
  · cases hs
    cases command <;> simp_all [keyOp?, commandKey?]

/-- A slot that no edit of the step is about keeps everything it holds. -/
theorem slots_next_of_editsOn_nil {k : Fin K} (hnone : editsOn k (stepEdits w s) = []) :
    (w.next s).slots k = w.slots k := by
  rw [next_slots, hnone]
  rfl

/-- A unit without edits leaves the log alone. -/
theorem repl_next_of_no_edits (hnone : stepEdits w s = []) : (w.next s).repl = w.repl := by
  refine next_rule (fun w' ↦ w'.repl = w.repl) s (fun _ _ ↦ rfl) (fun _ client k _ ↦ ?_)
    (fun _ client _ ↦ ?_) fun _ ↦ ?_
  · exact (repl_of_frame (watchKey_frame _ client k)).trans (freshUnit_repl w)
  · exact (repl_of_frame (unwatchAll_frame _ client)).trans (freshUnit_repl w)
  · rw [hnone, applyEdits_nil, freshUnit_repl]

/-- A unit without edits, other than one that changes watches, only resets the dirty counter. -/
theorem next_of_no_edits (hunit : ∀ d, s ≠ .clockTick d)
    (hwatches : ∀ c command, s = .cmd c command → changesWatches command = false)
    (hnone : stepEdits w s = []) : w.next s = freshUnit w := by
  refine next_rule (fun w' ↦ w' = freshUnit w) s (fun d hs ↦ (hunit d hs).elim)
    (fun c client k hs ↦ ?_) (fun c client hs ↦ ?_) fun _ ↦ ?_
  · exact absurd (hwatches c _ hs) (by simp [changesWatches])
  · exact absurd (hwatches c _ hs) (by simp [changesWatches])
  · rw [hnone, applyEdits_nil]

/-- An execution unit that starts at nesting 0 with room in the log ends at nesting 0 with the same
clock and configuration. Its dirty counter is the number of effects it logged; every slot it changed
is named by one of them; the effects of a command name the key of the command; and no transaction
marker is logged. A unit with a dirty counter of 0 has left the slots and the log as they were, and
the clients and the watch table too unless it changes watches. -/
theorem unit_accounting (w : World K C) (s : Step K C) (hunit : ∀ d, s ≠ .clockTick d)
    (hnesting : w.nesting = 0) (hroom : w.repl.len + max 2 K ≤ replCap) :
    ((w.next s).nesting = 0 ∧ (w.next s).clock = w.clock ∧ config (w.next s) = config w) ∧
    (∃ appended : List (Effect K),
      (w.next s).repl.entries = w.repl.entries ++ appended ∧
      (w.next s).repl.len = w.repl.len + appended.length ∧
      (w.next s).dirty = appended.length ∧
      (∀ k, (w.next s).slots k ≠ w.slots k → ∃ e ∈ appended, e.key? = some k) ∧
      (∀ c command, s = .cmd c command →
        ∀ e ∈ appended, ∃ k, e.key? = some k ∧ commandKey? command = some k) ∧
      ∀ e ∈ appended, e ≠ .multi ∧ e ≠ .exec) ∧
    ((w.next s).dirty = 0 →
      (w.next s).slots = w.slots ∧ (w.next s).repl = w.repl ∧
      ((∀ c command, s = .cmd c command → changesWatches command = false) →
        (w.next s).clients = w.clients ∧ (w.next s).watched = w.watched)) := by
  have hK : K ≤ replCap := (le_max_right 2 K).trans (Nat.le_of_add_left_le hroom)
  obtain ⟨hentries, hlen, hcount⟩ := repl_next_emitted w s hroom
  have hdirty := next_dirty hnesting hunit
  refine ⟨⟨(next_nesting w s).trans hnesting, ?_, next_config w s⟩,
    ⟨emitted w s, hentries, hlen, hdirty.trans hcount.symm, fun k hchanged ↦ ?_,
      fun c command hs e he ↦ ?_, fun e he ↦ ?_⟩, fun hclean ↦ ?_⟩
  · rw [next_clock]
    cases s with
    | clockTick d => exact (hunit d rfl).elim
    | cmd c command => rfl
    | activeExpire => rfl
  · rw [exists_emitted_on_iff w s hK]
    exact fun hnone ↦ hchanged (slots_next_of_editsOn_nil hnone)
  · subst hs
    obtain ⟨k, edit, hmem, hkey, -⟩ := exists_edit_of_mem_emitted hK he
    exact ⟨k, hkey, commandKey_of_mem_stepEdits hmem⟩
  · obtain ⟨_, _, _, -, hmarker⟩ := exists_edit_of_mem_emitted hK he
    exact hmarker
  · have hnone : stepEdits w s = [] := List.length_eq_zero_iff.mp (hdirty ▸ hclean)
    refine ⟨?_, repl_next_of_no_edits hnone, fun hwatches ↦ ?_⟩
    · funext k
      exact slots_next_of_editsOn_nil (by rw [hnone]; rfl)
    · rw [next_of_no_edits hunit hwatches hnone]
      exact ⟨rfl, rfl⟩

/-- A SET of an absent key changes its slot, so an effect on the key is logged. -/
theorem unit_accounting_set :
    ∃ appended : List (Effect keyCount),
      ((World.empty 0 : World keyCount clientCount).next
        (.cmd 0 (.set 0 Str.empty .always .none false))).repl.entries = appended ∧
      ∃ e ∈ appended, e.key? = some 0 := by
  obtain ⟨-, ⟨appended, hentries, -, -, hchanged, -⟩, -⟩ :=
    unit_accounting (World.empty 0 : World keyCount clientCount)
      (.cmd 0 (.set 0 Str.empty .always .none false)) (by simp) rfl (by decide)
  exact ⟨appended, hentries, hchanged 0 (by decide)⟩

end Units

end RedisCvlr.Contracts
