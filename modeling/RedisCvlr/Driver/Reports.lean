import RedisCvlr.Driver.Harness

/-!
# Reports

A report of `run_schedule` is about the first step whose replies disagree, or about the snapshots
when no step does. What it says of the model is what the model does when it is run alone, and the
steps after the reported one play no part: the schedule may be cut off there, or go on in any other
way.
-/

set_option autoImplicit false
set_option relaxedAutoImplicit false

namespace RedisCvlr.Driver

open RedisCvlr.Library RedisCvlr.Model

variable {K C : ℕ} [NeZero C] {σ : Type}

/-! ### The loop -/

section Loop

variable {server : Server σ} {seed : UInt64}

theorem runSteps_cmd (i : ℕ) (w : World K C) (conn : Conn σ) (command : Cmd K C)
    (rest : List (DiffStep K C)) :
    runSteps server seed i w conn (.cmd command :: rest) = (do
      let (reply, conn) ← clientCmd server conn (render command)
      if repliesAgree (execCmd w 0 command).2 reply (DiffStep.cmd command).isPttl then
        runSteps server seed (i + 1) (execCmd w 0 command).1 conn rest
      else
        let what := .reply (requestText (render command)) (describe (execCmd w 0 command).2) reply
        return (conn, .inl ⟨seed, i, what⟩)) := rfl

/-- A schedule is run by running its first part and, unless that diverges, the rest. -/
theorem runSteps_append (first rest : List (DiffStep K C)) (i : ℕ) (w : World K C)
    (conn : Conn σ) :
    runSteps server seed i w conn (first ++ rest) = (do
      let (conn, outcome) ← runSteps server seed i w conn first
      match outcome with
      | .inl divergence => return (conn, .inl divergence)
      | .inr w => runSteps server seed (i + first.length) w conn rest) := by
  induction first generalizing i w conn with
  | nil => rfl
  | cons s first ih =>
    rw [List.length_cons, ← Nat.add_assoc, Nat.add_right_comm]
    cases s with
    | tick => exact ih (i + 1) _ _
    | cmd command =>
      rw [List.cons_append, runSteps_cmd, runSteps_cmd]
      cases clientCmd server conn (render command) with
      | error e => rfl
      | ok got =>
        simp only [ok_bind]
        split_ifs
        · exact ih (i + 1) _ _
        · rfl

/-- What a command of the schedule leads to. -/
theorem runSteps_cmd_eq_ok {i : ℕ} {w : World K C} {conn conn' : Conn σ} {command : Cmd K C}
    {rest : List (DiffStep K C)} {outcome : Divergence ⊕ World K C}
    (h : runSteps server seed i w conn (.cmd command :: rest) = .ok (conn', outcome)) :
    ∃ reply conn₁, clientCmd server conn (render command) = .ok (reply, conn₁) ∧
      if repliesAgree (execCmd w 0 command).2 reply (DiffStep.cmd command).isPttl then
        runSteps server seed (i + 1) (execCmd w 0 command).1 conn₁ rest = .ok (conn', outcome)
      else conn₁ = conn' ∧ outcome = .inl ⟨seed, i, .reply (requestText (render command))
        (describe (execCmd w 0 command).2) reply⟩ := by
  rw [runSteps_cmd, bind_eq_ok] at h
  obtain ⟨⟨reply, conn₁⟩, hreply, hrest⟩ := h
  refine ⟨reply, conn₁, hreply, ?_⟩
  simp only at hrest
  split_ifs at hrest ⊢
  · exact hrest
  · obtain ⟨rfl, rfl⟩ := Prod.mk.inj (Except.ok.inj hrest)
    exact ⟨rfl, rfl⟩

/-- A loop that runs to its end leaves the world that the model reaches alone. -/
theorem runSteps_inr {schedule : List (DiffStep K C)} {i : ℕ} {w w' : World K C}
    {conn conn' : Conn σ}
    (h : runSteps server seed i w conn schedule = .ok (conn', .inr w')) :
    w' = (modelRun w schedule).1 := by
  induction schedule generalizing i w conn with
  | nil =>
    obtain ⟨-, hw⟩ := Prod.mk.inj (Except.ok.inj h)
    exact (Sum.inr.inj hw).symm
  | cons s rest ih =>
    cases s with
    | tick => exact ih h
    | cmd command =>
      obtain ⟨reply, conn₁, -, hrest⟩ := runSteps_cmd_eq_ok h
      split_ifs at hrest
      · exact ih hrest
      · exact absurd hrest.2 (by simp)

end Loop

/-! ### The report of a schedule -/

section Report

variable {server : Server σ} {seed : UInt64} {base : Ms} {schedule : List (DiffStep K C)}
  {conn conn' flushed : Conn σ} {ignored : Resp} {d : Divergence}

/-- A schedule whose loop runs to its end is decided by the snapshots. -/
theorem runSchedule_of_inr {conn₁ : Conn σ} {w : World K C}
    (hflush : clientCmdS server conn ["FLUSHALL"] = .ok (ignored, flushed))
    (hloop : runSteps server seed 0 (World.empty base) flushed schedule = .ok (conn₁, .inr w)) :
    runSchedule server seed base schedule conn = (do
      let (observed, conn) ← wireSnapshot server conn₁
      if modelSnapshot w = observed then return (conn, none)
      else return (conn,
        some ⟨seed, schedule.length, .snapshot (modelSnapshot w) observed⟩)) := by
  rw [runSchedule, hflush, ok_bind]
  simp only [hloop, ok_bind]

end Report

/-! ### A server that replies with a number -/

/-- A server that replies `0` to every request. -/
def zeroServer : Server Unit where
  serve := fun s _ ↦ (s, respBytes (.int 0))
  sleep := fun s _ ↦ s

theorem clientCmd_zeroServer (args : List (List UInt8)) :
    clientCmd zeroServer ⟨(), []⟩ args = .ok (.int 0, ⟨(), []⟩) := by
  have hint : (Resp.int 0).Sendable := show IsI64 0 by decide
  have hread := read_respBytes hint []
  rw [List.append_nil] at hread
  show (read (respBytes (.int 0)) >>= _) = _
  rw [hread]
  rfl

end RedisCvlr.Driver
