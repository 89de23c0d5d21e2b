import RedisCvlr.Driver.Reports

/-!
# What silence means

A schedule without a divergence has compared every reply, each against the model at the same step,
and the two snapshots at the end (`silence_means_agreement`). The snapshots are sorted lists of
names and entries. `modelSnapshot_eq_iff` says what their comparison amounts to: the same number of
present keys, and for each key the same visibility, the same bytes and the same presence of a time.
It tells nothing else, neither the times themselves nor which expired keys are still there.
-/

set_option autoImplicit false
set_option relaxedAutoImplicit false

namespace RedisCvlr.Driver

open RedisCvlr.Library RedisCvlr.Model RedisCvlr.Keyspace

variable {K C : ℕ} {w w' : World K C}

/-! ### Snapshots -/

section Silence

variable {σ : Type} [NeZero C] {server : Server σ} {seed : UInt64} {base : Ms}
  {schedule : List (DiffStep K C)} {conn conn' : Conn σ}

/-- A loop that runs to its end has compared the reply to each of its commands. -/
theorem agree_of_inr {before after : List (DiffStep K C)} {command : Cmd K C} {flushed : Conn σ}
    (hloop : runSteps server seed 0 (World.empty base) flushed (before ++ .cmd command :: after) =
      .ok (conn', .inr w)) :
    ∃ conn₁ reply conn₂,
      runSteps server seed 0 (World.empty base) flushed before =
        .ok (conn₁, .inr (modelRun (World.empty base) before).1) ∧
      clientCmd server conn₁ (render command) = .ok (reply, conn₂) ∧
      repliesAgree (execCmd (modelRun (World.empty base) before).1 0 command).2 reply
        (DiffStep.cmd command).isPttl = true := by
  rw [runSteps_append, bind_eq_ok] at hloop
  obtain ⟨⟨conn₁, outcome⟩, hbefore, hrest⟩ := hloop
  cases outcome with
  | inl d => exact absurd (Prod.mk.inj (Except.ok.inj hrest)).2 (by simp)
  | inr w₁ =>
    obtain rfl := runSteps_inr hbefore
    obtain ⟨reply, conn₂, hreply, hagree⟩ := runSteps_cmd_eq_ok hrest
    refine ⟨conn₁, reply, conn₂, hbefore, hreply, ?_⟩
    by_contra hdisagree
    rw [if_neg hdisagree] at hagree
    exact absurd hagree.2 (by simp)

/-- If a schedule is not reported, then every command of it has got a reply that agrees with the
reply of the model, and the snapshot taken at the end is that of the model. -/
theorem silence_means_agreement
    (h : runSchedule server seed base schedule conn = .ok (conn', none)) :
    ∃ ignored flushed last, clientCmdS server conn ["FLUSHALL"] = .ok (ignored, flushed) ∧
      (∀ before command after, schedule = before ++ .cmd command :: after →
        ∃ conn₁ reply conn₂,
          runSteps server seed 0 (World.empty base) flushed before =
            .ok (conn₁, .inr (modelRun (World.empty base) before).1) ∧
          clientCmd server conn₁ (render command) = .ok (reply, conn₂) ∧
          repliesAgree (execCmd (modelRun (World.empty base) before).1 0 command).2 reply
            (DiffStep.cmd command).isPttl = true) ∧
      runSteps server seed 0 (World.empty base) flushed schedule =
        .ok (last, .inr (modelRun (World.empty base) schedule).1) ∧
      wireSnapshot server last =
        .ok (modelSnapshot (modelRun (World.empty base) schedule).1, conn') := by
  have hstart := h
  rw [runSchedule, bind_eq_ok] at hstart
  obtain ⟨⟨ignored, flushed⟩, hflush, hstart⟩ := hstart
  rw [bind_eq_ok] at hstart
  obtain ⟨⟨last, outcome⟩, hloop, hend⟩ := hstart
  cases outcome with
  | inl d => exact absurd (Prod.mk.inj (Except.ok.inj hend)).2 (by simp)
  | inr w =>
    rw [runSchedule_of_inr hflush hloop, bind_eq_ok] at h
    obtain ⟨⟨observed, conn₂⟩, hobserved, hcompare⟩ := h
    obtain rfl := runSteps_inr hloop
    simp only at hcompare
    split_ifs at hcompare with hsame
    · subst hsame
      obtain rfl := (Prod.mk.inj (Except.ok.inj hcompare)).1
      exact ⟨ignored, flushed, last, hflush, fun _ _ _ hsplit ↦ agree_of_inr (hsplit ▸ hloop),
        hloop, hobserved⟩
    · exact absurd (Prod.mk.inj (Except.ok.inj hcompare)).2 (by simp)

end Silence

/-- A server that replies `0` to every request is right about an empty database as long as it is
asked for numbers. -/
theorem silence_means_agreement_zeroServer :
    let schedule : List (DiffStep keyCount clientCount) :=
      [.cmd (.existsKey 0), .tick, .cmd (.del 1)]
    runSchedule zeroServer 7 20000 schedule ⟨(), []⟩ = .ok (⟨(), []⟩, none) ∧
      ∃ last, wireSnapshot zeroServer last =
        .ok (modelSnapshot (modelRun (World.empty 20000) schedule).1, ⟨(), []⟩) := by
  intro schedule
  have hloop : runSteps zeroServer 7 0 (World.empty 20000) ⟨(), []⟩ schedule =
      .ok (⟨(), []⟩, .inr (modelRun (World.empty 20000) schedule).1) := rfl
  have hrun : runSchedule zeroServer 7 20000 schedule ⟨(), []⟩ = .ok (⟨(), []⟩, none) := by
    rw [runSchedule_of_inr (clientCmd_zeroServer _) hloop]
    rfl
  obtain ⟨-, -, last, -, -, -, hobserved⟩ := silence_means_agreement hrun
  exact ⟨hrun, last, hobserved⟩

end RedisCvlr.Driver
