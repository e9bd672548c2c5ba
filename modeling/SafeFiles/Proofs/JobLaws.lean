import SafeFiles.Job

/-!
# A job reports exactly once

The worker and those who hold a job race for its claim, and whoever wins settles
what the listener hears: the cancellation, or how the operation ended. A job has
few states (`Phase`); every step leads from one of them to one of them, so this
holds for any number of calls, in any order, between any two steps of the worker.
-/

namespace SafeFiles

variable {σ α : Type}

/-- The notice that an ending calls for. A typed failure counts below any contexts. -/
inductive Ending.Means : Ending α → Outcome α → Prop
  | value (a : α) : Means (.value a) (.success a)
  | panic : Means .panic .interrupted
  | interrupted (contexts : List String) :
      Means (.error ⟨contexts, .failure .interrupted⟩) .interrupted
  | cancelled (contexts : List String) : Means (.error ⟨contexts, .failure .cancelled⟩) .cancelled
  | error (r : Report) (hi : r.cause ≠ .failure .interrupted) (hc : r.cause ≠ .failure .cancelled) :
      Means (.error r) (.failure r)

theorem Ending.means_outcome (e : Ending α) : e.Means e.outcome := by
  cases e with
  | value a => exact .value a
  | panic => exact .panic
  | error r =>
    obtain ⟨contexts, cause⟩ := r
    by_cases hc : cause = .failure .cancelled
    · subst hc
      exact .cancelled contexts
    by_cases hi : cause = .failure .interrupted
    · subst hi
      exact .interrupted contexts
    have hout : (Ending.error (α := α) ⟨contexts, cause⟩).outcome = .failure ⟨contexts, cause⟩ := by
      simp only [Ending.outcome, Report.failure?]
      cases cause with
      | failure f => cases f <;> simp_all
      | fault _ | walk _ _ | document _ | message _ => rfl
    rw [hout]
    exact .error _ hi hc

namespace Job

/-- How many calls were told that they cancelled the job. -/
def granted (answers : List (JobStep × Option Bool)) : Nat := answers.count (.cancel, some true)

/-- The states that a job comes to, each with the number of calls that cancelled it on the way. -/
inductive Phase (operation : σ → Ending α × σ) (s : σ) : Nat → Job σ α → Prop
  | queued : Phase operation s 0 ⟨operation, s, .pending, .queued, []⟩
  | cancelled : Phase operation s 1 ⟨operation, s, .cancelled, .queued, []⟩
  | refused : Phase operation s 1 ⟨operation, s, .cancelled, .refused, []⟩
  | toldCancelled : Phase operation s 1 ⟨operation, s, .cancelled, .told, [.cancelled]⟩
  | closed : Phase operation s 1 ⟨operation, s, .cancelled, .finished, [.cancelled]⟩
  | started : Phase operation s 0 ⟨operation, s, .running, .started, []⟩
  | ended : Phase operation s 0
      ⟨operation, (operation s).2, .running, .ended (operation s).1, []⟩
  | told : Phase operation s 0
      ⟨operation, (operation s).2, .running, .told, [(operation s).1.outcome]⟩
  | finished : Phase operation s 0
      ⟨operation, (operation s).2, .running, .finished, [(operation s).1.outcome]⟩

variable {operation : σ → Ending α × σ} {s : σ} {n : Nat} {j : Job σ α} {steps : List JobStep}

-- ---------------------------------------------------------------------------
-- One step
-- ---------------------------------------------------------------------------

theorem Phase.work (h : Phase operation s n j) : Phase operation s n j.work := by
  cases h with
  | queued => exact .started
  | cancelled => exact .refused
  | refused => exact .toldCancelled
  | toldCancelled | closed => exact .closed
  | started => exact .ended
  | ended => exact .told
  | told | finished => exact .finished

theorem Phase.cancel (h : Phase operation s n j) :
    j.cancel.1 = true ∧ Phase operation s (n + 1) j.cancel.2 ∨
    j.cancel.1 = false ∧ j.cancel.2 = j := by
  cases h with
  | queued => exact .inl ⟨rfl, .cancelled⟩
  | cancelled | refused | toldCancelled | closed | started | ended | told | finished =>
    exact .inr ⟨rfl, rfl⟩

theorem Phase.step (h : Phase operation s n j) (st : JobStep) :
    Phase operation s (n + granted [(st, (j.step st).1)]) (j.step st).2 := by
  cases st with
  | work => exact h.work
  | poll => exact h
  | cancel =>
    rcases h.cancel with ⟨htrue, hnext⟩ | ⟨hfalse, hsame⟩
    · simpa [Job.step, granted, htrue] using hnext
    · simpa [Job.step, granted, hfalse, hsame] using h

def Stage.remaining : Stage α → Nat
  | .queued => 4
  | .started => 3
  | .refused | .ended _ => 2
  | .told => 1
  | .finished => 0

theorem remaining_work (j : Job σ α) : Stage.remaining j.work.stage ≤ Stage.remaining j.stage - 1 := by
  obtain ⟨operation, s, claim, stage, heard⟩ := j
  cases stage with
  | queued => cases claim <;> simp [work, Stage.remaining]
  | refused | started | ended _ | told | finished => simp [work, tell, Stage.remaining]

theorem stage_cancel (j : Job σ α) : j.cancel.2.stage = j.stage := by
  unfold Job.cancel
  split <;> rfl

theorem step_of_running (h : j.claim = .running) (st : JobStep) :
    (j.step st).2.claim = .running ∧ granted [(st, (j.step st).1)] = 0 := by
  cases st with
  | poll => exact ⟨h, by simp [granted]⟩
  | cancel => simp [Job.step, Job.cancel, granted, h]
  | work =>
    refine ⟨?_, by simp [granted]⟩
    obtain ⟨operation, s, claim, stage, heard⟩ := j
    cases h
    cases stage <;> rfl

-- ---------------------------------------------------------------------------
-- All steps
-- ---------------------------------------------------------------------------

theorem granted_cons (a : JobStep × Option Bool) (answers : List (JobStep × Option Bool)) :
    granted (a :: answers) = granted [a] + granted answers := by
  simp only [granted, List.count_cons, List.count_nil]
  omega

theorem Phase.run (h : Phase operation s n j) (steps : List JobStep) :
    Phase operation s (n + granted (j.run steps).1) (j.run steps).2 := by
  induction steps generalizing n j with
  | nil => exact h
  | cons st steps ih =>
    have hrest := ih (h.step st)
    rw [Nat.add_assoc, ← granted_cons] at hrest
    exact hrest

theorem remaining_run (j : Job σ α) (steps : List JobStep) :
    Stage.remaining (j.run steps).2.stage ≤ Stage.remaining j.stage - steps.count .work := by
  induction steps generalizing j with
  | nil => exact Nat.le_refl _
  | cons st steps ih =>
    have hrest : Stage.remaining (j.run (st :: steps)).2.stage ≤
        Stage.remaining (j.step st).2.stage - steps.count .work := ih (j.step st).2
    cases st with
    | work =>
      have := remaining_work j
      simp only [Job.step, List.count_cons_self] at hrest ⊢
      omega
    | cancel => simpa [Job.step, stage_cancel] using hrest
    | poll => simpa [Job.step] using hrest

theorem isFinished_of_remaining (h : Stage.remaining j.stage = 0) : j.isFinished = true := by
  unfold isFinished
  cases hstage : j.stage <;> simp_all [Stage.remaining]

/-- Once the operation is started, no call cancels the job any more. -/
theorem granted_of_running (h : j.claim = .running) (steps : List JobStep) :
    granted (j.run steps).1 = 0 := by
  induction steps generalizing j with
  | nil => rfl
  | cons st steps ih =>
    have hsplit : granted (j.run (st :: steps)).1 =
        granted [(st, (j.step st).1)] + granted ((j.step st).2.run steps).1 := granted_cons _ _
    rw [hsplit]
    obtain ⟨hrunning, hnone⟩ := step_of_running h st
    rw [hnone, ih hrunning]

-- ---------------------------------------------------------------------------
-- The report
-- ---------------------------------------------------------------------------

/-- How a finished job stands, after so many calls that cancelled it. -/
inductive Reported (operation : σ → Ending α × σ) (s : σ) : Nat → Job σ α → Prop
  /-- The operation was started: nobody cancelled the job, and the one notice says how it ended. -/
  | ran {j : Job σ α} (outcome : Outcome α) (claim : j.claim = .running)
      (heard : j.heard = [outcome]) (means : (operation s).1.Means outcome)
      (state : j.state = (operation s).2) : Reported operation s 0 j
  /-- The operation was never started: one call cancelled the job, and the one notice says so. -/
  | cancelled {j : Job σ α} (claim : j.claim = .cancelled) (heard : j.heard = [.cancelled])
      (state : j.state = s) : Reported operation s 1 j

theorem Phase.reported (h : Phase operation s n j) (hf : j.isFinished = true) :
    Reported operation s n j := by
  cases h with
  | closed => exact .cancelled rfl rfl rfl
  | finished => exact .ran _ rfl rfl (operation s).1.means_outcome rfl
  | queued | cancelled | refused | toldCancelled | started | ended | told => cases hf

theorem Phase.heard_le (h : Phase operation s n j) : j.heard.length ≤ 1 := by
  cases h <;> simp

theorem Phase.granted_iff (h : Phase operation s n j) :
    n ≤ 1 ∧ (n = 1 ↔ j.claim = .cancelled) := by
  cases h <;> simp

theorem reports_exactly_once (operation : σ → Ending α × σ) (s : σ) (steps : List JobStep) :
    let (answers, j) := (spawn operation s).run steps
    (4 ≤ steps.count .work → j.isFinished = true) ∧
    (j.isFinished = true → Reported operation s (granted answers) j) ∧
    j.heard.length ≤ 1 ∧
    granted answers ≤ 1 ∧ (granted answers = 1 ↔ j.claim = .cancelled) ∧
    (j.claim = .running → ∀ later, granted (j.run later).1 = 0) := by
  have hphase : Phase operation s (0 + granted ((spawn operation s).run steps).1)
      ((spawn operation s).run steps).2 := Phase.queued.run steps
  rw [Nat.zero_add] at hphase
  refine ⟨?_, hphase.reported, hphase.heard_le, hphase.granted_iff.1, hphase.granted_iff.2,
    fun hrunning later => granted_of_running hrunning later⟩
  intro hworked
  have hremaining := remaining_run (spawn operation s) steps
  have hstart : Stage.remaining (spawn operation s).stage = 4 := rfl
  exact isFinished_of_remaining (by omega)

end Job

end SafeFiles
