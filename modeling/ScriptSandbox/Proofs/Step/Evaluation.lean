import ScriptSandbox.Proofs.Step.Run

/-
  Recursive evaluation.

  `Evaluates` is what the driver does, said without its stack: a step that suspends is evaluated by
  evaluating the answer of the handler to its end, and then the step that is resumed with what came
  out. The main statement is that the driver without limits finishes just where this evaluation
  ends, with the same flow, the same state and the same requests in the same order
  (`finished_iff_evaluates`). An evaluation becomes a run by `Evaluates.runs`; a run becomes an
  evaluation by `Runs.concludes`, which cuts it where suspended steps get their answers.
-/

namespace ScriptSandbox.Driver

variable {σ α β : Type}

/-- A step, evaluated from a state by recursion on its requests, makes the requests of `log`, comes
    to a flow and leaves a state. -/
inductive Evaluates (handler : Handler σ) :
    {α : Type} → Step σ α → σ → (log : List Request) → Flow α → σ → Prop
  | ready {α s w flow w'} (h : s.settle w = (.finished flow, w')) :
    Evaluates handler (α := α) s w [] flow w'
  | suspended {α s w r release resume w₁ log₁ answer w₂ log₂ flow w'}
    (h : s.settle w = (.waiting r release resume, w₁))
    (answered : Evaluates handler (handler r) w₁ log₁ answer w₂)
    (continued : Evaluates handler (resume answer) w₂ log₂ flow w') :
    Evaluates handler (α := α) s w (r :: (log₁ ++ log₂)) flow w'

variable {handler : Handler σ} {steps : Nat} {s : Step σ β} {place : Place σ α β}
  {w w₁ w' : σ} {log rest : List Request} {r : Request} {release : σ → σ}
  {resume : Flow Value → Step σ β} {outcome : Outcome α}

/-! ## Moves without limits -/

theorem move_of_finished {flow : Flow β} (h : s.settle w = (.finished flow, w₁)) :
    move .none steps (place.task s) w = place.finish flow w₁ := by
  rw [move_task, h]
  rfl

theorem move_of_waiting (h : s.settle w = (.waiting r release resume, w₁)) :
    move .none steps (place.task s) w =
      .asked r (place.suspend ⟨release, resume⟩).1 (place.suspend ⟨release, resume⟩).2 w₁ := by
  rw [move_task, h]
  rfl

/-- Without limits a move follows the front of the current step alone. -/
theorem move_cases (steps : Nat) (place : Place σ α β) (s : Step σ β) (w : σ) :
    (∃ flow w₁, s.settle w = (.finished flow, w₁) ∧
      move .none steps (place.task s) w = place.finish flow w₁) ∨
    (∃ e w₁, move .none steps (place.task s) w = .ended (.faulted e) w₁) ∨
    (∃ r release resume w₁, s.settle w = (.waiting r release resume, w₁) ∧
      move .none steps (place.task s) w =
        .asked r (place.suspend ⟨release, resume⟩).1 (place.suspend ⟨release, resume⟩).2 w₁) := by
  cases hs : s.settle w with
  | mk front w₁ =>
    cases front with
    | finished flow => exact .inl ⟨flow, w₁, rfl, move_of_finished hs⟩
    | faulted e =>
      refine .inr (.inl ⟨e, w₁, ?_⟩)
      rw [move_task, hs]
      rfl
    | waiting r release resume =>
      exact .inr (.inr ⟨r, release, resume, w₁, rfl, move_of_waiting hs⟩)

/-! ## From an evaluation to a run -/

/-- An evaluation is a part of a run: wherever the step stands, the driver works it off and goes on
    with its outcome in the same place. -/
theorem Evaluates.runs {flow : Flow β} (h : Evaluates handler s w log flow w₁)
    (place : Place σ α β)
    (hrest : Runs .none handler (steps + log.length) (place.task (.done flow)) w₁ rest outcome w') :
    Runs .none handler steps (place.task s) w (log ++ rest) outcome w' := by
  induction h generalizing α steps rest w' with
  | ready h =>
    refine Runs.of_move_eq ?_ hrest
    rw [move_of_finished h]
    exact (move_of_finished rfl).symm
  | @suspended β s w r release resume w₁ log₁ answer w₂ log₂ flow w₃ h _ _ ihanswer ihresume =>
    rw [List.cons_append, List.append_assoc]
    refine .asked (move_of_waiting h) ?_
    refine ihanswer (.answering (place.suspend ⟨release, resume⟩).1
      (place.suspend ⟨release, resume⟩).2) ?_
    -- the answer is complete, so the step that asked is next
    refine .resumed (move_of_finished rfl) ?_
    rw [Place.unwound_suspend]
    refine ihresume place ?_
    have hsteps : steps + 1 + log₁.length + log₂.length =
        steps + (r :: (log₁ ++ log₂)).length := by
      simp only [List.length_cons, List.length_append]
      omega
    rw [hsteps]
    exact hrest

/-! ## From a run to an evaluation -/

/-- A task ends in a flow by evaluation of its step and then of the suspended steps, the topmost
    first. -/
inductive Concludes (handler : Handler σ) :
    Task σ α → σ → (log : List Request) → Flow α → σ → Prop
  | main {s w log flow w'} (h : Evaluates handler s w log flow w') :
    Concludes handler (.main s) w log flow w'
  | answering {s stack base w log₁ answer w₁ log₂ flow w'}
    (h : Evaluates handler s w log₁ answer w₁)
    (rest : Concludes handler (unwound answer stack base) w₁ log₂ flow w') :
    Concludes handler (.answering s stack base) w (log₁ ++ log₂) flow w'

/-- A step that asks is concluded by its answer and the step that is resumed with it. -/
theorem Concludes.suspended {flow : Flow α} (h : s.settle w = (.waiting r release resume, w₁))
    (hrest : Concludes handler (.answering (handler r) (place.suspend ⟨release, resume⟩).1
      (place.suspend ⟨release, resume⟩).2) w₁ log flow w') :
    Concludes handler (place.task s) w (r :: log) flow w' := by
  obtain - | ⟨answered, hrest⟩ := hrest
  rw [Place.unwound_suspend] at hrest
  cases place with
  | main =>
    obtain ⟨continued⟩ | - := hrest
    exact .main (.suspended h answered continued)
  | answering stack base =>
    obtain - | ⟨continued, hrest⟩ := hrest
    rw [← List.append_assoc, ← List.cons_append]
    exact .answering (.suspended h answered continued) hrest

theorem Runs.concludes {task : Task σ α} {flow : Flow α}
    (h : Runs .none handler steps task w log (.finished flow) w') :
    Concludes handler task w log flow w' := by
  generalize hout : Outcome.finished flow = outcome at h
  induction h with
  | @ended steps task w outcome w' h =>
    cases hout
    obtain ⟨β, place, s, rfl⟩ := Place.exists_eq_task task
    rcases move_cases steps place s w with
      ⟨flow', w₁, hs, hm⟩ | ⟨e, w₁, hm⟩ | ⟨r, release, resume, w₁, hs, hm⟩ <;> rw [hm] at h
    · cases place with
      | main =>
        cases h
        exact .main (.ready hs)
      | answering stack base => cases h
    · cases h
    · cases h
  | @resumed steps task w task' w₁ log outcome w' h _ ih =>
    obtain ⟨β, place, s, rfl⟩ := Place.exists_eq_task task
    rcases move_cases steps place s w with
      ⟨answer, w₁, hs, hm⟩ | ⟨e, w₁, hm⟩ | ⟨r, release, resume, w₁, hs, hm⟩ <;> rw [hm] at h
    · cases place with
      | main => cases h
      | answering stack base =>
        cases h
        exact .answering (.ready hs) (ih hout)
    · cases h
    · cases h
  | @asked steps task w r stack base w₁ log outcome w' h _ ih =>
    obtain ⟨β, place, s, rfl⟩ := Place.exists_eq_task task
    rcases move_cases steps place s w with
      ⟨answer, w₁, hs, hm⟩ | ⟨e, w₁, hm⟩ | ⟨r, release, resume, w₁, hs, hm⟩ <;> rw [hm] at h
    · cases place <;> cases h
    · cases h
    · cases h
      exact .suspended hs (ih hout)

/-! ## The driver and the recursion -/

theorem runs_iff_evaluates {s : Step σ α} {flow : Flow α} :
    Runs .none handler 0 (.main s) w log (.finished flow) w' ↔
      Evaluates handler s w log flow w' := by
  constructor
  · intro h
    obtain ⟨heval⟩ | - := h.concludes
    exact heval
  · intro h
    have hdone : Runs .none handler (0 + log.length) (Place.main.task (.done flow)) w' []
        (.finished flow) w' := .ended (move_of_finished rfl)
    simpa [Place.task] using h.runs .main hdone

theorem runWithin_iff_evaluates {fuel : Nat} {s : Step σ α} {flow : Flow α} :
    runWithin fuel .none handler s w = (.finished flow, w') ∧
        requestsWithin fuel .none handler s w = log ↔
      Evaluates handler s w log flow w' ∧ log.length ≤ fuel := by
  constructor
  · rintro ⟨hrun, rfl⟩
    obtain ⟨hruns, hle⟩ := exists_runs_of_runWithin (by simp) hrun
    exact ⟨runs_iff_evaluates.mp hruns, hle⟩
  · rintro ⟨heval, hle⟩
    exact (runs_iff_evaluates.mpr heval).runWithin_eq hle

/-- The driver without limits finishes with a flow, in a state and after the requests that the
    recursive evaluation has, and in no other case. It is followed as far as it goes, or else up to
    the horizon of `run`. -/
theorem finished_iff_evaluates (handler : Handler σ) (s : Step σ α) (w : σ) (flow : Flow α)
    (w' : σ) (log : List Request) :
    ((∃ fuel, runWithin fuel .none handler s w = (.finished flow, w') ∧
        requestsWithin fuel .none handler s w = log) ↔ Evaluates handler s w log flow w') ∧
    (run .none handler s w = (.finished flow, w') ∧ requests .none handler s w = log ↔
      Evaluates handler s w log flow w' ∧ log.length ≤ horizon) := by
  constructor
  · constructor
    · rintro ⟨fuel, h⟩
      exact (runWithin_iff_evaluates.mp h).1
    · intro h
      exact ⟨log.length, runWithin_iff_evaluates.mpr ⟨h, Nat.le_refl _⟩⟩
  · have hbudget : (Limits.none : Limits σ).budget.getD horizon = horizon := Option.getD_none
    rw [run, requests, hbudget]
    exact runWithin_iff_evaluates

end ScriptSandbox.Driver
