import ScriptSandbox.Proofs.Step.Run

/-
  Steps that ask once.

  A step that waits for one answer and then ends makes no difference to how its request is handled.
  So its run is the run of the bare request, whatever the limits and the handler, and what it does
  with the answer comes behind that run or, if no answer comes, not at all (`runWithin_suspended`).
-/

namespace ScriptSandbox

namespace Step

variable {σ α : Type}

theorem settle_releasing (undo : σ → σ) (s : Step σ α) (w : σ) :
    (s.releasing undo).settle w =
      match s.settle w with
      | (.finished flow, w') => (.finished flow, undo w')
      | (.faulted e, w') => (.faulted e, undo w')
      | (.waiting r release resume, w') =>
        (.waiting r (undo ∘ release) fun answer => (resume answer).releasing undo, w') := by
  induction s generalizing w with
  | done flow => rfl
  | fault e => rfl
  | inspect next ih => exact ih w w
  | modify change next ih => exact ih (change w)
  | ask r release resume ih => rfl

/-- The step asks for nothing and has an outcome in every state. -/
def Completes (s : Step σ α) : Prop := ∀ w, ∃ flow w', s.settle w = (.finished flow, w')

end Step

namespace Driver

variable {σ α : Type} {limits : Limits σ} {handler : Handler σ} {release : σ → σ}
  {resume : Flow Value → Step σ α}

/-- What becomes of the run of a request when its answer is used. Without an answer the run stays
    as it is. -/
def conclude (resume : Flow Value → Step σ α) : Outcome Value × σ → Outcome α × σ
  | (.finished answer, w) =>
    match (resume answer).settle w with
    | (.finished flow, w') => (.finished flow, w')
    | (.faulted e, w') => (.faulted e, w')
    | (.waiting _ _ _, w') => (.unfinished, w')
  | (.faulted e, w) => (.faulted e, w)
  | (.stopped s, w) => (.stopped s, w)
  | (.unfinished, w) => (.unfinished, w)

/-- What the lowest suspended step does with its answer matters only when it gets it. -/
theorem work_base (hresume : ∀ answer, (resume answer).Completes) (fuel steps : Nat)
    (s : Step σ Value) (stack : List (Pending σ Value)) (w : σ) :
    work limits handler fuel steps (.answering s stack ⟨release, resume⟩) w =
      conclude resume
        (work limits handler fuel steps (.answering s stack ⟨release, .done⟩) w) := by
  generalize htask : Task.answering (α := Value) s stack ⟨release, .done⟩ = task
  induction fuel, steps, task, w using move_induct limits handler generalizing s stack with
  | step fuel steps task w hresumed hasked =>
    subst htask
    rw [work_eq, work_eq limits handler fuel steps (.answering s stack ⟨release, .done⟩)]
    simp only [move] at hresumed hasked ⊢
    generalize s.settle w = settled at hresumed hasked ⊢
    obtain ⟨front, w₁⟩ := settled
    cases front with
    | faulted e => rfl
    | finished answer =>
      cases stack with
      | nil =>
        -- the answer has arrived: one side uses it, the other one has it as its outcome
        obtain ⟨flow, w', hw'⟩ := hresume answer w₁
        simp only [Place.move, Place.finish, unwound]
        rw [work, work, hw']
        simp only [Step.settle, conclude, hw']
      | cons p rest => exact hresumed _ _ rfl (p.resume answer) rest rfl
    | waiting r release' resume' =>
      simp only [Place.move, Place.suspend, Move.request] at hasked ⊢
      cases hcheck : limits.check steps w₁ with
      | some stop => rfl
      | none =>
        cases fuel with
        | zero => rfl
        | succ fuel =>
          rw [hcheck] at hasked
          exact hasked _ _ _ _ rfl fuel rfl _ _ rfl

/-- A step that does not ask is run by taking it to its end. -/
theorem runWithin_of_finished {s : Step σ α} {w w₁ : σ} {flow : Flow α}
    (hs : s.settle w = (.finished flow, w₁)) (fuel : Nat) :
    runWithin fuel limits handler s w = (.finished flow, w₁) := by
  rw [runWithin, work, hs]

theorem runWithin_of_faulted {s : Step σ α} {w w₁ : σ} {e : Fault}
    (hs : s.settle w = (.faulted e, w₁)) (fuel : Nat) :
    runWithin fuel limits handler s w = (.faulted e, w₁) := by
  rw [runWithin, work, hs]

/-- A step that waits once is run by running its request. -/
theorem runWithin_suspended {s : Step σ α} {r : Request} {w w₁ : σ}
    (hs : s.settle w = (.waiting r id resume, w₁)) (hresume : ∀ answer, (resume answer).Completes)
    (fuel : Nat) :
    runWithin fuel limits handler s w =
      conclude resume (runWithin fuel limits handler (Step.request r) w₁) := by
  have hrequest : (Step.request r : Step σ Value).settle w₁ = (.waiting r id .done, w₁) := rfl
  rw [runWithin, runWithin, work_eq, work_eq limits handler fuel 0 (.main (Step.request r))]
  simp only [move, hs, hrequest, Place.move, Place.suspend, Move.request]
  cases limits.check 0 w₁ with
  | some stop => rfl
  | none =>
    cases fuel with
    | zero => rfl
    | succ fuel => exact work_base hresume fuel (0 + 1) (handler r) [] w₁

end Driver

end ScriptSandbox
