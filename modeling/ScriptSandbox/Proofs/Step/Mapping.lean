import ScriptSandbox.Proofs.Step.Run

/-
  Steps with their results mapped.

  What is done to the results of a step makes no difference to its run: the driver makes the same
  moves, with the lowest suspended step mapped (`move_map`). So the run makes the same requests,
  leaves the same state and comes to the mapped outcome (`runWithin_map`).
-/

namespace ScriptSandbox

variable {σ α β : Type}

/-- Apply a function to the result. -/
def Outcome.map (f : α → β) : Outcome α → Outcome β
  | .finished flow => .finished (flow.map f)
  | .faulted e => .faulted e
  | .stopped s => .stopped s
  | .unfinished => .unfinished

namespace Step

/-- Apply a function to the result. -/
def map (f : α → β) (s : Step σ α) : Step σ β := s.andThen fun a => ready (f a)

def Front.map (f : α → β) : Front σ α → Front σ β
  | .finished flow => .finished (flow.map f)
  | .faulted e => .faulted e
  | .waiting r release resume => .waiting r release fun answer => (resume answer).map f

theorem settle_map (f : α → β) (s : Step σ α) (w : σ) :
    (s.map f).settle w = ((s.settle w).1.map f, (s.settle w).2) := by
  rw [map, settle_andThen]
  generalize s.settle w = settled
  obtain ⟨front, w₁⟩ := settled
  cases front with
  | finished flow => cases flow <;> rfl
  | faulted e => rfl
  | waiting r release resume => rfl

theorem recorded_map (f : α → β) (s : Step σ α) : (s.map f).recorded = s.recorded.map f := by
  induction s with
  | done flow => cases flow <;> rfl
  | fault e => rfl
  | inspect next ih => exact congrArg Step.inspect (funext fun w => ih w.1)
  | modify change next ih => exact congrArg (Step.modify _) ih
  | ask r release resume ih => exact congrArg (Step.ask r _) (funext ih)

end Step

namespace Driver

def Task.map (f : α → β) : Task σ α → Task σ β
  | .main s => .main (s.map f)
  | .answering s stack base => .answering s stack ⟨base.release, fun a => (base.resume a).map f⟩

def Move.map (f : α → β) : Move σ α → Move σ β
  | .ended outcome w => .ended (outcome.map f) w
  | .resumed task w => .resumed (task.map f) w
  | .asked r stack base w =>
    .asked r stack ⟨base.release, fun a => (base.resume a).map f⟩ w

variable {f : α → β}

/-- The driver makes the same moves on a mapped task. -/
theorem move_map (limits : Limits σ) (steps : Nat) (task : Task σ α) (w : σ) :
    move limits steps (task.map f) w = (move limits steps task w).map f := by
  have hrequest (r : Request) (stack : List (Pending σ Value)) (base : Pending σ α) (w : σ) :
      Move.request limits steps r stack ⟨base.release, fun a => (base.resume a).map f⟩ w =
        (Move.request limits steps r stack base w).map f := by
    unfold Move.request
    cases limits.check steps w <;> rfl
  cases task with
  | main s =>
    simp only [Task.map, move, Step.settle_map]
    cases (s.settle w).1 with
    | finished flow => rfl
    | faulted e => rfl
    | waiting r release resume => exact hrequest r [] ⟨release, resume⟩ _
  | answering s stack base =>
    simp only [Task.map, move]
    cases (s.settle w).1 with
    | finished flow => cases stack <;> rfl
    | faulted e => rfl
    | waiting r release resume => exact hrequest r (⟨release, resume⟩ :: stack) base _

theorem work_map (limits : Limits σ) (handler : Handler σ) (fuel steps : Nat) (task : Task σ α)
    (w : σ) :
    work limits handler fuel steps (task.map f) w =
      ((work limits handler fuel steps task w).1.map f,
        (work limits handler fuel steps task w).2) := by
  induction fuel, steps, task, w using move_induct limits handler with
  | step fuel steps task w hresumed hasked =>
    rw [work_eq, work_eq limits handler fuel steps task, move_map]
    cases hm : move limits steps task w with
    | ended outcome w₁ => rfl
    | resumed task' w₁ => exact hresumed task' w₁ hm
    | asked r stack base w₁ =>
      cases fuel with
      | zero => rfl
      | succ fuel => exact hasked r stack base w₁ hm fuel rfl

theorem runWithin_map (fuel : Nat) (limits : Limits σ) (handler : Handler σ) (s : Step σ α)
    (w : σ) :
    runWithin fuel limits handler (s.map f) w =
      ((runWithin fuel limits handler s w).1.map f, (runWithin fuel limits handler s w).2) :=
  work_map limits handler fuel 0 (.main s) w

theorem requestsWithin_map (fuel : Nat) (limits : Limits σ) (handler : Handler σ) (s : Step σ α)
    (w : σ) :
    requestsWithin fuel limits handler (s.map f) w = requestsWithin fuel limits handler s w := by
  rw [requestsWithin, Step.recorded_map, runWithin_map]
  rfl

end Driver

end ScriptSandbox
