import ScriptSandbox.Step.Basic

/-
  Running a step.

  The driver hands every request of a step to a handler, which answers with a step of its own. That
  step is driven to its end before the one that asked is resumed, however deeply requests nest; the
  suspended steps wait on a stack. Before each request the driver looks at the cancellation flag and
  at the budget. A run that stops abandons every suspended step and releases what it holds.
-/

namespace ScriptSandbox

/-- Answers requests. The answer to one request may raise further ones. -/
abbrev Handler (σ : Type) := Request → Step σ Value

/-- Why a run stopped before its end. -/
inductive Stop where
  | cancelled (steps : Nat)
  | budgetExhausted (steps : Nat)
deriving DecidableEq, Repr

def Stop.message : Stop → String
  | .cancelled steps => "evaluation cancelled after " ++ toString steps ++ " steps"
  | .budgetExhausted steps => "step budget exhausted after " ++ toString steps ++ " steps"

/-- How a run came out. -/
inductive Outcome (α : Type) where
  | finished (flow : Flow α)
  | faulted (f : Fault)
  | stopped (s : Stop)
  /-- The run was not followed to its end. -/
  | unfinished
deriving Repr

/-- The limits of a run: the number of requests it may make, and a cancellation flag in the
    state. -/
structure Limits (σ : Type) where
  budget : Option Nat
  cancelled : σ → Bool

/-- No limits. -/
def Limits.none {σ : Type} : Limits σ := ⟨Option.none, fun _ => false⟩

/-- Whether a run has to stop in front of its next request, after `steps` requests. A cancellation
    is noticed first. -/
def Limits.check {σ : Type} (l : Limits σ) (steps : Nat) (w : σ) : Option Stop :=
  if l.cancelled w then some (.cancelled steps)
  else
    match l.budget with
    | some budget => if budget ≤ steps then some (.budgetExhausted steps) else Option.none
    | Option.none => Option.none

/-- A step that waits for the answer to a request. -/
structure Pending (σ α : Type) where
  release : σ → σ
  resume : Flow Value → Step σ α

namespace Driver

variable {σ α : Type}

/-- What the driver works on. -/
inductive Task (σ α : Type) where
  /-- The step that is run, with no request open. -/
  | main (s : Step σ α)
  /-- A step that answers a request of the topmost pending one; `base` is the pending main step. -/
  | answering (s : Step σ Value) (stack : List (Pending σ Value)) (base : Pending σ α)

/-- The number of suspended steps. -/
def Task.depth : Task σ α → Nat
  | .main _ => 0
  | .answering _ stack _ => stack.length + 1

/-- Abandon suspended steps, the topmost first. -/
def abandon (stack : List (Pending σ Value)) (base : Pending σ α) (w : σ) : σ :=
  base.release (stack.foldl (fun w p => p.release w) w)

/-- Work on a task, handling at most `fuel` further requests after the first `steps`. -/
def work (limits : Limits σ) (handler : Handler σ) (fuel steps : Nat) (task : Task σ α) (w : σ) :
    Outcome α × σ :=
  match task with
  | .main s =>
    match s.settle w with
    | (.finished flow, w) => (.finished flow, w)
    | (.faulted e, w) => (.faulted e, w)
    | (.waiting r release resume, w) =>
      match limits.check steps w with
      | some stop => (.stopped stop, release w)
      | none =>
        match fuel with
        | 0 => (.unfinished, w)
        | fuel + 1 =>
          work limits handler fuel (steps + 1) (.answering (handler r) [] ⟨release, resume⟩) w
  | .answering s stack base =>
    match s.settle w with
    | (.finished flow, w) =>
      match stack with
      | [] => work limits handler fuel steps (.main (base.resume flow)) w
      | p :: rest => work limits handler fuel steps (.answering (p.resume flow) rest base) w
    | (.faulted e, w) => (.faulted e, w)
    | (.waiting r release resume, w) =>
      match limits.check steps w with
      | some stop => (.stopped stop, abandon (⟨release, resume⟩ :: stack) base w)
      | none =>
        match fuel with
        | 0 => (.unfinished, w)
        | fuel + 1 =>
          work limits handler fuel (steps + 1)
            (.answering (handler r) (⟨release, resume⟩ :: stack) base) w
termination_by (fuel, task.depth)
decreasing_by all_goals simp_wf; simp [Task.depth]; try omega

/-- Run a step, handling at most `fuel` requests. With a budget the fuel need not exceed it. -/
def runWithin (fuel : Nat) (limits : Limits σ) (handler : Handler σ) (s : Step σ α) (w : σ) :
    Outcome α × σ :=
  work limits handler fuel 0 (.main s) w

/-- The number of requests that a run without a budget is followed for. -/
def horizon : Nat := Nat.pow 2 64

/-- Run a step. With a budget the run always ends. -/
def run (limits : Limits σ) (handler : Handler σ) (s : Step σ α) (w : σ) : Outcome α × σ :=
  runWithin (limits.budget.getD horizon) limits handler s w

end Driver

end ScriptSandbox
