import ScriptSandbox.Step.Completion

/-
  Steps.

  A step is a computation over a state that may stop at a request which only the embedding can
  answer: to run a script function, or to yield before the host is touched. It is a tree. Its inner
  nodes look at the state, change it, or ask; its leaves are outcomes and faults. What a step still
  has to undo when it is abandoned at a request travels with the request.

  `andThen` continues on a result, `onFlow` on either outcome. Both keep the requests of the first
  step in front of those of the second.
-/

namespace ScriptSandbox

/-- What a suspended step waits for. -/
inductive Request where
  /-- Yield before an access to the host. The answer does not matter as long as it is a result. -/
  | checkpoint
  /-- Run a script function. -/
  | call (callee receiver : Value) (args : List Value)
deriving DecidableEq, Repr

/-- A computation with results in `α` over a state in `σ`. -/
inductive Step (σ α : Type) where
  | done (flow : Flow α)
  | fault (f : Fault)
  | inspect (next : σ → Step σ α)
  | modify (change : σ → σ) (next : Step σ α)
  /-- Wait for the answer to a request. `release` undoes what the step holds, for the case that it
      is never resumed. -/
  | ask (request : Request) (release : σ → σ) (resume : Flow Value → Step σ α)

namespace Step

variable {σ α β γ : Type}

def ready (a : α) : Step σ α := .done (.ok a)

def throw (c : Completion) : Step σ α := .done (.error c)

/-- Continue with `f` once there is a result. A completion or a fault skips `f`. -/
def andThen (f : α → Step σ β) : Step σ α → Step σ β
  | .done (.ok a) => f a
  | .done (.error c) => .done (.error c)
  | .fault e => .fault e
  | .inspect next => .inspect fun w => (next w).andThen f
  | .modify change next => .modify change (next.andThen f)
  | .ask r release resume => .ask r release fun answer => (resume answer).andThen f

/-- Continue with `h` on either outcome. A fault skips `h`. -/
def onFlow (h : Flow α → Step σ β) : Step σ α → Step σ β
  | .done flow => h flow
  | .fault e => .fault e
  | .inspect next => .inspect fun w => (next w).onFlow h
  | .modify change next => .modify change (next.onFlow h)
  | .ask r release resume => .ask r release fun answer => (resume answer).onFlow h

/-- Undo something when the step ends, however it ends, and also when it is abandoned. -/
def releasing (undo : σ → σ) : Step σ α → Step σ α
  | .done flow => .modify undo (.done flow)
  | .fault e => .modify undo (.fault e)
  | .inspect next => .inspect fun w => (next w).releasing undo
  | .modify change next => .modify change (next.releasing undo)
  | .ask r release resume =>
    .ask r (undo ∘ release) fun answer => (resume answer).releasing undo

/-- Undo something when the step stops for the first time, be it at a request or at its end. -/
def untilRequest (undo : σ → σ) : Step σ α → Step σ α
  | .done flow => .modify undo (.done flow)
  | .fault e => .modify undo (.fault e)
  | .inspect next => .inspect fun w => (next w).untilRequest undo
  | .modify change next => .modify change (next.untilRequest undo)
  | .ask r release resume => .modify undo (.ask r release resume)

instance : Monad (Step σ) where
  pure := ready
  bind s f := s.andThen f

/-- A result computed from the state. -/
def read (f : σ → α) : Step σ α := .inspect fun w => ready (f w)

/-- Change the state. -/
def write (change : σ → σ) : Step σ Unit := .modify change (ready ())

/-- A result computed together with a new state. -/
def compute (f : σ → α × σ) : Step σ α :=
  .inspect fun w =>
    let (a, w') := f w
    .modify (fun _ => w') (ready a)

/-- A result that may be a fault instead. -/
def orFault : Except Fault α → Step σ α
  | .ok a => ready a
  | .error e => .fault e

/-- Suspend on a request; the answer becomes the outcome. -/
def request (r : Request) : Step σ Value := .ask r id .done

/-- Yield before an access to the host. Only an abrupt answer matters. -/
def checkpoint : Step σ Unit := .ask .checkpoint id fun answer => .done (answer.map fun _ => ())

/-! ## The front of a step -/

/-- How far a step gets without an answer. -/
inductive Front (σ α : Type) where
  | finished (flow : Flow α)
  | faulted (f : Fault)
  | waiting (request : Request) (release : σ → σ) (resume : Flow Value → Step σ α)

/-- Run a step in a state up to its outcome or its first request. -/
def settle : Step σ α → σ → Front σ α × σ
  | .done flow, w => (.finished flow, w)
  | .fault e, w => (.faulted e, w)
  | .inspect next, w => (next w).settle w
  | .modify change next, w => next.settle (change w)
  | .ask r release resume, w => (.waiting r release resume, w)

/-! ## Laws -/

@[simp] theorem ready_andThen (a : α) (f : α → Step σ β) : (ready a).andThen f = f a := rfl

theorem andThen_ready (s : Step σ α) : s.andThen ready = s := by
  induction s with
  | done flow => cases flow <;> rfl
  | fault e => rfl
  | inspect next ih => simp only [andThen, ih]
  | modify change next ih => simp only [andThen, ih]
  | ask r release resume ih => simp only [andThen, ih]

theorem andThen_assoc (s : Step σ α) (f : α → Step σ β) (g : β → Step σ γ) :
    (s.andThen f).andThen g = s.andThen fun a => (f a).andThen g := by
  induction s with
  | done flow => cases flow <;> rfl
  | fault e => rfl
  | inspect next ih => simp only [andThen, ih]
  | modify change next ih => simp only [andThen, ih]
  | ask r release resume ih => simp only [andThen, ih]

theorem settle_andThen (s : Step σ α) (f : α → Step σ β) (w : σ) :
    (s.andThen f).settle w =
      match s.settle w with
      | (.finished (.ok a), w') => (f a).settle w'
      | (.finished (.error c), w') => (.finished (.error c), w')
      | (.faulted e, w') => (.faulted e, w')
      | (.waiting r release resume, w') =>
        (.waiting r release fun answer => (resume answer).andThen f, w') := by
  induction s generalizing w with
  | done flow => cases flow <;> rfl
  | fault e => rfl
  | inspect next ih => simp only [andThen, settle, ih]
  | modify change next ih => simp only [andThen, settle, ih]
  | ask r release resume ih => rfl

theorem settle_untilRequest (undo : σ → σ) (s : Step σ α) (w : σ) :
    (s.untilRequest undo).settle w = ((s.settle w).1, undo (s.settle w).2) := by
  induction s generalizing w with
  | done flow => rfl
  | fault e => rfl
  | inspect next ih => simp only [untilRequest, settle, ih]
  | modify change next ih => simp only [untilRequest, settle, ih]
  | ask r release resume ih => rfl

end Step

end ScriptSandbox
