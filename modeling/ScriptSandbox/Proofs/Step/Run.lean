import ScriptSandbox.Step.Driver

/-
  Runs of the driver.

  The driver works in moves. A move drives the current step to its front; then the run ends there,
  a pending step goes on with the answer it waits for, or a request goes to the handler. `Runs`
  follows the moves to the end of a run and lists the requests on the way. It knows no fuel: work on
  a task comes to an outcome just when there is such a run, provided the fuel allows for its
  requests (`Runs.work_eq`, `exists_runs_of_work`). The requests themselves are seen by a handler
  that keeps a record beside the state; `Runs.runWithin_eq` says that it records what `Runs` lists.
-/

namespace ScriptSandbox

/-! ## Records of requests -/

section

variable {σ α : Type}

/-- A step on the state that leaves the record beside it alone. -/
def Step.recorded : Step σ α → Step (σ × List Request) α
  | .done flow => .done flow
  | .fault e => .fault e
  | .inspect next => .inspect fun w => (next w.1).recorded
  | .modify change next => .modify (Prod.map change id) next.recorded
  | .ask r release resume => .ask r (Prod.map release id) fun answer => (resume answer).recorded

/-- A handler that records each request it gets, the latest one at the end. -/
def Handler.recording (handler : Handler σ) : Handler (σ × List Request) := fun r =>
  .modify (Prod.map id (· ++ [r])) (handler r).recorded

def Limits.recorded (limits : Limits σ) : Limits (σ × List Request) :=
  ⟨limits.budget, fun w => limits.cancelled w.1⟩

def Pending.recorded (p : Pending σ α) : Pending (σ × List Request) α :=
  ⟨Prod.map p.release id, fun answer => (p.resume answer).recorded⟩

def Step.Front.recorded : Step.Front σ α → Step.Front (σ × List Request) α
  | .finished flow => .finished flow
  | .faulted e => .faulted e
  | .waiting r release resume =>
    .waiting r (Prod.map release id) fun answer => (resume answer).recorded

theorem Step.settle_recorded (s : Step σ α) (w : σ) (record : List Request) :
    s.recorded.settle (w, record) = ((s.settle w).1.recorded, ((s.settle w).2, record)) := by
  induction s generalizing w with
  | done flow => rfl
  | fault e => rfl
  | inspect next ih => exact ih w w
  | modify change next ih => exact ih (change w)
  | ask r release resume ih => rfl

end

namespace Driver

variable {σ α : Type}

def Task.recorded : Task σ α → Task (σ × List Request) α
  | .main s => .main s.recorded
  | .answering s stack base => .answering s.recorded (stack.map Pending.recorded) base.recorded

/-- The requests that reach the handler in a run, in their order: what a handler that records them
    has recorded when the run is over. -/
def requestsWithin (fuel : Nat) (limits : Limits σ) (handler : Handler σ) (s : Step σ α) (w : σ) :
    List Request :=
  (runWithin fuel limits.recorded handler.recording s.recorded (w, [])).2.2

/-- The requests that reach the handler in a run that is followed as far as `run` follows it. -/
def requests (limits : Limits σ) (handler : Handler σ) (s : Step σ α) (w : σ) : List Request :=
  requestsWithin (limits.budget.getD horizon) limits handler s w

/-! ## Moves -/

/-- Where a step with results in `β` is worked on in a run with results in `α`. -/
inductive Place (σ α : Type) : Type → Type where
  | main : Place σ α α
  | answering (stack : List (Pending σ Value)) (base : Pending σ α) : Place σ α Value

/-- What the driver does next. -/
inductive Move (σ α : Type) where
  | ended (outcome : Outcome α) (w : σ)
  | resumed (task : Task σ α) (w : σ)
  /-- A request goes to the handler, with these steps suspended. -/
  | asked (request : Request) (stack : List (Pending σ Value)) (base : Pending σ α) (w : σ)

/-- The task of the topmost suspended step when it gets its answer. -/
def unwound (answer : Flow Value) : List (Pending σ Value) → Pending σ α → Task σ α
  | [], base => .main (base.resume answer)
  | p :: rest, base => .answering (p.resume answer) rest base

namespace Place

variable {β : Type}

def task : Place σ α β → Step σ β → Task σ α
  | .main, s => .main s
  | .answering stack base, s => .answering s stack base

/-- The move on a step that has an outcome. -/
def finish : Place σ α β → Flow β → σ → Move σ α
  | .main, flow, w => .ended (.finished flow) w
  | .answering stack base, flow, w => .resumed (unwound flow stack base) w

/-- The suspended steps when the step at the place is suspended as well. -/
def suspend : Place σ α β → Pending σ β → List (Pending σ Value) × Pending σ α
  | .main, p => ([], p)
  | .answering stack base, p => (p :: stack, base)

theorem exists_eq_task (task : Task σ α) :
    ∃ (β : Type) (place : Place σ α β) (s : Step σ β), task = place.task s := by
  cases task with
  | main s => exact ⟨α, .main, s, rfl⟩
  | answering s stack base => exact ⟨Value, .answering stack base, s, rfl⟩

/-- A step at a place is worked on again once its request is answered. -/
theorem unwound_suspend (place : Place σ α β) (p : Pending σ β) (answer : Flow Value) :
    unwound answer (place.suspend p).1 (place.suspend p).2 = place.task (p.resume answer) := by
  cases place <;> rfl

end Place

/-- The move at a request after `steps` requests, with all suspended steps. -/
def Move.request (limits : Limits σ) (steps : Nat) (r : Request) (stack : List (Pending σ Value))
    (base : Pending σ α) (w : σ) : Move σ α :=
  match limits.check steps w with
  | some stop => .ended (.stopped stop) (abandon stack base w)
  | none => .asked r stack base w

/-- The move on a step that has come to its front. -/
def Place.move {β : Type} (limits : Limits σ) (steps : Nat) (place : Place σ α β) :
    Step.Front σ β → σ → Move σ α
  | .finished flow, w => place.finish flow w
  | .faulted e, w => .ended (.faulted e) w
  | .waiting r release resume, w =>
    .request limits steps r (place.suspend ⟨release, resume⟩).1 (place.suspend ⟨release, resume⟩).2
      w

/-- The move on a task after `steps` requests. -/
def move (limits : Limits σ) (steps : Nat) : Task σ α → σ → Move σ α
  | .main s, w => Place.main.move limits steps (s.settle w).1 (s.settle w).2
  | .answering s stack base, w =>
    (Place.answering stack base).move limits steps (s.settle w).1 (s.settle w).2

/-- Work on a task after `steps` requests makes the requests of `log`, comes to an outcome and
    leaves a state. -/
inductive Runs (limits : Limits σ) (handler : Handler σ) :
    (steps : Nat) → Task σ α → σ → (log : List Request) → Outcome α → σ → Prop
  | ended {steps task w outcome w'} (h : move limits steps task w = .ended outcome w') :
    Runs limits handler steps task w [] outcome w'
  | resumed {steps task w task' w₁ log outcome w'}
    (h : move limits steps task w = .resumed task' w₁)
    (rest : Runs limits handler steps task' w₁ log outcome w') :
    Runs limits handler steps task w log outcome w'
  | asked {steps task w r stack base w₁ log outcome w'}
    (h : move limits steps task w = .asked r stack base w₁)
    (rest : Runs limits handler (steps + 1) (.answering (handler r) stack base) w₁ log outcome w') :
    Runs limits handler steps task w (r :: log) outcome w'

variable {limits : Limits σ} {handler : Handler σ} {steps : Nat} {task task' : Task σ α}
  {w w₁ w' : σ} {outcome : Outcome α} {log record : List Request} {fuel : Nat}

theorem move_task {β : Type} (limits : Limits σ) (steps : Nat) (place : Place σ α β)
    (s : Step σ β) (w : σ) :
    move limits steps (place.task s) w =
      place.move limits steps (s.settle w).1 (s.settle w).2 := by
  cases place <;> rfl

theorem Move.request_ne_resumed {r : Request} {stack : List (Pending σ Value)} {base : Pending σ α}
    {u : σ} : Move.request limits steps r stack base u ≠ .resumed task w := by
  unfold Move.request
  split <;> simp

/-- A move that resumes a suspended step leaves one step less suspended. -/
theorem depth_of_resumed (h : move limits steps task w = .resumed task' w') :
    task'.depth < task.depth := by
  obtain ⟨β, place, s, rfl⟩ := Place.exists_eq_task task
  rw [move_task] at h
  cases hfront : (s.settle w).1 with
  | faulted e =>
    rw [hfront] at h
    cases h
  | waiting r release resume =>
    rw [hfront] at h
    exact (Move.request_ne_resumed h).elim
  | finished flow =>
    rw [hfront] at h
    cases place with
    | main => cases h
    | answering stack base =>
      cases h
      cases stack <;> simp [unwound, Place.task, Task.depth]

/-! ## Runs and work -/

theorem work_eq (limits : Limits σ) (handler : Handler σ) (fuel steps : Nat) (task : Task σ α)
    (w : σ) :
    work limits handler fuel steps task w =
      match move limits steps task w with
      | .ended outcome w => (outcome, w)
      | .resumed task w => work limits handler fuel steps task w
      | .asked r stack base w =>
        match fuel with
        | 0 => (.unfinished, w)
        | fuel + 1 =>
          work limits handler fuel (steps + 1) (.answering (handler r) stack base) w := by
  rw [work.eq_def]
  cases task with
  | main s =>
    cases hs : s.settle w with
    | mk front w₁ =>
      simp only [move, hs]
      cases front with
      | finished flow => rfl
      | faulted e => rfl
      | waiting r release resume =>
        simp only [Place.move, Place.suspend, Move.request]
        cases limits.check steps w₁ with
        | none => cases fuel <;> simp
        | some stop => simp [abandon]
  | answering s stack base =>
    cases hs : s.settle w with
    | mk front w₁ =>
      simp only [move, hs]
      cases front with
      | finished flow => cases stack <;> rfl
      | faulted e => rfl
      | waiting r release resume =>
        simp only [Place.move, Place.suspend, Move.request]
        cases limits.check steps w₁ with
        | none => cases fuel <;> simp
        | some stop => simp

/-- Induction along the moves of a run: each resumption takes a step from the stack, each request
    takes fuel. -/
theorem move_induct (limits : Limits σ) (handler : Handler σ)
    {motive : Nat → Nat → Task σ α → σ → Prop}
    (step : ∀ fuel steps task w,
      (∀ task' w', move limits steps task w = .resumed task' w' → motive fuel steps task' w') →
      (∀ r stack base w', move limits steps task w = .asked r stack base w' →
        ∀ fuel', fuel = fuel' + 1 →
          motive fuel' (steps + 1) (.answering (handler r) stack base) w') →
      motive fuel steps task w)
    (fuel steps : Nat) (task : Task σ α) (w : σ) : motive fuel steps task w :=
  step fuel steps task w
    (fun task' w' h =>
      have := depth_of_resumed h
      move_induct limits handler step fuel steps task' w')
    (fun r stack base w' _ fuel' _ =>
      move_induct limits handler step fuel' (steps + 1) (.answering (handler r) stack base) w')
termination_by (fuel, task.depth)

theorem Runs.work_eq (h : Runs limits handler steps task w log outcome w')
    (hfuel : log.length ≤ fuel) : work limits handler fuel steps task w = (outcome, w') := by
  induction h generalizing fuel with
  | ended h => rw [Driver.work_eq, h]
  | resumed h _ ih =>
    rw [Driver.work_eq, h]
    exact ih hfuel
  | asked h _ ih =>
    obtain ⟨fuel, rfl⟩ : ∃ fuel', fuel = fuel' + 1 := Nat.exists_eq_add_one.mpr (by
      rw [List.length_cons] at hfuel
      omega)
    rw [Driver.work_eq, h]
    exact ih (Nat.le_of_succ_le_succ hfuel)

theorem exists_runs_of_work (hout : outcome ≠ .unfinished)
    (h : work limits handler fuel steps task w = (outcome, w')) :
    ∃ log, Runs limits handler steps task w log outcome w' ∧ log.length ≤ fuel := by
  induction fuel, steps, task, w using move_induct limits handler with
  | step fuel steps task w hresumed hasked =>
    rw [work_eq] at h
    cases hm : move limits steps task w with
    | ended outcome' w₁ =>
      rw [hm] at h
      cases h
      exact ⟨[], .ended hm, Nat.zero_le _⟩
    | resumed task' w₁ =>
      rw [hm] at h
      obtain ⟨log, hlog, hle⟩ := hresumed task' w₁ hm h
      exact ⟨log, .resumed hm hlog, hle⟩
    | asked r stack base w₁ =>
      rw [hm] at h
      cases fuel with
      | zero =>
        cases h
        exact (hout rfl).elim
      | succ fuel =>
        obtain ⟨log, hlog, hle⟩ := hasked r stack base w₁ hm fuel rfl h
        exact ⟨r :: log, .asked hm hlog, Nat.succ_le_succ hle⟩

/-! ## Recorded runs -/

def Place.recorded {β : Type} : Place σ α β → Place (σ × List Request) α β
  | .main => .main
  | .answering stack base => .answering (stack.map Pending.recorded) base.recorded

def Move.recorded (record : List Request) : Move σ α → Move (σ × List Request) α
  | .ended outcome w => .ended outcome (w, record)
  | .resumed task w => .resumed task.recorded (w, record)
  | .asked r stack base w =>
    .asked r (stack.map Pending.recorded) base.recorded (w, record)

theorem abandon_recorded (stack : List (Pending σ Value)) (base : Pending σ α) (w : σ)
    (record : List Request) :
    abandon (stack.map Pending.recorded) base.recorded (w, record) =
      (abandon stack base w, record) := by
  unfold abandon
  induction stack generalizing w with
  | nil => rfl
  | cons p stack ih => exact ih (p.release w)

theorem request_recorded (limits : Limits σ) (steps : Nat) (r : Request)
    (stack : List (Pending σ Value)) (base : Pending σ α) (w : σ) (record : List Request) :
    Move.request limits.recorded steps r (stack.map Pending.recorded) base.recorded (w, record) =
      (Move.request limits steps r stack base w).recorded record := by
  have hcheck : limits.recorded.check steps (w, record) = limits.check steps w := rfl
  simp only [Move.request, hcheck]
  cases limits.check steps w with
  | none => rfl
  | some stop => simp only [Move.recorded, abandon_recorded]

/-- Beside a record the driver makes the same moves. -/
theorem move_recorded (limits : Limits σ) (steps : Nat) (task : Task σ α) (w : σ)
    (record : List Request) :
    move limits.recorded steps task.recorded (w, record) =
      (move limits steps task w).recorded record := by
  obtain ⟨β, place, s, rfl⟩ := Place.exists_eq_task task
  have htask : (place.task s).recorded = place.recorded.task s.recorded := by cases place <;> rfl
  rw [htask, move_task, move_task, Step.settle_recorded]
  cases (s.settle w).1 with
  | finished flow =>
    cases place with
    | main => rfl
    | answering stack base => cases stack <;> rfl
  | faulted e => rfl
  | waiting r release resume =>
    rw [Place.move, ← request_recorded]
    cases place <;> rfl

/-- Runs that begin with the same move are the same. -/
theorem Runs.of_move_eq (h : move limits steps task w = move limits steps task' w₁)
    (hruns : Runs limits handler steps task' w₁ log outcome w') :
    Runs limits handler steps task w log outcome w' := by
  cases hruns with
  | ended hm => exact .ended (h.trans hm)
  | resumed hm rest => exact .resumed (h.trans hm) rest
  | asked hm rest => exact .asked (h.trans hm) rest

/-- A recording handler sees the requests of the run, and all else is the same. -/
theorem Runs.recorded (h : Runs limits handler steps task w log outcome w')
    (record : List Request) :
    Runs limits.recorded handler.recording steps task.recorded (w, record) log outcome
      (w', record ++ log) := by
  induction h generalizing record with
  | ended h =>
    rw [List.append_nil]
    exact .ended (by rw [move_recorded, h]; rfl)
  | resumed h _ ih => exact .resumed (by rw [move_recorded, h]; rfl) (ih record)
  | @asked steps task w r stack base w₁ log outcome w' h _ ih =>
    refine .asked (by rw [move_recorded, h]; rfl) ?_
    rw [List.append_cons]
    -- the handler notes the request and then goes on as it would without a record
    exact Runs.of_move_eq (by rfl) (ih (record ++ [r]))

/-- What a run comes to and leaves, and the requests it makes. -/
theorem Runs.runWithin_eq {s : Step σ α} (h : Runs limits handler 0 (.main s) w log outcome w')
    (hfuel : log.length ≤ fuel) :
    runWithin fuel limits handler s w = (outcome, w') ∧
      requestsWithin fuel limits handler s w = log := by
  refine ⟨h.work_eq hfuel, ?_⟩
  have hrecorded : work limits.recorded handler.recording fuel 0 (.main s.recorded) (w, []) =
      (outcome, (w', log)) := (h.recorded []).work_eq hfuel
  rw [requestsWithin, runWithin, hrecorded]

theorem exists_runs_of_runWithin {s : Step σ α} (hout : outcome ≠ .unfinished)
    (h : runWithin fuel limits handler s w = (outcome, w')) :
    Runs limits handler 0 (.main s) w (requestsWithin fuel limits handler s w) outcome w' ∧
      (requestsWithin fuel limits handler s w).length ≤ fuel := by
  obtain ⟨log, hlog, hle⟩ := exists_runs_of_work hout h
  rw [(hlog.runWithin_eq hle).2]
  exact ⟨hlog, hle⟩

end Driver

end ScriptSandbox
