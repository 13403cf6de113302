import ScriptSandbox.Proofs.Step.Cancellation
import ScriptSandbox.Proofs.Step.Sequence

/-
  What is left for the second step.

  The driver counts requests in one place only, at the limits, so work after some requests is work
  from the start under what is left of the budget, with those requests added to the count that a
  stop reports (`work_add`). A sequence whose first step comes to a result therefore goes on as a
  run of its own of the second step, from the state that the first one left, under the rest of the
  budget (`sequence_in_parts`). This holds of every run of the second step, also of one that is
  stopped or that is not followed to its end, which is why it compares work and not complete runs.
-/

namespace ScriptSandbox

variable {σ α β : Type}

/-! ## Counting on -/

/-- A stop as it is reported when `k` requests came before. -/
def Stop.after (k : Nat) : Stop → Stop
  | .cancelled steps => .cancelled (steps + k)
  | .budgetExhausted steps => .budgetExhausted (steps + k)

def Outcome.after (k : Nat) : Outcome α → Outcome α
  | .stopped s => .stopped (s.after k)
  | .finished flow => .finished flow
  | .faulted e => .faulted e
  | .unfinished => .unfinished

/-- The limits that are left after `k` requests. -/
def Limits.after (k : Nat) (limits : Limits σ) : Limits σ :=
  ⟨limits.budget.map (· - k), limits.cancelled⟩

theorem Limits.check_add (limits : Limits σ) (k steps : Nat) (w : σ) :
    limits.check (steps + k) w = ((limits.after k).check steps w).map (Stop.after k) := by
  obtain ⟨budget, cancelled⟩ := limits
  unfold Limits.check Limits.after
  cases hc : cancelled w with
  | true => simp [hc, Stop.after]
  | false =>
    cases budget with
    | none => simp [hc]
    | some b =>
      have hleft : b ≤ steps + k ↔ b - k ≤ steps := by omega
      by_cases hb : b - k ≤ steps <;> simp [hc, hleft, hb, Stop.after]

namespace Driver

def Move.after (k : Nat) : Move σ α → Move σ α
  | .ended outcome w => .ended (outcome.after k) w
  | .resumed task w => .resumed task w
  | .asked r stack base w => .asked r stack base w

theorem move_add (limits : Limits σ) (k steps : Nat) (task : Task σ α) (w : σ) :
    move limits (steps + k) task w = (move (limits.after k) steps task w).after k := by
  obtain ⟨β, place, s, rfl⟩ := Place.exists_eq_task task
  rw [move_task, move_task]
  cases (s.settle w).1 with
  | finished flow => cases place <;> rfl
  | faulted e => rfl
  | waiting r release resume =>
    simp only [Place.move, Move.request, Limits.check_add]
    cases (limits.after k).check steps (s.settle w).2 <;> rfl

/-- Work after `k` more requests is work under the limits that they leave. -/
theorem work_add (limits : Limits σ) (handler : Handler σ) (k fuel steps : Nat) (task : Task σ α)
    (w : σ) :
    work limits handler fuel (steps + k) task w =
      ((work (limits.after k) handler fuel steps task w).1.after k,
        (work (limits.after k) handler fuel steps task w).2) := by
  induction fuel, steps, task, w using move_induct (limits.after k) handler with
  | step fuel steps task w hresumed hasked =>
    rw [work_eq, work_eq (limits.after k), move_add]
    cases hm : move (limits.after k) steps task w with
    | ended outcome w₁ => rfl
    | resumed task' w₁ => exact hresumed task' w₁ hm
    | asked r stack base w₁ =>
      cases fuel with
      | zero => rfl
      | succ fuel =>
        simp only [Move.after, Nat.add_right_comm steps k 1]
        exact hasked r stack base w₁ hm fuel rfl

/-! ## The record of a part -/

/-- What work adds to a record does not depend on the record, and the record on nothing else. -/
theorem exists_record_of_work (limits : Limits σ) (handler : Handler σ) (fuel steps : Nat)
    (task : Task σ α) (w : σ) :
    ∃ log, ∀ record,
      work limits.recorded handler.recording fuel steps task.recorded (w, record) =
        ((work limits handler fuel steps task w).1,
          ((work limits handler fuel steps task w).2, record ++ log)) := by
  induction fuel, steps, task, w using move_induct limits handler with
  | step fuel steps task w hresumed hasked =>
    rw [work_eq limits handler]
    conv => enter [1, log, record]; rw [work_eq, move_recorded]
    cases hm : move limits steps task w with
    | ended outcome w₁ => exact ⟨[], fun record => by rw [List.append_nil]; rfl⟩
    | resumed task' w₁ => exact hresumed task' w₁ hm
    | asked r stack base w₁ =>
      cases fuel with
      | zero => exact ⟨[], fun record => by rw [List.append_nil]; rfl⟩
      | succ fuel =>
        obtain ⟨log, hlog⟩ := hasked r stack base w₁ hm fuel rfl
        refine ⟨r :: log, fun record => ?_⟩
        simp only [Move.recorded, work_recording]
        rw [List.append_cons record r log]
        exact hlog (record ++ [r])

/-- Work on a step behind the requests of `log`, with the record that they left. -/
theorem work_behind (limits : Limits σ) (handler : Handler σ) (fuel : Nat) (s : Step σ α) (w : σ)
    (log : List Request) :
    work limits handler fuel log.length (.main s) w =
        ((runWithin fuel (limits.after log.length) handler s w).1.after log.length,
          (runWithin fuel (limits.after log.length) handler s w).2) ∧
      (work limits.recorded handler.recording fuel log.length (.main s.recorded) (w, log)).2.2 =
        log ++ requestsWithin fuel (limits.after log.length) handler s w := by
  have hadd := work_add limits handler log.length fuel 0 (.main s) w
  have hadd' := work_add limits.recorded handler.recording log.length fuel 0 (.main s.recorded)
    (w, log)
  rw [Nat.zero_add] at hadd hadd'
  obtain ⟨rest, hrest⟩ :=
    exists_record_of_work (limits.after log.length) handler fuel 0 (.main s) w
  refine ⟨hadd, ?_⟩
  have hrequests : requestsWithin fuel (limits.after log.length) handler s w = rest :=
    congrArg (·.2.2) (hrest [])
  rw [hadd', hrequests]
  exact congrArg (·.2.2) (hrest log)

/-! ## The parts of a sequence -/

variable {limits : Limits σ} {handler : Handler σ} {steps : Nat} {task : Task σ α}
  {f : α → Step σ β} {w w₁ : σ} {log : List Request} {v : α}

theorem recorded_andThen (s : Step σ α) (f : α → Step σ β) :
    (s.andThen f).recorded = s.recorded.andThen fun v => (f v).recorded := by
  induction s with
  | done flow => cases flow <;> rfl
  | fault e => rfl
  | inspect next ih => simp only [Step.andThen, Step.recorded, ih]
  | modify change next ih => simp only [Step.andThen, Step.recorded, ih]
  | ask r release resume ih => simp only [Step.andThen, Step.recorded, ih]

/-- Behind a result of the first step the driver works on the second one. -/
theorem Runs.work_andThen (h : Runs limits handler steps task w log (.finished (.ok v)) w₁)
    (f : α → Step σ β) (fuel : Nat) :
    work limits handler (log.length + fuel) steps (task.andThen f) w =
      work limits handler fuel (steps + log.length) (.main (f v)) w₁ := by
  generalize hfirst : Outcome.finished (.ok v) = first at h
  induction h with
  | ended hm =>
    cases hfirst
    rw [List.length_nil, Nat.zero_add, Driver.work_eq, move_andThen, hm,
      Driver.work_eq limits handler fuel]
    rfl
  | resumed hm _ ih =>
    rw [Driver.work_eq, move_andThen, hm]
    exact ih hfirst
  | @asked steps task w r stack base w₂ log first w₁ hm _ ih =>
    rw [Driver.work_eq, move_andThen, hm, List.length_cons, Nat.add_right_comm log.length 1 fuel,
      Nat.add_comm log.length 1, ← Nat.add_assoc steps]
    exact ih hfirst

/-- Behind a result of the first step the run of a sequence is one of the second step. -/
theorem Runs.runWithin_andThen {s : Step σ α}
    (h : Runs limits handler 0 (.main s) w log (.finished (.ok v)) w₁) (f : α → Step σ β)
    (fuel : Nat) :
    runWithin (log.length + fuel) limits handler (s.andThen f) w =
        ((runWithin fuel (limits.after log.length) handler (f v) w₁).1.after log.length,
          (runWithin fuel (limits.after log.length) handler (f v) w₁).2) ∧
      requestsWithin (log.length + fuel) limits handler (s.andThen f) w =
        log ++ requestsWithin fuel (limits.after log.length) handler (f v) w₁ := by
  obtain ⟨hwork, hrecord⟩ := work_behind limits handler fuel (f v) w₁ log
  have hruns := h.work_andThen f fuel
  have hrecorded := (h.recorded []).work_andThen (fun v => (f v).recorded) fuel
  rw [Nat.zero_add] at hruns hrecorded
  refine ⟨hruns.trans hwork, ?_⟩
  rw [requestsWithin, runWithin, recorded_andThen, ← hrecord]
  exact congrArg (·.2.2) hrecorded

/-- A sequence is run part by part. When the first step alone comes to a result, with the requests
    of `log`, the budget allows for these, and the run of the sequence makes them and goes on as a
    run of the second step from the state that they leave, under the rest of the budget. The run of
    the second step may end in any way, and its stops are reported with all requests counted. When
    the first step ends abruptly, faults or is stopped, the sequence does the same, whatever its
    second step would be. -/
theorem sequence_in_parts (limits : Limits σ) (handler : Handler σ) (s : Step σ α) (fuel : Nat)
    (w w₁ : σ) (log : List Request) (hlog : requestsWithin fuel limits handler s w = log) :
    (∀ v, runWithin fuel limits handler s w = (.finished (.ok v), w₁) →
      ∀ f : α → Step σ β,
        (∀ fuel',
          runWithin (log.length + fuel') limits handler (s.andThen f) w =
              ((runWithin fuel' (limits.after log.length) handler (f v) w₁).1.after log.length,
                (runWithin fuel' (limits.after log.length) handler (f v) w₁).2) ∧
            requestsWithin (log.length + fuel') limits handler (s.andThen f) w =
              log ++ requestsWithin fuel' (limits.after log.length) handler (f v) w₁) ∧
        ∀ b, limits.budget = some b → log.length ≤ b ∧
          run limits handler (s.andThen f) w =
              ((run (limits.after log.length) handler (f v) w₁).1.after log.length,
                (run (limits.after log.length) handler (f v) w₁).2) ∧
            requests limits handler (s.andThen f) w =
              log ++ requests (limits.after log.length) handler (f v) w₁) ∧
    ∀ (first : Outcome α) (outcome : Outcome β), first.Passes outcome →
      runWithin fuel limits handler s w = (first, w₁) →
      ∀ f : α → Step σ β,
        (∀ fuel', log.length ≤ fuel' →
          runWithin fuel' limits handler (s.andThen f) w = (outcome, w₁) ∧
            requestsWithin fuel' limits handler (s.andThen f) w = log) ∧
        ∀ b, limits.budget = some b →
          run limits handler (s.andThen f) w = (outcome, w₁) ∧
            requests limits handler (s.andThen f) w = log := by
  have hle : ∀ {o : Outcome α}, Runs limits handler 0 (.main s) w log o w₁ →
      ∀ {b}, limits.budget = some b → log.length ≤ b := fun hruns b hb => by
    have hlength := hruns.length_le hb (Nat.zero_le b)
    rwa [Nat.zero_add] at hlength
  constructor
  · intro v hfirst f
    obtain ⟨hruns, -⟩ := exists_runs_of_runWithin (by simp) hfirst
    rw [hlog] at hruns
    refine ⟨hruns.runWithin_andThen f, fun b hb => ?_⟩
    have hrest := hruns.runWithin_andThen f (b - log.length)
    rw [Nat.add_sub_cancel' (hle hruns hb)] at hrest
    simp only [run, requests, Limits.after, hb, Option.map_some, Option.getD_some] at hrest ⊢
    exact ⟨hle hruns hb, hrest⟩
  · intro first outcome hp hfirst f
    have hne : first ≠ .unfinished := by cases hp <;> simp
    obtain ⟨hruns, -⟩ := exists_runs_of_runWithin hne hfirst
    rw [hlog] at hruns
    have hsequence : Runs limits handler 0 (.main (s.andThen f)) w log outcome w₁ :=
      hruns.andThen_of_passes hp
    refine ⟨fun fuel' => hsequence.runWithin_eq, fun b hb => ?_⟩
    rw [run, requests, hb]
    exact hsequence.runWithin_eq (hle hruns hb)

/-- The answer to the one request of the first step makes a request too. Of a budget of three one
    request is left then for the two of the second step, and the stop counts all three. A budget of
    one runs out while the first step waits for its answer. -/
theorem sequence_in_parts_nested :
    let twice : Unit → Step Nat Unit := fun _ => Step.checkpoint.andThen fun _ => .checkpoint
    let limits : Nat → Limits Nat := fun b => ⟨some b, fun _ => false⟩
    runWithin 3 (limits 3) countingHandler .checkpoint 0 = (.finished (.ok ()), 2) ∧
    run (limits 3) countingHandler (Step.checkpoint.andThen twice) 0 =
      (.stopped (.budgetExhausted 3), 3) ∧
    requests (limits 3) countingHandler (Step.checkpoint.andThen twice) 0 =
      [.checkpoint, .checkpoint, .checkpoint] ∧
    run (limits 1) countingHandler (Step.checkpoint.andThen twice) 0 =
      (.stopped (.budgetExhausted 1), 1) := by
  intro twice limits
  have hfirst : Runs (limits 3) countingHandler 0 (.main .checkpoint) 0 [.checkpoint, .checkpoint]
      (.finished (.ok ())) 2 :=
    .asked rfl (.asked rfl (.resumed rfl (.resumed rfl (.ended rfl))))
  have hsecond : Runs ((limits 3).after 2) countingHandler 0 (.main (twice ())) 2 [.checkpoint]
      (.stopped (.budgetExhausted 1)) 3 :=
    .asked rfl (.resumed rfl (.ended rfl))
  have hstopped : Runs (limits 1) countingHandler 0 (.main .checkpoint) 0 [.checkpoint]
      (.stopped (.budgetExhausted 1)) 1 :=
    .asked rfl (.ended rfl)
  obtain ⟨hrun, hlog⟩ := hfirst.runWithin_eq (show 2 ≤ 3 by decide)
  obtain ⟨hrest, hrestlog⟩ := hsecond.runWithin_eq (Nat.le_refl 1)
  obtain ⟨hrun', hlog'⟩ := hstopped.runWithin_eq (show 1 ≤ 3 by decide)
  obtain ⟨-, hsequence, hrequests⟩ :=
    ((sequence_in_parts (limits 3) countingHandler .checkpoint 3 0 2 _ hlog).1 () hrun twice).2 3
      rfl
  have hpassed := (sequence_in_parts (limits 1) countingHandler .checkpoint 3 0 1 _ hlog').2 _ _
    (.stopped _) hrun' twice
  refine ⟨hrun, ?_, ?_, (hpassed.2 1 rfl).1⟩
  · rw [hsequence]
    exact congrArg (fun ended : Outcome Unit × Nat => (ended.1.after 2, ended.2)) hrest
  · rw [hrequests]
    exact congrArg ([Request.checkpoint, .checkpoint] ++ ·) hrestlog

end Driver

end ScriptSandbox
