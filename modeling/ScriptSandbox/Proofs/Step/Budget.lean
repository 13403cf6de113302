import ScriptSandbox.Proofs.Step.Run

/-
  Budgets.

  A budget changes a run at one point only: at the first request for which nothing is left
  (`move_budget`). So a run with a budget is the run without one as long as the budget lasts, and
  stops in front of the next request otherwise (`budget_exact`). That it always ends needs no such
  comparison: every move takes a step from the stack or a request from the budget.
-/

namespace ScriptSandbox.Driver

variable {σ α : Type} {cancelled : σ → Bool} {limits : Limits σ} {handler : Handler σ}
  {steps b : Nat} {task : Task σ α} {w w' : σ} {log : List Request} {outcome : Outcome α}

theorem request_budget (cancelled : σ → Bool) (b steps : Nat) (r : Request)
    (stack : List (Pending σ Value)) (base : Pending σ α) (w : σ) :
    Move.request ⟨some b, cancelled⟩ steps r stack base w =
      match Move.request ⟨none, cancelled⟩ steps r stack base w with
      | .asked r stack base w =>
        if b ≤ steps then .ended (.stopped (.budgetExhausted steps)) (abandon stack base w)
        else .asked r stack base w
      | m => m := by
  unfold Move.request Limits.check
  by_cases hc : cancelled w
  · simp [hc]
  · by_cases hb : b ≤ steps <;> simp [hc, hb]

/-- With a budget the driver makes the same moves, except that a request that would go beyond the
    budget ends the run. -/
theorem move_budget (cancelled : σ → Bool) (b steps : Nat) (task : Task σ α) (w : σ) :
    move ⟨some b, cancelled⟩ steps task w =
      match move ⟨none, cancelled⟩ steps task w with
      | .asked r stack base w =>
        if b ≤ steps then .ended (.stopped (.budgetExhausted steps)) (abandon stack base w)
        else .asked r stack base w
      | m => m := by
  obtain ⟨β, place, s, rfl⟩ := Place.exists_eq_task task
  rw [move_task, move_task]
  cases (s.settle w).1 with
  | finished flow => cases place <;> rfl
  | faulted e => rfl
  | waiting r release resume => exact request_budget ..

theorem lt_budget_of_asked {r : Request} {stack : List (Pending σ Value)} {base : Pending σ α}
    (h : move ⟨some b, cancelled⟩ steps task w = .asked r stack base w') : steps < b := by
  rw [move_budget] at h
  split at h
  · by_cases hb : b ≤ steps
    · rw [if_pos hb] at h
      cases h
    · exact Nat.lt_of_not_le hb
  · next hne => exact (hne _ _ _ _ h).elim

theorem move_ne_unfinished : move limits steps task w ≠ .ended .unfinished w' := by
  obtain ⟨β, place, s, rfl⟩ := Place.exists_eq_task task
  rw [move_task]
  cases (s.settle w).1 with
  | finished flow => cases place <;> simp [Place.move, Place.finish]
  | faulted e => simp [Place.move]
  | waiting r release resume =>
    simp only [Place.move, Move.request]
    split <;> simp

theorem Runs.ne_unfinished (h : Runs limits handler steps task w log outcome w') :
    outcome ≠ .unfinished := by
  induction h with
  | ended h =>
    rintro rfl
    exact move_ne_unfinished h
  | resumed _ _ ih => exact ih
  | asked _ _ ih => exact ih

/-! ## A budget that lasts -/

theorem Runs.within_budget (h : Runs ⟨none, cancelled⟩ handler steps task w log outcome w')
    (hb : steps + log.length ≤ b) :
    Runs ⟨some b, cancelled⟩ handler steps task w log outcome w' := by
  induction h with
  | ended h => exact .ended (by rw [move_budget, h])
  | resumed h _ ih => exact .resumed (by rw [move_budget, h]) (ih hb)
  | @asked steps task w r stack base w₁ log outcome w' h _ ih =>
    rw [List.length_cons] at hb
    have hleft : ¬ b ≤ steps := by omega
    exact .asked (by rw [move_budget, h]; exact if_neg hleft) (ih (by omega))

/-! ## A budget that runs out -/

theorem Runs.beyond_budget (h : Runs ⟨none, cancelled⟩ handler steps task w log outcome w')
    (hs : steps ≤ b) (hb : b < steps + log.length) :
    ∃ w'', Runs ⟨some b, cancelled⟩ handler steps task w (log.take (b - steps))
      (.stopped (.budgetExhausted b)) w'' := by
  induction h with
  | ended h =>
    rw [List.length_nil] at hb
    omega
  | resumed h _ ih =>
    obtain ⟨w'', hruns⟩ := ih hs hb
    exact ⟨w'', .resumed (by rw [move_budget, h]) hruns⟩
  | @asked steps task w r stack base w₁ log outcome w' h _ ih =>
    rcases Nat.eq_or_lt_of_le hs with rfl | hlt
    · rw [Nat.sub_self, List.take_zero]
      exact ⟨_, .ended (by rw [move_budget, h]; exact if_pos (Nat.le_refl _))⟩
    · rw [List.length_cons] at hb
      obtain ⟨w'', hruns⟩ := ih hlt (by omega)
      have htake : (r :: log).take (b - steps) = r :: log.take (b - (steps + 1)) := by
        rw [show b - steps = (b - (steps + 1)) + 1 by omega, List.take_succ_cons]
      rw [htake]
      exact ⟨w'', .asked (by rw [move_budget, h]; exact if_neg (Nat.not_le.mpr hlt)) hruns⟩

/-- A run makes no more requests than its budget has left. -/
theorem Runs.length_le (h : Runs limits handler steps task w log outcome w')
    (hb : limits.budget = some b) (hs : steps ≤ b) : steps + log.length ≤ b := by
  obtain ⟨_, cancelled⟩ := limits
  obtain rfl : _ = some b := hb
  induction h with
  | ended _ => exact hs
  | resumed _ _ ih => exact ih hs
  | asked hm _ ih =>
    rw [List.length_cons, Nat.add_comm _ 1, ← Nat.add_assoc]
    exact ih (lt_budget_of_asked hm)

/-! ## Termination -/

/-- Work under a budget always comes to an end, with the requests that are left at most. -/
theorem exists_runs_of_budget (cancelled : σ → Bool) (handler : Handler σ) (b : Nat)
    (task : Task σ α) (w : σ) (hs : steps ≤ b) :
    ∃ log outcome w', Runs ⟨some b, cancelled⟩ handler steps task w log outcome w' ∧
      steps + log.length ≤ b := by
  obtain ⟨fuel, hfuel⟩ : ∃ fuel, steps + fuel = b := Nat.le.dest hs
  induction fuel, steps, task, w using move_induct ⟨some b, cancelled⟩ handler with
  | step fuel steps task w hresumed hasked =>
    cases hm : move ⟨some b, cancelled⟩ steps task w with
    | ended outcome w' => exact ⟨[], outcome, w', .ended hm, hs⟩
    | resumed task' w₁ =>
      obtain ⟨log, outcome, w', hruns, hle⟩ := hresumed task' w₁ hm hs hfuel
      exact ⟨log, outcome, w', .resumed hm hruns, hle⟩
    | asked r stack base w₁ =>
      have hlt : steps < b := lt_budget_of_asked hm
      obtain ⟨log, outcome, w', hruns, hle⟩ :=
        hasked r stack base w₁ hm (fuel - 1) (by omega) hlt (by omega)
      refine ⟨r :: log, outcome, w', .asked hm hruns, ?_⟩
      rw [List.length_cons]
      omega

/-- A run with a budget ends, after that many requests at most, however far it is followed. If the
    run without the budget ends and the budget allows for its requests, both are the same run.
    If it does not, the run stops after the first requests, as many as the budget has. -/
theorem budget_exact (cancelled : σ → Bool) (handler : Handler σ) (s : Step σ α) (w : σ)
    (b : Nat) :
    (run ⟨some b, cancelled⟩ handler s w).1 ≠ .unfinished ∧
    (∀ fuel, b ≤ fuel → runWithin fuel ⟨some b, cancelled⟩ handler s w =
      run ⟨some b, cancelled⟩ handler s w) ∧
    (requests ⟨some b, cancelled⟩ handler s w).length ≤ b ∧
    ∀ fuel outcome w' log, outcome ≠ .unfinished →
      runWithin fuel ⟨none, cancelled⟩ handler s w = (outcome, w') →
      requestsWithin fuel ⟨none, cancelled⟩ handler s w = log →
      (log.length ≤ b → run ⟨some b, cancelled⟩ handler s w = (outcome, w') ∧
        requests ⟨some b, cancelled⟩ handler s w = log) ∧
      (b < log.length →
        (run ⟨some b, cancelled⟩ handler s w).1 = .stopped (.budgetExhausted b) ∧
        requests ⟨some b, cancelled⟩ handler s w = log.take b) := by
  have hrun : ∀ {log outcome w'}, Runs ⟨some b, cancelled⟩ handler 0 (.main s) w log outcome w' →
      log.length ≤ b → run ⟨some b, cancelled⟩ handler s w = (outcome, w') ∧
        requests ⟨some b, cancelled⟩ handler s w = log := fun h hle => h.runWithin_eq hle
  obtain ⟨log, outcome, w', hruns, hle⟩ :=
    exists_runs_of_budget cancelled handler b (.main s) w (Nat.zero_le b)
  rw [Nat.zero_add] at hle
  obtain ⟨hout, hrequests⟩ := hrun hruns hle
  refine ⟨?_, fun fuel hfuel => ?_, ?_, ?_⟩
  · rw [hout]
    exact hruns.ne_unfinished
  · rw [hout]
    exact (hruns.runWithin_eq (Nat.le_trans hle hfuel)).1
  · rw [hrequests]
    exact hle
  · rintro fuel outcome' w'' log' hne hunlimited rfl
    obtain ⟨hruns', -⟩ := exists_runs_of_runWithin hne hunlimited
    refine ⟨fun hlasts => ?_, fun hexhausted => ?_⟩
    · exact hrun (hruns'.within_budget (by omega)) hlasts
    · obtain ⟨w₃, hstopped⟩ := hruns'.beyond_budget (Nat.zero_le b) (by omega)
      rw [Nat.sub_zero] at hstopped
      obtain ⟨hout', hrequests'⟩ := hrun hstopped (List.length_take_le b _)
      exact ⟨by rw [hout'], hrequests'⟩

/-- A handler that counts its requests and asks once more before it answers the first one. -/
def countingHandler : Handler Nat := fun _ =>
  .inspect fun n =>
    .modify (· + 1) (if n = 0 then Step.checkpoint.andThen fun _ => .ready .null else .ready .null)

/-- Two requests of a step and the nested one are three. A budget of three does not show, and with a
    budget of two the second request of the step is not made. -/
theorem budget_exact_nested :
    let twice : Step Nat Unit := Step.checkpoint.andThen fun _ => .checkpoint
    runWithin 3 .none countingHandler twice 0 = (.finished (.ok ()), 3) ∧
    run ⟨some 3, fun _ => false⟩ countingHandler twice 0 = (.finished (.ok ()), 3) ∧
    (run ⟨some 2, fun _ => false⟩ countingHandler twice 0).1 = .stopped (.budgetExhausted 2) ∧
    requests ⟨some 2, fun _ => false⟩ countingHandler twice 0 = [.checkpoint, .checkpoint] := by
  intro twice
  have hruns : Runs .none countingHandler 0 (.main twice) 0 [.checkpoint, .checkpoint, .checkpoint]
      (.finished (.ok ())) 3 :=
    .asked rfl (.asked rfl (.resumed rfl (.resumed rfl (.asked rfl (.resumed rfl (.ended rfl))))))
  obtain ⟨hrun, hrequests⟩ := hruns.runWithin_eq (Nat.le_refl 3)
  have hlasts := (budget_exact (fun _ => false) countingHandler twice 0 3).2.2.2 3 _ _ _
    (by simp) hrun hrequests
  have hexhausted := (budget_exact (fun _ => false) countingHandler twice 0 2).2.2.2 3 _ _ _
    (by simp) hrun hrequests
  exact ⟨hrun, (hlasts.1 (by decide)).1, hexhausted.2 (by decide)⟩

end ScriptSandbox.Driver
