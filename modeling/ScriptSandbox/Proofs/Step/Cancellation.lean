import ScriptSandbox.Proofs.Step.Budget

/-
  Cancellation.

  A cancellation flag is a part of the state that is never taken back once it is set; a step that
  keeps to this persists. The driver looks at the flag in front of each request and nowhere else, so
  from the moment it is set a run goes on just as far as it can without a request: either it ends
  as it would have ended anyway, or it stops in front of the next request (`exists_rest`).
  `Reaches` says how far a run has come, from its beginning, so that this moment can be any: before
  the run, during any call of the handler, however deeply nested, or between two of them
  (`CancelledAfter`). `cancellation_exact` compares the run with the one that nobody cancels.
-/

namespace ScriptSandbox

/-! ## Flags that stay set -/

/-- No change that the step makes takes the flag back. -/
def Step.Persists {σ α : Type} (cancelled : σ → Bool) : Step σ α → Prop
  | .done _ => True
  | .fault _ => True
  | .inspect next => ∀ w, Persists cancelled (next w)
  | .modify change next =>
    (∀ w, cancelled w = true → cancelled (change w) = true) ∧ Persists cancelled next
  | .ask _ _ resume => ∀ answer, Persists cancelled (resume answer)

namespace Step

variable {σ α : Type} {cancelled : σ → Bool} {s : Step σ α} {w : σ}

/-- A flag that is set is still set when the step has come to its front. -/
theorem Persists.settle (h : s.Persists cancelled) (hw : cancelled w = true) :
    cancelled (s.settle w).2 = true := by
  induction s generalizing w with
  | done flow => exact hw
  | fault e => exact hw
  | inspect next ih => exact ih w (h w) hw
  | modify change next ih => exact ih h.2 (h.1 w hw)
  | ask r release resume ih => exact hw

theorem Persists.resume {r : Request} {release : σ → σ} {resume : Flow Value → Step σ α}
    (h : s.Persists cancelled) (hs : (s.settle w).1 = .waiting r release resume)
    (answer : Flow Value) : (resume answer).Persists cancelled := by
  induction s generalizing w with
  | done flow => cases hs
  | fault e => cases hs
  | inspect next ih => exact ih w (h w) hs
  | modify change next ih => exact ih h.2 hs
  | ask r release resume ih =>
    cases hs
    exact h answer

end Step

/-! ## Limits that let more pass -/

/-- Whatever these limits let pass, the others let pass as well. -/
def Limits.Within {σ : Type} (limits limits' : Limits σ) : Prop :=
  ∀ {steps w}, limits.check steps w = Option.none → limits'.check steps w = Option.none

theorem Limits.within_none {σ : Type} (limits : Limits σ) : limits.Within .none := fun _ => rfl

/-- Without the flag the same budget lets more pass. -/
theorem Limits.within_uncancelled {σ : Type} (budget : Option Nat) (cancelled : σ → Bool) :
    Limits.Within ⟨budget, cancelled⟩ ⟨budget, fun _ => false⟩ := by
  intro steps w h
  unfold check at h
  split at h
  · cases h
  · exact h

namespace Driver

variable {σ α : Type}

variable {limits limits' : Limits σ} {budget : Option Nat} {cancelled : σ → Bool}
  {handler : Handler σ} {steps fuel : Nat} {task task' : Task σ α} {s : Step σ α}
  {w w' u u' : σ} {r : Request} {stack : List (Pending σ Value)} {base : Pending σ α}
  {log log' record : List Request} {outcome : Outcome α}

/-- All suspended steps persist. -/
def SuspendedPersist (cancelled : σ → Bool) (stack : List (Pending σ Value))
    (base : Pending σ α) : Prop :=
  (∀ p ∈ stack, ∀ answer, (p.resume answer).Persists cancelled) ∧
    ∀ answer, (base.resume answer).Persists cancelled

/-- The current step and all suspended ones persist. -/
def Task.Persists (cancelled : σ → Bool) : Task σ α → Prop
  | .main s => s.Persists cancelled
  | .answering s stack base => s.Persists cancelled ∧ SuspendedPersist cancelled stack base

/-- All steps that are left after a move persist. -/
def Move.Persists (cancelled : σ → Bool) : Move σ α → Prop
  | .ended _ _ => True
  | .resumed task _ => task.Persists cancelled
  | .asked _ stack base _ => SuspendedPersist cancelled stack base

/-- The state in which the current step of a task comes to its front. -/
def Task.settled : Task σ α → σ → σ
  | .main s, w => (s.settle w).2
  | .answering s _ _, w => (s.settle w).2

theorem Task.Persists.settled (h : task.Persists cancelled) (hw : cancelled w = true) :
    cancelled (task.settled w) = true := by
  cases task with
  | main s => exact Step.Persists.settle h hw
  | answering s stack base => exact Step.Persists.settle h.1 hw

theorem SuspendedPersist.unwound (h : SuspendedPersist cancelled stack base) (answer : Flow Value) :
    (Driver.unwound answer stack base).Persists cancelled := by
  cases stack with
  | nil => exact h.2 answer
  | cons p rest =>
    exact ⟨h.1 p List.mem_cons_self answer,
      fun q hq => h.1 q (List.mem_cons_of_mem p hq), h.2⟩

theorem SuspendedPersist.request (h : SuspendedPersist cancelled stack base)
    (limits : Limits σ) (steps : Nat) (r : Request) (w : σ) :
    (Move.request limits steps r stack base w).Persists cancelled := by
  unfold Move.request
  split
  · trivial
  · exact h

theorem Task.Persists.move (h : task.Persists cancelled) (limits : Limits σ) (steps : Nat) (w : σ) :
    (move limits steps task w).Persists cancelled := by
  cases task with
  | main s =>
    simp only [Driver.move]
    cases hfront : (s.settle w).1 with
    | finished flow => trivial
    | faulted e => trivial
    | waiting r release resume =>
      have hresume := Step.Persists.resume h hfront
      exact SuspendedPersist.request ⟨fun _ hp => absurd hp List.not_mem_nil, hresume⟩ ..
  | answering s stack base =>
    simp only [Driver.move]
    cases hfront : (s.settle w).1 with
    | finished flow => exact h.2.unwound flow
    | faulted e => trivial
    | waiting r release resume =>
      refine SuspendedPersist.request ⟨fun p hp => ?_, h.2.2⟩ ..
      rcases List.mem_cons.mp hp with rfl | hp
      · exact h.1.resume hfront
      · exact h.2.1 p hp

/-! ## Moves and limits -/

/-- A task ends or goes on with a suspended step, whatever the limits are, or it makes a request. -/
theorem move_unlimited (task : Task σ α) (w : σ) :
    (∃ outcome, ∀ limits steps, move limits steps task w = .ended outcome (task.settled w)) ∨
    (∃ task', ∀ limits steps, move limits steps task w = .resumed task' (task.settled w)) ∨
    ∃ r stack base, ∀ limits steps,
      move limits steps task w = Move.request limits steps r stack base (task.settled w) := by
  obtain ⟨β, place, s, rfl⟩ := Place.exists_eq_task task
  have hsettled : (place.task s).settled w = (s.settle w).2 := by cases place <;> rfl
  simp only [move_task, hsettled]
  cases (s.settle w).1 with
  | finished flow =>
    cases place with
    | main => exact .inl ⟨_, fun _ _ => rfl⟩
    | answering stack base => exact .inr (.inl ⟨_, fun _ _ => rfl⟩)
  | faulted e => exact .inl ⟨_, fun _ _ => rfl⟩
  | waiting r release resume => exact .inr (.inr ⟨_, _, _, fun _ _ => rfl⟩)

theorem move_within (hl : limits.Within limits') :
    (∀ {task' w'}, move limits steps task w = .resumed task' w' →
      move limits' steps task w = .resumed task' w') ∧
    ∀ {r stack base w'}, move limits steps task w = .asked r stack base w' →
      move limits' steps task w = .asked r stack base w' := by
  rcases move_unlimited task w with ⟨outcome, hm⟩ | ⟨task', hm⟩ | ⟨r, stack, base, hm⟩
  · simp [hm]
  · simp [hm]
  · simp only [hm, Move.request]
    cases hc : limits.check steps (task.settled w) with
    | none =>
      rw [hl hc]
      exact ⟨nofun, id⟩
    | some stop => simp

/-! ## How far a run has come -/

/-- The run of a step has made the requests of `log` and works on a task in a state. -/
inductive Reaches (limits : Limits σ) (handler : Handler σ) (s : Step σ α) (w : σ) :
    List Request → Task σ α → σ → Prop
  | start : Reaches limits handler s w [] (.main s) w
  | resumed {log : List Request} {task task' : Task σ α} {u u' : σ}
    (h : Reaches limits handler s w log task u)
    (hm : move limits log.length task u = .resumed task' u') :
    Reaches limits handler s w log task' u'
  | asked {log : List Request} {task : Task σ α} {u u' : σ} {r : Request}
    {stack : List (Pending σ Value)} {base : Pending σ α}
    (h : Reaches limits handler s w log task u)
    (hm : move limits log.length task u = .asked r stack base u') :
    Reaches limits handler s w (log ++ [r]) (.answering (handler r) stack base) u'

theorem Reaches.within (h : Reaches limits handler s w log task u) (hl : limits.Within limits') :
    Reaches limits' handler s w log task u := by
  induction h with
  | start => exact .start
  | resumed _ hm ih => exact .resumed ih ((move_within hl).1 hm)
  | asked _ hm ih => exact .asked ih ((move_within hl).2 hm)

theorem Reaches.persists (h : Reaches limits handler s w log task u) (hs : s.Persists cancelled)
    (hh : ∀ r, (handler r).Persists cancelled) : task.Persists cancelled := by
  induction h with
  | start => exact hs
  | @resumed log task task' u u' _ hm ih =>
    have hmove := ih.move limits log.length u
    rw [hm] at hmove
    exact hmove
  | @asked log task u u' r stack base _ hm ih =>
    have hmove := ih.move limits log.length u
    rw [hm] at hmove
    exact ⟨hh r, hmove⟩

/-- What is left of a run completes it. -/
theorem Reaches.runs (h : Reaches limits handler s w log task u)
    (hrest : Runs limits handler log.length task u log' outcome w') :
    Runs limits handler 0 (.main s) w (log ++ log') outcome w' := by
  induction h generalizing log' with
  | start => exact hrest
  | resumed _ hm ih => exact ih (.resumed hm hrest)
  | asked _ hm ih =>
    rw [List.append_assoc]
    refine ih (.asked hm ?_)
    rwa [List.length_append] at hrest

/-- A run that ends where it has come to. -/
theorem Reaches.runWithin_eq (h : Reaches limits handler s w log task u)
    (hm : move limits log.length task u = .ended outcome u') (hfuel : log.length ≤ fuel) :
    runWithin fuel limits handler s w = (outcome, u') ∧
      requestsWithin fuel limits handler s w = log := by
  have hruns := h.runs (.ended hm)
  rw [List.append_nil] at hruns
  exact hruns.runWithin_eq hfuel

/-- A run with a budget has not made more requests than that. -/
theorem Reaches.length_le {b : Nat} (h : Reaches ⟨some b, cancelled⟩ handler s w log task u) :
    log.length ≤ b := by
  induction h with
  | start => exact Nat.zero_le b
  | resumed _ _ ih => exact ih
  | @asked log task u u' r stack base _ hm ih =>
    rw [List.length_append, List.length_singleton]
    exact lt_budget_of_asked hm

/-! ## What has been recorded -/

/-- A recording handler notes the request first and then does what it does without a record. -/
theorem work_recording (limits : Limits (σ × List Request)) (handler : Handler σ)
    (fuel steps : Nat) (r : Request) (stack : List (Pending (σ × List Request) Value))
    (base : Pending (σ × List Request) α) (w : σ) (record : List Request) :
    work limits handler.recording fuel steps (.answering (handler.recording r) stack base)
        (w, record) =
      work limits handler.recording fuel steps (.answering (handler r).recorded stack base)
        (w, record ++ [r]) := by
  have hmove : move limits steps (.answering (handler.recording r) stack base) (w, record) =
      move limits steps (.answering (handler r).recorded stack base) (w, record ++ [r]) := rfl
  rw [work_eq, work_eq limits _ fuel steps (.answering (handler r).recorded stack base), hmove]

/-- Work adds to the record only. -/
theorem record_prefix_work (limits : Limits σ) (handler : Handler σ) (fuel steps : Nat)
    (task : Task σ α) (w : σ) (record : List Request) :
    record <+:
      (work limits.recorded handler.recording fuel steps task.recorded (w, record)).2.2 := by
  induction fuel, steps, task, w using move_induct limits handler generalizing record with
  | step fuel steps task w hresumed hasked =>
    rw [work_eq, move_recorded]
    cases hm : move limits steps task w with
    | ended outcome w' => exact List.prefix_rfl
    | resumed task' w' => exact hresumed task' w' hm record
    | asked r stack base w' =>
      cases fuel with
      | zero => exact List.prefix_rfl
      | succ fuel =>
        simp only [Move.recorded, work_recording]
        exact (List.prefix_append record [r]).trans
          (hasked r stack base w' hm fuel rfl (record ++ [r]))

theorem Reaches.recorded (h : Reaches limits handler s w log task u) (hfuel : log.length ≤ fuel) :
    runWithin fuel limits.recorded handler.recording s.recorded (w, []) =
      work limits.recorded handler.recording (fuel - log.length) log.length task.recorded
        (u, log) := by
  induction h with
  | start => rfl
  | resumed _ hm ih => rw [ih hfuel, work_eq, move_recorded, hm]; rfl
  | @asked log task u u' r stack base _ hm ih =>
    rw [List.length_append, List.length_singleton] at hfuel ⊢
    have hleft : fuel - log.length = (fuel - (log.length + 1)) + 1 := by omega
    rw [ih (by omega), work_eq, move_recorded, hm, hleft]
    exact work_recording ..

/-- The requests that a run has made are the first ones of all that it makes. -/
theorem Reaches.prefix_requests (h : Reaches limits handler s w log task u)
    (hfuel : log.length ≤ fuel) : log <+: requestsWithin fuel limits handler s w := by
  rw [requestsWithin, h.recorded hfuel]
  exact record_prefix_work ..

/-! ## Cancelled runs -/

/-- The flag is set by the time that the next request after those of `log` would come up: a step
    that the driver works on after them comes to its front with the flag set. -/
def CancelledAfter (limits : Limits σ) (handler : Handler σ) (s : Step σ α) (w : σ)
    (log : List Request) : Prop :=
  ∃ task u, Reaches limits handler s w log task u ∧ limits.cancelled (task.settled u) = true

/-- The flag is set before the run. -/
theorem cancelledAfter_before (hs : s.Persists limits.cancelled)
    (hw : limits.cancelled w = true) : CancelledAfter limits handler s w [] :=
  ⟨.main s, w, .start, hs.settle hw⟩

/-- The flag is set during the call of the handler for the request that follows those of `log`. -/
theorem cancelledAfter_during (h : Reaches limits handler s w log task u)
    (hm : move limits log.length task u = .asked r stack base u')
    (hc : limits.cancelled ((handler r).settle u').2 = true) :
    CancelledAfter limits handler s w (log ++ [r]) :=
  ⟨_, u', h.asked hm, hc⟩

/-- Without a request, a run comes to its end or to a step that asks for one. -/
theorem exists_rest (hp : task.Persists cancelled) (hc : cancelled (task.settled u) = true) :
    ∃ task' u', cancelled (task'.settled u') = true ∧
      (∀ {limits : Limits σ} {log}, Reaches limits handler s w log task u →
        Reaches limits handler s w log task' u') ∧
      ((∃ outcome, ∀ limits steps, move limits steps task' u' =
        .ended outcome (task'.settled u')) ∨
      ∃ r stack base, ∀ limits steps, move limits steps task' u' =
        .request limits steps r stack base (task'.settled u')) := by
  obtain ⟨n, hn⟩ : ∃ n, task.depth = n := ⟨_, rfl⟩
  induction n using Nat.strongRecOn generalizing task u with
  | ind n ih =>
    rcases move_unlimited task u with hended | ⟨task₁, hm⟩ | hasks
    · exact ⟨task, u, hc, id, .inl hended⟩
    · have hp₁ : task₁.Persists cancelled := by
        have hmove := hp.move .none 0 u
        rw [hm] at hmove
        exact hmove
      have hdepth : task₁.depth < n := hn ▸ depth_of_resumed (hm .none 0)
      obtain ⟨task', u', hc', hreaches, hlast⟩ := ih _ hdepth hp₁ (hp₁.settled hc) rfl
      exact ⟨task', u', hc', fun h => hreaches (h.resumed (hm _ _)), hlast⟩
    · exact ⟨task, u, hc, id, .inr hasks⟩

/-- Once the flag is set the handler is not called again, whatever the budget is, and what it was
    called for are the first requests of the run that nobody cancels. If that run makes no more of
    them, both are the same run and come to an outcome. Otherwise the run stops as cancelled with
    the number of requests that were made, also when the budget is used up just then. The budget
    has been enough for them, so `run` follows the run as far. -/
theorem cancellation_exact (hs : s.Persists cancelled) (hh : ∀ r, (handler r).Persists cancelled)
    (h : CancelledAfter ⟨budget, cancelled⟩ handler s w log) :
    (∀ b, budget = some b → log.length ≤ b) ∧
    ∀ fuel, log.length ≤ fuel →
      requestsWithin fuel ⟨budget, cancelled⟩ handler s w = log ∧
      log <+: requestsWithin fuel ⟨budget, fun _ => false⟩ handler s w ∧
      log <+: requestsWithin fuel .none handler s w ∧
      (requestsWithin (log.length + 1) .none handler s w = log →
        (runWithin fuel ⟨budget, cancelled⟩ handler s w).1 ≠ .unfinished ∧
        runWithin fuel ⟨budget, cancelled⟩ handler s w =
          runWithin fuel ⟨budget, fun _ => false⟩ handler s w ∧
        runWithin fuel ⟨budget, cancelled⟩ handler s w = runWithin fuel .none handler s w) ∧
      (requestsWithin (log.length + 1) .none handler s w ≠ log →
        (runWithin fuel ⟨budget, cancelled⟩ handler s w).1 =
          .stopped (.cancelled log.length)) := by
  obtain ⟨task₀, u₀, hreach₀, hc₀⟩ := h
  obtain ⟨task, u, hc, hrest, hlast⟩ := exists_rest (hreach₀.persists hs hh) hc₀
  have hreach : Reaches ⟨budget, cancelled⟩ handler s w log task u := hrest hreach₀
  have huncancelled : Reaches ⟨budget, fun _ => false⟩ handler s w log task u :=
    hreach.within (Limits.within_uncancelled budget cancelled)
  have hunlimited : Reaches .none handler s w log task u := hreach.within (Limits.within_none _)
  refine ⟨fun b hb => ?_, fun fuel hfuel => ?_⟩
  · subst hb
    exact hreach.length_le
  have hprefix := huncancelled.prefix_requests hfuel
  have hprefix' := hunlimited.prefix_requests hfuel
  rcases hlast with ⟨outcome, hended⟩ | ⟨r, stack, base, hasks⟩
  · -- the run ends by itself, and no limit has a say in that
    obtain ⟨hrun, hrequests⟩ := hreach.runWithin_eq (hended _ _) hfuel
    have hrun' := (huncancelled.runWithin_eq (hended _ _) hfuel).1
    have hrun'' := (hunlimited.runWithin_eq (hended _ _) hfuel).1
    have hsame := (hunlimited.runWithin_eq (hended _ _) (Nat.le_succ log.length)).2
    refine ⟨hrequests, hprefix, hprefix', fun _ => ⟨?_, hrun.trans hrun'.symm,
      hrun.trans hrun''.symm⟩, fun hmore => absurd hsame hmore⟩
    rw [hrun]
    rintro rfl
    exact move_ne_unfinished (hended .none 0)
  · -- the next request is not made, while without limits it is
    have hstops : move ⟨budget, cancelled⟩ log.length task u =
        .ended (.stopped (.cancelled log.length)) (abandon stack base (task.settled u)) := by
      rw [hasks, Move.request, Limits.check, if_pos hc]
    obtain ⟨hrun, hrequests⟩ := hreach.runWithin_eq hstops hfuel
    have hmore : log ++ [r] <+: requestsWithin (log.length + 1) .none handler s w :=
      (hunlimited.asked (hasks _ _)).prefix_requests (Nat.le_of_eq List.length_append)
    refine ⟨hrequests, hprefix, hprefix', fun hsame => ?_, fun _ => by rw [hrun]⟩
    rw [hsame] at hmore
    have hle := hmore.length_le
    rw [List.length_append, List.length_singleton] at hle
    omega

/-- The counting handler raises the flag when it is called for the second time, in front of the
    answer to its first call. A step with one more request to come stops after two, also when the
    budget is used up just then. A step with no more to come ends as if nobody had cancelled it.
    With the flag set before the run the handler is not called at all. -/
theorem cancellation_exact_nested :
    let cancelled : Nat → Bool := fun calls => 2 ≤ calls
    let once : Step Nat Unit := .checkpoint
    let twice : Step Nat Unit := once.andThen fun _ => once
    (∀ budget, budget = none ∨ budget = some 2 →
      requestsWithin 3 ⟨budget, cancelled⟩ countingHandler twice 0 = [.checkpoint, .checkpoint] ∧
      (runWithin 3 ⟨budget, cancelled⟩ countingHandler twice 0).1 = .stopped (.cancelled 2)) ∧
    runWithin 3 ⟨some 2, cancelled⟩ countingHandler once 0 =
      runWithin 3 .none countingHandler once 0 ∧
    requestsWithin 3 ⟨some 2, cancelled⟩ countingHandler once 2 = [] ∧
    (runWithin 3 ⟨some 2, cancelled⟩ countingHandler once 2).1 = .stopped (.cancelled 0) := by
  intro cancelled once twice
  have honce : once.Persists cancelled := fun answer => trivial
  have htwice : twice.Persists cancelled := fun answer => by
    cases answer with
    | ok v => exact fun _ => trivial
    | error c => trivial
  have hhandler : ∀ r, (countingHandler r).Persists cancelled := fun r calls => by
    refine ⟨fun n hn => ?_, ?_⟩
    · simp only [cancelled, decide_eq_true_eq] at hn ⊢
      omega
    · split
      · exact fun answer => by cases answer <;> trivial
      · trivial
  have hafter (s : Step Nat Unit) (hs : s = once ∨ s = twice) (budget : Option Nat)
      (hb : budget = none ∨ budget = some 2) :
      CancelledAfter ⟨budget, cancelled⟩ countingHandler s 0 [.checkpoint, .checkpoint] := by
    rcases hs with rfl | rfl <;> rcases hb with rfl | rfl <;>
      exact cancelledAfter_during (.asked .start rfl) rfl rfl
  have hmore : requestsWithin 3 .none countingHandler twice 0 =
      [.checkpoint, .checkpoint, .checkpoint] :=
    (Runs.runWithin_eq (.asked rfl (.asked rfl (.resumed rfl (.resumed rfl (.asked rfl
      (.resumed rfl (.ended rfl))))))) (Nat.le_refl 3)).2
  have hnomore : requestsWithin 3 .none countingHandler once 0 = [.checkpoint, .checkpoint] :=
    (Runs.runWithin_eq (.asked rfl (.asked rfl (.resumed rfl (.resumed rfl (.ended rfl)))))
      (by decide)).2
  refine ⟨fun budget hb => ?_, ?_, ?_⟩
  · obtain ⟨hrequests, -, -, -, hstops⟩ :=
      (cancellation_exact htwice hhandler (hafter twice (.inr rfl) budget hb)).2 3 (by decide)
    exact ⟨hrequests, hstops fun hsame => absurd (hmore.symm.trans hsame) (by decide)⟩
  · obtain ⟨-, -, -, hends, -⟩ := (cancellation_exact honce hhandler
      (hafter once (.inl rfl) (some 2) (.inr rfl))).2 3 (by decide)
    exact (hends hnomore).2.2
  · have hbefore : CancelledAfter ⟨some 2, cancelled⟩ countingHandler once 2 [] :=
      cancelledAfter_before honce rfl
    have hone : requestsWithin 1 .none countingHandler once 2 = [.checkpoint] :=
      (Runs.runWithin_eq (.asked rfl (.resumed rfl (.ended rfl))) (by decide)).2
    obtain ⟨hrequests, -, -, -, hstops⟩ :=
      (cancellation_exact honce hhandler hbefore).2 3 (by decide)
    exact ⟨hrequests, hstops fun hnone => absurd (hone.symm.trans hnone) (by decide)⟩

end Driver

end ScriptSandbox
