import ScriptSandbox.Proofs.Step.Budget
import ScriptSandbox.Proofs.Step.Contract
import ScriptSandbox.Proofs.Step.Suspension

/-
  Steps in sequence.

  Steps are trees and their combinators graft a tree onto the leaves of another one. So the laws of
  a monad hold as equations between trees (`sequencing_laws`): both sides make the same requests for
  all answers, and they change the state, release and end alike. What the driver makes of a sequence
  follows its moves. As long as the first step is at work it moves as if that step were alone, and
  at its result it turns to the second one (`move_andThen`). So a run of a sequence is a run of the
  first step whose outcome is no result, or a run to a result and then a run of the second step
  (`runs_andThen_iff`). What a step releases at its end shows in the state only (`Runs.releasing`,
  `Runs.of_releasing`).
-/

namespace ScriptSandbox

variable {σ α β γ : Type}

namespace Step

/-! ## Laws -/

@[simp] theorem done_onFlow (flow : Flow α) (h : Flow α → Step σ β) :
    (done flow).onFlow h = h flow := rfl

theorem onFlow_done (s : Step σ α) : s.onFlow done = s := by
  induction s with
  | done flow => rfl
  | fault e => rfl
  | inspect next ih => simp only [onFlow, ih]
  | modify change next ih => simp only [onFlow, ih]
  | ask r release resume ih => simp only [onFlow, ih]

theorem onFlow_assoc (s : Step σ α) (h : Flow α → Step σ β) (k : Flow β → Step σ γ) :
    (s.onFlow h).onFlow k = s.onFlow fun flow => (h flow).onFlow k := by
  induction s with
  | done flow => rfl
  | fault e => rfl
  | inspect next ih => simp only [onFlow, ih]
  | modify change next ih => simp only [onFlow, ih]
  | ask r release resume ih => simp only [onFlow, ih]

/-- Steps under `andThen` are a monad with `ready` as its unit, and under `onFlow` one with `done`;
    `andThen` is `onFlow` with a completion thrown on. The sides of each law are the same tree, so
    they make the same requests for every sequence of answers, whatever the state is in which an
    answer comes, and they change the state, release and end in the same way. -/
theorem sequencing_laws (s : Step σ α) (a : α) (flow : Flow α) (f : α → Step σ β)
    (g : β → Step σ γ) (h : Flow α → Step σ β) (k : Flow β → Step σ γ) :
    (s.andThen f).andThen g = (s.andThen fun x => (f x).andThen g) ∧
      s.andThen ready = s ∧
      (ready a : Step σ α).andThen f = f a ∧
      (s.onFlow h).onFlow k = (s.onFlow fun flow => (h flow).onFlow k) ∧
      s.onFlow done = s ∧
      (done flow : Step σ α).onFlow h = h flow ∧
      s.andThen f = s.onFlow fun
        | .ok v => f v
        | .error c => throw c :=
  ⟨andThen_assoc s f g, andThen_ready s, ready_andThen a f, onFlow_assoc s h k, onFlow_done s,
    done_onFlow flow h, andThen_eq_onFlow s f⟩

end Step

/-! ## Runs side by side -/

namespace Driver

/-- Two moves at which the driver does the same. The tasks that it goes on with are related by `R`
    and the ends of the runs, if these are their last moves, by `D`. -/
inductive Move.Alike (R : Task σ α → Task σ β → Prop) (D : Outcome α × σ → Outcome β × σ → Prop) :
    Move σ α → Move σ β → Prop
  | ended {o : Outcome α} {o' : Outcome β} {w w' : σ} (h : D (o, w) (o', w')) :
    Alike R D (.ended o w) (.ended o' w')
  | resumed {task : Task σ α} {task' : Task σ β} (w : σ) (h : R task task') :
    Alike R D (.resumed task w) (.resumed task' w)
  | asked {base : Pending σ α} {base' : Pending σ β} (r : Request) (stack : List (Pending σ Value))
    (w : σ) (h : ∀ s, R (.answering s stack base) (.answering s stack base')) :
    Alike R D (.asked r stack base w) (.asked r stack base' w)

theorem Move.Alike.flip {R : Task σ α → Task σ β → Prop} {D : Outcome α × σ → Outcome β × σ → Prop}
    {m : Move σ α} {m' : Move σ β} (h : Alike R D m m') :
    Alike (fun t' t => R t t') (fun e' e => D e e') m' m := by
  cases h with
  | ended h => exact .ended h
  | resumed w h => exact .resumed w h
  | asked r stack w h => exact .asked r stack w h

/-- Tasks whose moves are alike for good have runs with the same requests. -/
theorem Runs.of_alike {limits : Limits σ} {handler : Handler σ} {R : Task σ α → Task σ β → Prop}
    {D : Outcome α × σ → Outcome β × σ → Prop}
    (halike : ∀ {t t'}, R t t' → ∀ steps w,
      Move.Alike R D (move limits steps t w) (move limits steps t' w))
    {steps : Nat} {task : Task σ α} {task' : Task σ β} {w w₁ : σ} {log : List Request}
    {o : Outcome α} (h : Runs limits handler steps task w log o w₁) (hR : R task task') :
    ∃ o' w₂, Runs limits handler steps task' w log o' w₂ ∧ D (o, w₁) (o', w₂) := by
  induction h generalizing task' with
  | @ended steps task w o w₁ h =>
    have hm := halike hR steps w
    rw [h] at hm
    generalize hm' : move limits steps task' w = m at hm
    obtain ⟨hD⟩ := hm
    exact ⟨_, _, .ended hm', hD⟩
  | @resumed steps task w next u log o w₁ h _ ih =>
    have hm := halike hR steps w
    rw [h] at hm
    generalize hm' : move limits steps task' w = m at hm
    obtain _ | ⟨_, hnext⟩ := hm
    obtain ⟨o', w₂, hruns, hD⟩ := ih hnext
    exact ⟨o', w₂, .resumed hm' hruns, hD⟩
  | @asked steps task w r stack base u log o w₁ h _ ih =>
    have hm := halike hR steps w
    rw [h] at hm
    generalize hm' : move limits steps task' w = m at hm
    obtain _ | _ | ⟨_, _, _, hnext⟩ := hm
    obtain ⟨o', w₂, hruns, hD⟩ := ih (hnext (handler r))
    exact ⟨o', w₂, .asked hm' hruns, hD⟩

end Driver

/-! ## Runs of a sequence -/

/-- The outcome of the first step of a sequence is that of the sequence, because there is no result
    to go on with. -/
inductive Outcome.Passes : Outcome α → Outcome β → Prop
  | abrupt (c : Completion) : Passes (.finished (.error c)) (.finished (.error c))
  | faulted (e : Fault) : Passes (.faulted e) (.faulted e)
  | stopped (s : Stop) : Passes (.stopped s) (.stopped s)

theorem Outcome.Passes.trans {o : Outcome α} {o' : Outcome β} {o'' : Outcome γ} (h : o.Passes o')
    (h' : o'.Passes o'') : o.Passes o'' := by
  cases h <;> cases h' <;> constructor

/-- An outcome without a result is passed on by way of any type of results. -/
theorem Outcome.Passes.exists_between {o : Outcome α} {o'' : Outcome γ} (h : o.Passes o'') :
    ∃ o' : Outcome β, o.Passes o' ∧ o'.Passes o'' := by
  cases h with
  | abrupt c => exact ⟨_, .abrupt c, .abrupt c⟩
  | faulted e => exact ⟨_, .faulted e, .faulted e⟩
  | stopped s => exact ⟨_, .stopped s, .stopped s⟩

namespace Driver

def Task.andThen (f : α → Step σ β) : Task σ α → Task σ β
  | .main s => .main (s.andThen f)
  | .answering s stack base =>
    .answering s stack ⟨base.release, fun answer => (base.resume answer).andThen f⟩

/-- The move on a sequence by the move on its first step. -/
def Move.andThen (limits : Limits σ) (steps : Nat) (f : α → Step σ β) : Move σ α → Move σ β
  | .ended (.finished (.ok a)) w => move limits steps (.main (f a)) w
  | .ended (.finished (.error c)) w => .ended (.finished (.error c)) w
  | .ended (.faulted e) w => .ended (.faulted e) w
  | .ended (.stopped s) w => .ended (.stopped s) w
  | .ended .unfinished w => .ended .unfinished w
  | .resumed task w => .resumed (task.andThen f) w
  | .asked r stack base w =>
    .asked r stack ⟨base.release, fun answer => (base.resume answer).andThen f⟩ w

variable {limits : Limits σ} {handler : Handler σ} {steps : Nat} {task : Task σ α}
  {f : α → Step σ β} {undo : σ → σ} {w w' : σ} {log : List Request} {outcome : Outcome β}

theorem request_andThen (r : Request) (stack : List (Pending σ Value)) (base : Pending σ α) :
    Move.request limits steps r stack
        ⟨base.release, fun answer => (base.resume answer).andThen f⟩ w =
      (Move.request limits steps r stack base w).andThen limits steps f := by
  unfold Move.request
  cases limits.check steps w <;> rfl

theorem move_andThen (limits : Limits σ) (steps : Nat) (task : Task σ α) (f : α → Step σ β)
    (w : σ) :
    move limits steps (task.andThen f) w =
      (move limits steps task w).andThen limits steps f := by
  cases task with
  | main s =>
    simp only [Task.andThen, move, Step.settle_andThen]
    generalize s.settle w = settled
    obtain ⟨front, w₁⟩ := settled
    cases front with
    | finished flow => cases flow <;> rfl
    | faulted e => rfl
    | waiting r release resume => exact request_andThen r [] ⟨release, resume⟩
  | answering s stack base =>
    simp only [Task.andThen, move]
    cases (s.settle w).1 with
    | finished flow => cases stack <;> rfl
    | faulted e => rfl
    | waiting r release resume => exact request_andThen r (⟨release, resume⟩ :: stack) base

/-- At a result of the first step a sequence moves like the second step, and up to then like the
    first one. -/
theorem move_andThen_cases (limits : Limits σ) (steps : Nat) (task : Task σ α) (f : α → Step σ β)
    (w : σ) :
    (∃ a w₁, move limits steps task w = .ended (.finished (.ok a)) w₁ ∧
      move limits steps (task.andThen f) w = move limits steps (.main (f a)) w₁) ∨
    Move.Alike (fun t t' => t' = t.andThen f) (fun e e' => e.1.Passes e'.1 ∧ e'.2 = e.2)
      (move limits steps task w) (move limits steps (task.andThen f) w) := by
  rw [move_andThen]
  cases hm : move limits steps task w with
  | ended first w₁ =>
    cases first with
    | finished flow =>
      cases flow with
      | ok a => exact .inl ⟨a, w₁, rfl, rfl⟩
      | error c => exact .inr (.ended ⟨.abrupt c, rfl⟩)
    | faulted e => exact .inr (.ended ⟨.faulted e, rfl⟩)
    | stopped s => exact .inr (.ended ⟨.stopped s, rfl⟩)
    | unfinished => exact (move_ne_unfinished hm).elim
  | resumed task' w₁ => exact .inr (.resumed w₁ rfl)
  | asked r stack base w₁ => exact .inr (.asked r stack w₁ fun s => rfl)

/-- Without a result of the first step the second one is not run. -/
theorem Runs.andThen_of_passes {first : Outcome α}
    (h : Runs limits handler steps task w log first w') (hp : first.Passes outcome) :
    Runs limits handler steps (task.andThen f) w log outcome w' := by
  induction h with
  | ended h =>
    refine .ended ?_
    rw [move_andThen, h]
    cases hp <;> rfl
  | resumed h _ ih => exact .resumed (by rw [move_andThen, h]; rfl) (ih hp)
  | asked h _ ih => exact .asked (by rw [move_andThen, h]; rfl) (ih hp)

/-- Behind a result of the first step the second one is run, with the requests so far counted. -/
theorem Runs.andThen {a : α} {w₁ : σ} {log₂ : List Request}
    (h : Runs limits handler steps task w log (.finished (.ok a)) w₁)
    (hf : Runs limits handler (steps + log.length) (.main (f a)) w₁ log₂ outcome w') :
    Runs limits handler steps (task.andThen f) w (log ++ log₂) outcome w' := by
  generalize hfirst : Outcome.finished (.ok a) = first at h
  induction h with
  | ended h =>
    cases hfirst
    refine Runs.of_move_eq ?_ hf
    rw [move_andThen, h]
    rfl
  | resumed h _ ih => exact .resumed (by rw [move_andThen, h]; rfl) (ih hf hfirst)
  | @asked steps task w r stack base w₁ log first w₂ h _ ih =>
    refine .asked (by rw [move_andThen, h]; rfl) (ih ?_ hfirst)
    rwa [Nat.add_right_comm]

theorem Runs.of_andThen (h : Runs limits handler steps (task.andThen f) w log outcome w') :
    (∃ first, Runs limits handler steps task w log first w' ∧ first.Passes outcome) ∨
      ∃ a log₁ w₁ log₂, log = log₁ ++ log₂ ∧
        Runs limits handler steps task w log₁ (.finished (.ok a)) w₁ ∧
        Runs limits handler (steps + log₁.length) (.main (f a)) w₁ log₂ outcome w' := by
  generalize htask : task.andThen f = both at h
  induction h generalizing task with
  | @ended steps both w outcome w' h =>
    subst htask
    obtain ⟨a, w₁, hm, hsecond⟩ | hfirst := move_andThen_cases limits steps task f w
    · exact .inr ⟨a, [], w₁, [], rfl, .ended hm, .ended (hsecond ▸ h)⟩
    · rw [h] at hfirst
      generalize hm : move limits steps task w = m at hfirst
      obtain ⟨hp, rfl⟩ := hfirst
      exact .inl ⟨_, .ended hm, hp⟩
  | @resumed steps both w both' w₁ log outcome w' h hrest ih =>
    subst htask
    obtain ⟨a, w₂, hm, hsecond⟩ | hfirst := move_andThen_cases limits steps task f w
    · exact .inr ⟨a, [], w₂, log, rfl, .ended hm, .resumed (hsecond ▸ h) hrest⟩
    · rw [h] at hfirst
      generalize hm : move limits steps task w = m at hfirst
      obtain _ | ⟨_, hnext⟩ := hfirst
      obtain ⟨first, hruns, hp⟩ | ⟨a, log₁, w₂, log₂, rfl, hruns, hsecond⟩ := ih hnext.symm
      · exact .inl ⟨first, .resumed hm hruns, hp⟩
      · exact .inr ⟨a, log₁, w₂, log₂, rfl, .resumed hm hruns, hsecond⟩
  | @asked steps both w r stack base w₁ log outcome w' h hrest ih =>
    subst htask
    obtain ⟨a, w₂, hm, hsecond⟩ | hfirst := move_andThen_cases limits steps task f w
    · exact .inr ⟨a, [], w₂, r :: log, rfl, .ended hm, .asked (hsecond ▸ h) hrest⟩
    · rw [h] at hfirst
      generalize hm : move limits steps task w = m at hfirst
      obtain _ | _ | ⟨_, _, _, hnext⟩ := hfirst
      obtain ⟨first, hruns, hp⟩ | ⟨a, log₁, w₂, log₂, rfl, hruns, hsecond⟩ :=
        ih (hnext (handler r)).symm
      · exact .inl ⟨first, .asked hm hruns, hp⟩
      · refine .inr ⟨a, r :: log₁, w₂, log₂, rfl, .asked hm hruns, ?_⟩
        rwa [List.length_cons, Nat.add_comm log₁.length, ← Nat.add_assoc]

/-- A run of a sequence is a run of the first step that has no result, or one to a result and then
    one of the second step. -/
theorem runs_andThen_iff {s : Step σ β} {f : β → Step σ α} {outcome : Outcome α} :
    Runs limits handler steps (.main (s.andThen f)) w log outcome w' ↔
      (∃ first, Runs limits handler steps (.main s) w log first w' ∧ first.Passes outcome) ∨
        ∃ a log₁ w₁ log₂, log = log₁ ++ log₂ ∧
          Runs limits handler steps (.main s) w log₁ (.finished (.ok a)) w₁ ∧
          Runs limits handler (steps + log₁.length) (.main (f a)) w₁ log₂ outcome w' := by
  constructor
  · intro h
    have hsequence : Runs limits handler steps ((Task.main s).andThen f) w log outcome w' := h
    exact hsequence.of_andThen
  · rintro (⟨first, hfirst, hp⟩ | ⟨a, log₁, w₁, log₂, rfl, hfirst, hsecond⟩)
    · exact hfirst.andThen_of_passes hp
    · exact hfirst.andThen hsecond

/-- A step that asks for nothing is run by taking it to its end. -/
theorem runs_of_finished_iff {s : Step σ β} {flow : Flow β} {w₁ : σ}
    (hs : s.settle w = (.finished flow, w₁)) :
    Runs limits handler steps (.main s) w log outcome w' ↔
      log = [] ∧ outcome = .finished flow ∧ w' = w₁ := by
  have hm : move limits steps (.main s) w = .ended (.finished flow) w₁ := by
    rw [move, hs]
    rfl
  constructor
  · intro h
    cases h with
    | ended h =>
      rw [hm] at h
      cases h
      exact ⟨rfl, rfl, rfl⟩
    | resumed h _ =>
      rw [hm] at h
      cases h
    | asked h _ =>
      rw [hm] at h
      cases h
  · rintro ⟨rfl, rfl, rfl⟩
    exact .ended hm

end Driver

/-! ## Runs of a step that releases something -/

/-- What a step undoes at its end is undone in the state that the run leaves. Only when there is a
    fault in the answer to a request, the step may still be suspended. -/
def Outcome.Undone (undo : σ → σ) : Outcome α → σ → σ → Prop
  | .faulted _, w, w' => w' = undo w ∨ w' = w
  | _, w, w' => w' = undo w

namespace Driver

def Task.releasing (undo : σ → σ) : Task σ α → Task σ α
  | .main s => .main (s.releasing undo)
  | .answering s stack base =>
    .answering s stack ⟨undo ∘ base.release, fun answer => (base.resume answer).releasing undo⟩

/-- A step that releases something moves like the step itself. -/
theorem move_releasing (limits : Limits σ) (steps : Nat) (task : Task σ α) (undo : σ → σ) (w : σ) :
    Move.Alike (fun t t' => t' = t.releasing undo)
      (fun e e' => e'.1 = e.1 ∧ e.1.Undone undo e.2 e'.2)
      (move limits steps task w) (move limits steps (task.releasing undo) w) := by
  have hrequest (r : Request) (stack : List (Pending σ Value)) (base : Pending σ α) (w : σ) :
      Move.Alike (fun t t' => t' = t.releasing undo)
        (fun e e' => e'.1 = e.1 ∧ e.1.Undone undo e.2 e'.2)
        (Move.request limits steps r stack base w)
        (Move.request limits steps r stack
          ⟨undo ∘ base.release, fun answer => (base.resume answer).releasing undo⟩ w) := by
    unfold Move.request
    cases limits.check steps w with
    | none => exact .asked r stack w fun s => rfl
    | some stop => exact .ended ⟨rfl, rfl⟩
  cases task with
  | main s =>
    simp only [Task.releasing, move, Step.settle_releasing]
    generalize s.settle w = settled
    obtain ⟨front, w₁⟩ := settled
    cases front with
    | finished flow => exact .ended ⟨rfl, rfl⟩
    | faulted e => exact .ended ⟨rfl, .inl rfl⟩
    | waiting r release resume => exact hrequest r [] ⟨release, resume⟩ w₁
  | answering s stack base =>
    simp only [Task.releasing, move]
    cases (s.settle w).1 with
    | finished flow =>
      cases stack with
      | nil => exact .resumed _ rfl
      | cons p rest => exact .resumed _ rfl
    | faulted e => exact .ended ⟨rfl, .inr rfl⟩
    | waiting r release resume => exact hrequest r (⟨release, resume⟩ :: stack) base _

variable {limits : Limits σ} {handler : Handler σ} {steps : Nat} {task : Task σ α}
  {undo : σ → σ} {w w' : σ} {log : List Request} {outcome : Outcome α}

theorem Runs.releasing (undo : σ → σ) (h : Runs limits handler steps task w log outcome w') :
    ∃ w₁, Runs limits handler steps (task.releasing undo) w log outcome w₁ ∧
      outcome.Undone undo w' w₁ := by
  obtain ⟨_, w₁, hruns, rfl, hundone⟩ := h.of_alike (R := fun t t' => t' = t.releasing undo)
    (fun {t _} ht steps w => by rw [ht]; exact move_releasing limits steps t undo w) rfl
  exact ⟨w₁, hruns, hundone⟩

theorem Runs.of_releasing
    (h : Runs limits handler steps (task.releasing undo) w log outcome w') :
    ∃ w₁, Runs limits handler steps task w log outcome w₁ ∧ outcome.Undone undo w₁ w' := by
  obtain ⟨o, w₁, hruns, ho, hundone⟩ := h.of_alike (R := fun t' t => t' = t.releasing undo)
    (fun {_ t} ht steps w => by rw [ht]; exact (move_releasing limits steps t undo w).flip) rfl
  cases ho
  exact ⟨w₁, hruns, hundone⟩

end Driver

end ScriptSandbox
