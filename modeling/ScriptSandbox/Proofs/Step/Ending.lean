import ScriptSandbox.Proofs.Step.Dialogue
import ScriptSandbox.Proofs.Step.Guarantee

/-
  Evaluations that end.

  `Ends` says that an evaluation comes to its end. To run out of the arrays that are reserved for a
  join is no end of its own: it counts only where `spent` holds, and whoever uses `Ends` says when
  that is. A sequence ends if its parts do, and only then (`ends_andThen_iff`). Behind a handler
  that answers, a step with a bound on its requests ends (`AsksAtMost.ends`), and so does one that
  breaks off for want of arrays only where `spent` holds, whatever it is resumed in that the handler
  may leave (`Lasts.ends`). The run of an evaluation that ends terminates (`Ends.terminates`).
-/

namespace ScriptSandbox

namespace Driver

/-- The step, evaluated by recursion on its requests, comes to a flow or a fault. For want of arrays
    it breaks off only in states that are `spent`. -/
inductive Ends {σ : Type} (spent : σ → Prop) (handler : Handler σ) :
    {α : Type} → Step σ α → σ → Prop
  | finished {α s w flow w'} (h : s.settle w = (.finished flow, w')) :
    Ends spent handler (α := α) s w
  | faulted {α s w e w'} (h : s.settle w = (.faulted e, w')) (he : e = .endlessJoin → spent w') :
    Ends spent handler (α := α) s w
  | suspended {α s w r release resume w₁}
    (h : s.settle w = (.waiting r release resume, w₁))
    (answered : Ends spent handler (handler r) w₁)
    (continued : ∀ {log answer w₂}, Evaluates handler (handler r) w₁ log answer w₂ →
      Ends spent handler (resume answer) w₂) :
    Ends spent handler (α := α) s w

variable {σ α β : Type} {spent : σ → Prop} {handler : Handler σ} {limits : Limits σ} {w : σ}

/-! ## Sequences -/

theorem Ends.congr {s s' : Step σ α} {w₁ : σ} (hs : Ends spent handler s' w₁)
    (h : s.settle w = s'.settle w₁) : Ends spent handler s w := by
  cases hs with
  | finished hs => exact .finished (h.trans hs)
  | faulted hs he => exact .faulted (h.trans hs) he
  | suspended hs answered continued => exact .suspended (h.trans hs) answered continued

theorem ends_congr {s t : Step σ α} {w₁ : σ} (h : s.settle w = t.settle w₁) :
    Ends spent handler s w ↔ Ends spent handler t w₁ :=
  ⟨fun hs => hs.congr h.symm, fun hs => hs.congr h⟩

theorem Evaluates.congr {s s' : Step σ α} {w₁ w' : σ} {log : List Request} {flow : Flow α}
    (hs : Evaluates handler s' w₁ log flow w') (h : s.settle w = s'.settle w₁) :
    Evaluates handler s w log flow w' := by
  cases hs with
  | ready hs => exact .ready (h.trans hs)
  | suspended hs answered continued => exact .suspended (h.trans hs) answered continued

/-- A fault is an end, but for the one that needs a spent state. -/
theorem ends_fault_iff {e : Fault} :
    Ends spent handler (.fault e : Step σ α) w ↔ (e = .endlessJoin → spent w) := by
  refine ⟨fun h => ?_, fun he => .faulted rfl he⟩
  cases h with
  | faulted hs he =>
    cases hs
    exact he
  | finished hs => cases hs
  | suspended hs => cases hs

theorem ends_ask_iff {r : Request} {release : σ → σ} {resume : Flow Value → Step σ α} :
    Ends spent handler (.ask r release resume) w ↔
      Ends spent handler (handler r) w ∧ ∀ {log answer w'},
        Evaluates handler (handler r) w log answer w' →
          Ends spent handler (resume answer) w' := by
  constructor
  · intro h
    cases h with
    | finished hs => cases hs
    | faulted hs => cases hs
    | suspended hs answered continued =>
      cases hs
      exact ⟨answered, continued⟩
  · rintro ⟨answered, continued⟩
    exact .suspended rfl answered continued

/-- A sequence ends just when its first step does and the second one does behind every result. -/
theorem ends_andThen_iff {s : Step σ α} {f : α → Step σ β} :
    Ends spent handler (s.andThen f) w ↔
      Ends spent handler s w ∧ ∀ {log a w'}, Evaluates handler s w log (.ok a) w' →
        Ends spent handler (f a) w' := by
  induction s generalizing w with
  | done flow =>
    refine ⟨fun h => ⟨.finished rfl, fun {log a w'} heval => ?_⟩, fun ⟨_, h⟩ => ?_⟩
    · cases heval with
      | ready hs =>
        cases hs
        exact h
      | suspended hs => cases hs
    · cases flow with
      | ok a => exact h (.ready rfl)
      | error c => exact .finished rfl
  | fault e =>
    have hfault : Ends spent handler ((Step.fault e).andThen f) w ↔
        Ends spent handler (.fault e : Step σ α) w := ends_fault_iff.trans ends_fault_iff.symm
    refine hfault.trans (iff_self_and.mpr fun _ {log a w'} heval => ?_)
    cases heval with
    | ready hs => cases hs
    | suspended hs => cases hs
  | inspect next ih =>
    have hlook : Ends spent handler ((Step.inspect next).andThen f) w ↔
        Ends spent handler ((next w).andThen f) w := ends_congr rfl
    rw [hlook, ih w, ends_congr (s := .inspect next) (t := next w) rfl]
    exact and_congr_right fun _ => ⟨fun h _ _ _ heval => h (heval.congr rfl),
      fun h _ _ _ heval => h (heval.congr rfl)⟩
  | modify change next ih =>
    have hchange : Ends spent handler ((Step.modify change next).andThen f) w ↔
        Ends spent handler (next.andThen f) (change w) := ends_congr rfl
    rw [hchange, ih, ends_congr (s := .modify change next) (t := next) rfl]
    exact and_congr_right fun _ => ⟨fun h _ _ _ heval => h (heval.congr rfl),
      fun h _ _ _ heval => h (heval.congr rfl)⟩
  | ask r release resume ih =>
    have hask : Ends spent handler ((Step.ask r release resume).andThen f) w ↔
        Ends spent handler (.ask r release fun answer => (resume answer).andThen f) w := Iff.rfl
    rw [hask, ends_ask_iff, ends_ask_iff]
    constructor
    · rintro ⟨hanswers, hrest⟩
      refine ⟨⟨hanswers, fun h => ((ih _).mp (hrest h)).1⟩, fun {log a w'} heval => ?_⟩
      cases heval with
      | ready hs => cases hs
      | suspended hs answered continued =>
        cases hs
        exact ((ih _).mp (hrest answered)).2 continued
    · rintro ⟨⟨hanswers, hresume⟩, hrest⟩
      exact ⟨hanswers, fun h => (ih _).mpr ⟨hresume h, fun hc => hrest (.suspended rfl h hc)⟩⟩

end Driver

open Driver (Ends Evaluates)

/-- Every request is answered, or at least its evaluation ends. -/
def Handler.Answers {σ : Type} (handler : Handler σ) (spent : σ → Prop) : Prop :=
  ∀ r w, Ends spent handler (handler r) w

namespace Step

variable {σ α β : Type} {spent inv inv' : σ → Prop} {rely R : σ → σ → Prop} {handler : Handler σ}
  {w : σ}

/-! ## Bounded steps -/

/-- A step that asks nothing ends under every handler. -/
theorem AsksAtMost.ends_zero {s : Step σ α} (h : s.AsksAtMost 0) : Ends spent handler s w := by
  induction s generalizing w with
  | done flow => exact .finished rfl
  | fault e => exact .faulted rfl fun he => absurd he h
  | inspect next ih => exact (ih w (h w)).congr rfl
  | modify change next ih => exact (ih h).congr rfl
  | ask r release resume ih =>
    obtain ⟨m, hm, -⟩ := h
    cases hm

/-- What asks nothing does not matter behind a step. -/
theorem ends_andThen_iff_left {s : Step σ α} {f : α → Step σ β} (hf : ∀ a, (f a).AsksAtMost 0) :
    Ends spent handler (s.andThen f) w ↔ Ends spent handler s w :=
  Driver.ends_andThen_iff.trans (and_iff_left fun _ => (hf _).ends_zero)

/-- Behind a handler that answers, a step that asks so often ends. -/
theorem AsksAtMost.ends {n : Nat} {s : Step σ α} (h : s.AsksAtMost n)
    (ha : handler.Answers spent) (w : σ) : Ends spent handler s w := by
  induction s generalizing n w with
  | done flow => exact .finished rfl
  | fault e => exact .faulted rfl fun he => absurd he h
  | inspect next ih => exact (ih w (h w) w).congr rfl
  | modify change next ih => exact (ih h (change w)).congr rfl
  | ask r release resume ih =>
    obtain ⟨m, -, hm⟩ := h
    exact .suspended rfl (ha r w) fun {_ answer w'} _ => ih answer (hm answer) w'

/-! ## Steps in an environment -/

/-- In an environment that changes the state at most by `rely` while the step waits, the invariant
    holds at the end, and for want of arrays the step breaks off only in `spent` states. -/
def Lasts (rely : σ → σ → Prop) (inv spent : σ → Prop) : Step σ α → σ → Prop
  | .done _, w => inv w
  | .fault e, w => e = .endlessJoin → spent w
  | .inspect next, w => Lasts rely inv spent (next w) w
  | .modify change next, w => Lasts rely inv spent next (change w)
  | .ask _ _ resume, w => ∀ answer w', rely w w' → Lasts rely inv spent (resume answer) w'

theorem Lasts.andThen {s : Step σ α} {f : α → Step σ β} (h : s.Lasts rely inv spent w)
    (hf : ∀ a w', inv w' → (f a).Lasts rely inv spent w') :
    (s.andThen f).Lasts rely inv spent w := by
  induction s generalizing w with
  | done flow =>
    cases flow with
    | ok a => exact hf a w h
    | error c => exact h
  | fault e => exact h
  | inspect next ih => exact ih w h
  | modify change next ih => exact ih h
  | ask r release resume ih => exact fun answer w' hw => ih answer (h answer w' hw)

theorem Lasts.releasing {undo : σ → σ} (hu : ∀ w', inv w' → inv' (undo w'))
    (hs : ∀ w', spent w' → spent (undo w')) {s : Step σ α} (h : s.Lasts rely inv spent w) :
    (s.releasing undo).Lasts rely inv' spent w := by
  induction s generalizing w with
  | done flow => exact hu w h
  | fault e => exact fun he => hs w (h he)
  | inspect next ih => exact ih w h
  | modify change next ih => exact ih h
  | ask r release resume ih => exact fun answer w' hw => ih answer (h answer w' hw)

theorem Lasts.untilRequest {undo : σ → σ} (hu : ∀ w', inv w' → inv (undo w'))
    (hs : ∀ w', spent w' → spent (undo w')) (hr : ∀ w' w'', rely (undo w') w'' → rely w' w'')
    {s : Step σ α} (h : s.Lasts rely inv spent w) :
    (s.untilRequest undo).Lasts rely inv spent w := by
  induction s generalizing w with
  | done flow => exact hu w h
  | fault e => exact fun he => hs w (h he)
  | inspect next ih => exact ih w h
  | modify change next ih => exact ih h
  | ask r release resume ih => exact fun answer w' hw => h answer w' (hr w w' hw)

/-- A bounded step lasts if the invariant survives what it does and what the environment does. -/
theorem AsksAtMost.lasts {n : Nat} {s : Step σ α} (h : s.AsksAtMost n) (hm : s.Makes R w)
    (hR : ∀ u v, R u v → inv u → inv v) (hr : ∀ u v, rely u v → inv u → inv v) (hw : inv w) :
    s.Lasts rely inv spent w := by
  induction s generalizing n w with
  | done flow => exact hw
  | fault e => exact fun he => absurd he h
  | inspect next ih => exact ih w (h w) hm hw
  | modify change next ih => exact ih h hm.2 (hR _ _ hm.1 hw)
  | ask r release resume ih =>
    obtain ⟨m, -, hn⟩ := h
    exact fun answer w' hrely => ih answer (hn answer) (hm.2 answer w') (hr w w' hrely hw)

/-- Such a step ends if the handler answers and changes the state at most as it may. -/
theorem Lasts.ends {s : Step σ α} (h : s.Lasts rely inv spent w) (ha : handler.Answers spent)
    (hr : ∀ r u log answer u', Evaluates handler (handler r) u log answer u' → rely u u') :
    Ends spent handler s w := by
  induction s generalizing w with
  | done flow => exact .finished rfl
  | fault e => exact .faulted rfl h
  | inspect next ih => exact (ih w h).congr rfl
  | modify change next ih => exact (ih h).congr rfl
  | ask r release resume ih =>
    exact .suspended rfl (ha r w) fun {_ answer w'} heval =>
      ih answer (h answer w' (hr _ _ _ _ _ heval))

end Step

namespace Driver

variable {σ α β : Type} {spent : σ → Prop} {handler : Handler σ} {limits : Limits σ} {w : σ}

/-! ## Runs of the driver -/

/-- Under any limits the work at a place comes to an outcome when the evaluation of the step ends
    and the work goes on to an outcome from every flow that the step may come to. -/
theorem Ends.exists_runs {s : Step σ β} (h : Ends spent handler s w) (steps : Nat)
    (place : Place σ α β)
    (hrest : ∀ {log flow w'}, Evaluates handler s w log flow w' → ∀ steps,
      ∃ log outcome w'', Runs limits handler steps (place.task (.done flow)) w' log outcome w'' ∧
        (outcome = .faulted .endlessJoin → spent w'')) :
    ∃ log outcome w', Runs limits handler steps (place.task s) w log outcome w' ∧
      (outcome = .faulted .endlessJoin → spent w') := by
  induction h generalizing α steps with
  | @finished _ s w flow w' h =>
    obtain ⟨log, outcome, w'', hruns, hspent⟩ := hrest (.ready h) steps
    refine ⟨log, outcome, w'', hruns.of_move_eq ?_, hspent⟩
    rw [move_task, move_task, h]
    rfl
  | @faulted _ s w e w' h he =>
    refine ⟨[], .faulted e, w', .ended ?_, fun hout => he (by cases hout; rfl)⟩
    rw [move_task, h]
    rfl
  | @suspended _ s w r release resume w₁ h _ _ ihanswer ihresume =>
    have hmove : move limits steps (place.task s) w = .request limits steps r
        (place.suspend ⟨release, resume⟩).1 (place.suspend ⟨release, resume⟩).2 w₁ := by
      rw [move_task, h]
      rfl
    cases hcheck : limits.check steps w₁ with
    | some stop =>
      simp only [Move.request, hcheck] at hmove
      exact ⟨[], .stopped stop, _, .ended hmove, fun hout => by cases hout⟩
    | none =>
      simp only [Move.request, hcheck] at hmove
      -- the handler is at work with the step on the stack, and the step goes on with its answer
      obtain ⟨log, outcome, w', hruns, hspent⟩ := ihanswer (steps + 1)
        (.answering (place.suspend ⟨release, resume⟩).1 (place.suspend ⟨release, resume⟩).2)
        fun {log₁ answer w₂} hanswer steps' => by
          obtain ⟨log, outcome, w', hruns, hspent⟩ := ihresume hanswer steps' place
            fun hflow => hrest (.suspended h hanswer hflow)
          have hresumed : move limits steps' ((Place.answering (place.suspend ⟨release, resume⟩).1
              (place.suspend ⟨release, resume⟩).2).task (.done answer)) w₂ =
                .resumed (place.task (resume answer)) w₂ := by
            rw [move_task, ← Place.unwound_suspend place ⟨release, resume⟩ answer]
            rfl
          exact ⟨log, outcome, w', .resumed hresumed hruns, hspent⟩
      exact ⟨r :: log, outcome, w', .asked hmove hruns, hspent⟩

/-- The driver comes to an outcome, and for want of arrays only in a spent state. -/
def Terminates (spent : σ → Prop) (limits : Limits σ) (handler : Handler σ) (s : Step σ α) (w : σ) :
    Prop :=
  ∃ fuel, (runWithin fuel limits handler s w).1 ≠ .unfinished ∧
    ((runWithin fuel limits handler s w).1 = .faulted .endlessJoin →
      spent (runWithin fuel limits handler s w).2)

/-- The run of an evaluation that ends terminates under any limits. -/
theorem Ends.terminates {s : Step σ α} (h : Ends spent handler s w) (limits : Limits σ) :
    Terminates spent limits handler s w := by
  have hend {log : List Request} {flow : Flow α} {w' : σ} (_ : Evaluates handler s w log flow w')
      (steps : Nat) : ∃ log outcome w'',
        Runs limits handler steps (Place.main.task (.done flow)) w' log outcome w'' ∧
          (outcome = .faulted .endlessJoin → spent w'') :=
    ⟨[], .finished flow, w', .ended (by rw [move_task]; rfl), fun hout => by cases hout⟩
  obtain ⟨log, outcome, w', hruns, hspent⟩ := h.exists_runs 0 .main hend
  refine ⟨log.length, ?_⟩
  rw [(hruns.runWithin_eq (Nat.le_refl log.length)).1]
  exact ⟨hruns.ne_unfinished, hspent⟩

end Driver

end ScriptSandbox
