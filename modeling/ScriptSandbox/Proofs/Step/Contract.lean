import ScriptSandbox.Step.Basic

/-
  Contracts of steps.

  A step that waits is not alone: other steps run meanwhile, and the host may act. A contract says
  how the state may change in the long run, by the step itself and by everybody else, which requests
  may be made, and which answers may come back. `s.Meets c post w` says that `s`, run from `w`,
  keeps to the contract with every change it makes, at every request and after every admissible
  answer, and that each outcome satisfies `post`. `meets_settle` reads that off for the front of the
  step; the other lemmas are the rules by which the contract of a computation follows from those of
  its parts (`Meets.andThen`, `Meets.onFlow`, `Meets.releasing`, `Meets.untilRequest`).
-/

namespace ScriptSandbox

/-- What a step over `σ` owes to others and may expect from them. -/
structure Contract (σ : Type) where
  /-- How a state may change, in one go or over time. -/
  evolves : σ → σ → Prop
  refl : ∀ w, evolves w w
  trans : ∀ {u v w}, evolves u v → evolves v w → evolves u w
  /-- The requests that may be made in a state. -/
  asks : Request → σ → Prop
  asks_stable : ∀ {r w w'}, evolves w w' → asks r w → asks r w'
  /-- The answers that a request may get in a state. -/
  answers : Request → Flow Value → σ → Prop

/-- A condition on outcomes that no later change of the state takes back. -/
def Contract.Stable {σ α : Type} (c : Contract σ) (P : Flow α → σ → Prop) : Prop :=
  ∀ {flow w w'}, c.evolves w w' → P flow w → P flow w'

namespace Step

variable {σ α β : Type} {c : Contract σ} {P : Flow α → σ → Prop} {Q : Flow β → σ → Prop}

/-- The step keeps to the contract from the state on, with outcomes in `post`. -/
def Meets (c : Contract σ) (post : Flow α → σ → Prop) : Step σ α → σ → Prop
  | .done flow, w => post flow w
  | .fault _, _ => True
  | .inspect next, w => Meets c post (next w) w
  | .modify change next, w => c.evolves w (change w) ∧ Meets c post next (change w)
  | .ask r release resume, w =>
    c.asks r w ∧ (∀ w', c.evolves w w' → c.evolves w' (release w')) ∧
      ∀ answer w', c.evolves w w' → c.answers r answer w' → Meets c post (resume answer) w'

/-- What the contract says about a step that has come to its front. -/
def Front.Meets (c : Contract σ) (post : Flow α → σ → Prop) : Front σ α → σ → Prop
  | .finished flow, w => post flow w
  | .faulted _, _ => True
  | .waiting r release resume, w => Step.Meets c post (.ask r release resume) w

theorem meets_settle {s : Step σ α} {w : σ} (h : s.Meets c P w) :
    c.evolves w (s.settle w).2 ∧ (s.settle w).1.Meets c P (s.settle w).2 := by
  induction s generalizing w with
  | done flow => exact ⟨c.refl w, h⟩
  | fault e => exact ⟨c.refl w, trivial⟩
  | inspect next ih => exact ih w h
  | modify change next ih =>
    obtain ⟨h1, h2⟩ := ih h.2
    exact ⟨c.trans h.1 h1, h2⟩
  | ask r release resume ih => exact ⟨c.refl w, h⟩

/-- What is true of a front stays true while others go on. -/
theorem Front.Meets.later {f : Front σ α} {w w' : σ} (hp : c.Stable P) (he : c.evolves w w')
    (h : f.Meets c P w) : f.Meets c P w' := by
  cases f with
  | finished flow => exact hp he h
  | faulted e => trivial
  | waiting r release resume =>
    exact ⟨c.asks_stable he h.1, fun w'' hw => h.2.1 w'' (c.trans he hw),
      fun answer w'' hw => h.2.2 answer w'' (c.trans he hw)⟩

/-! ## Rules -/

theorem Meets.onFlow {s : Step σ α} {f : Flow α → Step σ β} {w : σ} (h : s.Meets c P w)
    (hf : ∀ flow w', c.evolves w w' → P flow w' → (f flow).Meets c Q w') :
    (s.onFlow f).Meets c Q w := by
  induction s generalizing w with
  | done flow => exact hf flow w (c.refl w) h
  | fault e => trivial
  | inspect next ih => exact ih w h hf
  | modify change next ih =>
    exact ⟨h.1, ih h.2 fun flow w' he => hf flow w' (c.trans h.1 he)⟩
  | ask r release resume ih =>
    refine ⟨h.1, h.2.1, fun answer w' he ha => ?_⟩
    exact ih answer (h.2.2 answer w' he ha) fun flow w'' he' => hf flow w'' (c.trans he he')

/-- `andThen` is `onFlow` with completions passed on. -/
theorem andThen_eq_onFlow (s : Step σ α) (f : α → Step σ β) :
    s.andThen f = s.onFlow fun
      | .ok a => f a
      | .error e => .done (.error e) := by
  induction s with
  | done flow => cases flow <;> rfl
  | fault e => rfl
  | inspect next ih => simp only [andThen, Step.onFlow, ih]
  | modify change next ih => simp only [andThen, Step.onFlow, ih]
  | ask r release resume ih => simp only [andThen, Step.onFlow, ih]

theorem Meets.andThen {s : Step σ α} {f : α → Step σ β} {w : σ} (h : s.Meets c P w)
    (hf : ∀ a w', c.evolves w w' → P (.ok a) w' → (f a).Meets c Q w')
    (he : ∀ e w', c.evolves w w' → P (.error e) w' → Q (.error e) w') :
    (s.andThen f).Meets c Q w := by
  rw [andThen_eq_onFlow]
  refine h.onFlow ?_
  intro flow w' hw hp
  cases flow with
  | ok a => exact hf a w' hw hp
  | error e => exact he e w' hw hp

theorem Meets.releasing {s : Step σ α} {undo : σ → σ} {w : σ} (h : s.Meets c P w)
    (hp : c.Stable P) (hu : ∀ w', c.evolves w w' → c.evolves w' (undo w')) :
    (s.releasing undo).Meets c P w := by
  induction s generalizing w with
  | done flow => exact ⟨hu w (c.refl w), hp (hu w (c.refl w)) h⟩
  | fault e => exact ⟨hu w (c.refl w), trivial⟩
  | inspect next ih => exact ih w h hu
  | modify change next ih => exact ⟨h.1, ih h.2 fun w' he => hu w' (c.trans h.1 he)⟩
  | ask r release resume ih =>
    refine ⟨h.1, fun w' he => ?_, fun answer w' he ha => ?_⟩
    · have hr := h.2.1 w' he
      exact c.trans hr (hu _ (c.trans he hr))
    · exact ih answer (h.2.2 answer w' he ha) fun w'' he' => hu w'' (c.trans he he')

theorem Meets.untilRequest {s : Step σ α} {undo : σ → σ} {w : σ} (h : s.Meets c P w)
    (hp : c.Stable P) (hu : ∀ w', c.evolves w w' → c.evolves w' (undo w')) :
    (s.untilRequest undo).Meets c P w := by
  induction s generalizing w with
  | done flow => exact ⟨hu w (c.refl w), hp (hu w (c.refl w)) h⟩
  | fault e => exact ⟨hu w (c.refl w), trivial⟩
  | inspect next ih => exact ih w h hu
  | modify change next ih => exact ⟨h.1, ih h.2 fun w' he => hu w' (c.trans h.1 he)⟩
  | ask r release resume ih =>
    have hw := hu w (c.refl w)
    exact ⟨hw, Front.Meets.later (f := .waiting r release resume) hp hw h⟩

/-! ## Single nodes -/

theorem bind_eq_andThen (s : Step σ α) (f : α → Step σ β) : s >>= f = s.andThen f := rfl

theorem settle_compute (f : σ → α × σ) (w : σ) :
    (compute f).settle w = (.finished (.ok (f w).1), (f w).2) := rfl

theorem meets_ready {a : α} {w : σ} (h : P (.ok a) w) : (ready a : Step σ α).Meets c P w := h

theorem meets_read_bind {f : σ → β} {k : β → Step σ α} {w : σ} (h : (k (f w)).Meets c P w) :
    (read f >>= k).Meets c P w := h

/-- Behind a checkpoint a computation goes on in any state that has come about meanwhile; an abrupt
    answer is its outcome. -/
theorem meets_checkpoint_bind {k : Unit → Step σ α} {w : σ} (hq : c.asks .checkpoint w)
    (hk : ∀ w', c.evolves w w' → (k ()).Meets c P w')
    (he : ∀ e w', c.evolves w w' → c.answers .checkpoint (.error e) w' → P (.error e) w') :
    (checkpoint >>= k).Meets c P w := by
  refine ⟨hq, fun w' _ => c.refl w', fun answer w' hw ha => ?_⟩
  cases answer with
  | ok v => exact hk w' hw
  | error e => exact he e w' hw ha

theorem meets_request {r : Request} {P : Flow Value → σ → Prop} {w : σ} (hq : c.asks r w)
    (h : ∀ answer w', c.evolves w w' → c.answers r answer w' → P answer w') :
    (request r).Meets c P w :=
  ⟨hq, fun w' _ => c.refl w', h⟩

end Step

end ScriptSandbox
