import ScriptSandbox.Step.Basic

/-
  Guarantees of steps.

  `s.Makes R w` says that every change that `s` makes is in `R`, from `w` up to its first request
  and, behind each request, from whatever state it is resumed in. Unlike a contract it relies on
  nothing: others may do what they like while the step waits. The rules say how the changes of a
  computation follow from those of its parts, and `makes_settle` reads them off at the front.
-/

namespace ScriptSandbox.Step

variable {σ α β : Type} {R : σ → σ → Prop} {w : σ}

/-- Every change that the step makes is in the relation, whatever happens while it waits. -/
def Makes (R : σ → σ → Prop) : Step σ α → σ → Prop
  | .done _, _ => True
  | .fault _, _ => True
  | .inspect next, w => Makes R (next w) w
  | .modify change next, w => R w (change w) ∧ Makes R next (change w)
  | .ask _ release resume, _ =>
    (∀ w', R w' (release w')) ∧ ∀ answer w', Makes R (resume answer) w'

/-- What is left to do at a front makes no other changes either. -/
def Front.Makes (R : σ → σ → Prop) : Front σ α → Prop
  | .finished _ | .faulted _ => True
  | .waiting _ release resume =>
    (∀ w, R w (release w)) ∧ ∀ answer w, Step.Makes R (resume answer) w

theorem makes_settle (refl : ∀ w, R w w) (trans : ∀ {u v w}, R u v → R v w → R u w)
    {s : Step σ α} (h : s.Makes R w) : R w (s.settle w).2 ∧ (s.settle w).1.Makes R := by
  induction s generalizing w with
  | done flow => exact ⟨refl w, trivial⟩
  | fault e => exact ⟨refl w, trivial⟩
  | inspect next ih => exact ih w h
  | modify change next ih =>
    obtain ⟨hrest, hfront⟩ := ih h.2
    exact ⟨trans h.1 hrest, hfront⟩
  | ask r release resume ih => exact ⟨refl w, h⟩

theorem Makes.mono {R' : σ → σ → Prop} (hR : ∀ {u v}, R u v → R' u v) {s : Step σ α}
    (h : s.Makes R w) : s.Makes R' w := by
  induction s generalizing w with
  | done flow => trivial
  | fault e => trivial
  | inspect next ih => exact ih w h
  | modify change next ih => exact ⟨hR h.1, ih h.2⟩
  | ask r release resume ih =>
    exact ⟨fun w' => hR (h.1 w'), fun answer w' => ih answer (h.2 answer w')⟩

/-! ## Rules -/

theorem makes_compute {f : σ → α × σ} (h : R w (f w).2) : (compute f).Makes R w := ⟨h, trivial⟩

theorem makes_compute_andThen {f : σ → β × σ} {k : β → Step σ α} (h : R w (f w).2)
    (hk : (k (f w).1).Makes R (f w).2) : ((compute f).andThen k).Makes R w := ⟨h, hk⟩

theorem makes_checkpoint_bind (refl : ∀ w, R w w) {k : Unit → Step σ α}
    (hk : ∀ w', (k ()).Makes R w') : (checkpoint >>= k).Makes R w := by
  refine ⟨refl, fun answer w' => ?_⟩
  cases answer with
  | ok v => exact hk w'
  | error c => trivial

theorem Makes.andThen {s : Step σ α} {f : α → Step σ β} (h : s.Makes R w)
    (hf : ∀ a w', (f a).Makes R w') : (s.andThen f).Makes R w := by
  induction s generalizing w with
  | done flow =>
    cases flow with
    | ok a => exact hf a w
    | error c => trivial
  | fault e => trivial
  | inspect next ih => exact ih w h
  | modify change next ih => exact ⟨h.1, ih h.2⟩
  | ask r release resume ih => exact ⟨h.1, fun answer w' => ih answer (h.2 answer w')⟩

theorem Makes.releasing (trans : ∀ {u v w}, R u v → R v w → R u w) {undo : σ → σ}
    (hu : ∀ w', R w' (undo w')) {s : Step σ α} (h : s.Makes R w) :
    (s.releasing undo).Makes R w := by
  induction s generalizing w with
  | done flow => exact ⟨hu w, trivial⟩
  | fault e => exact ⟨hu w, trivial⟩
  | inspect next ih => exact ih w h
  | modify change next ih => exact ⟨h.1, ih h.2⟩
  | ask r release resume ih =>
    exact ⟨fun w' => trans (h.1 w') (hu _), fun answer w' => ih answer (h.2 answer w')⟩

theorem Makes.untilRequest {undo : σ → σ} (hu : ∀ w', R w' (undo w')) {s : Step σ α}
    (h : s.Makes R w) : (s.untilRequest undo).Makes R w := by
  induction s generalizing w with
  | done flow => exact ⟨hu w, trivial⟩
  | fault e => exact ⟨hu w, trivial⟩
  | inspect next ih => exact ih w h
  | modify change next ih => exact ⟨h.1, ih h.2⟩
  | ask r release resume ih => exact ⟨hu w, h⟩

end ScriptSandbox.Step
