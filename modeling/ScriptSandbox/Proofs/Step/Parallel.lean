import ScriptSandbox.Proofs.Step.Contract
import ScriptSandbox.Proofs.Step.Suspension

/-
  Two steps side by side.

  `Agree c lost s t w` compares two steps, each in its own component of the pair `w`. They make the
  same requests and come to the same outcomes, however each request is answered, as long as both get
  the same answer and no pair of states is `lost` where the steps come to their next fronts. How the
  pair of states may change meanwhile is up to a contract over pairs, of which only the evolution
  counts here. `agree_settle` reads off the fronts; the other lemmas are the rules, in the order of
  those for contracts. What follows in the same stretch must not make up for a loss: either there is
  none (`Agree.bind`), or it does at most what leaves a lost pair lost (`Agree.bind_quiet`).
-/

namespace ScriptSandbox.Step

variable {σ α β : Type} {c : Contract (σ × σ)} {lost : σ × σ → Prop} {R : σ → σ → Prop}

/-- The two steps cannot be told apart by requests and outcomes, unless the states get lost. -/
def Agree (c : Contract (σ × σ)) (lost : σ × σ → Prop) : Step σ α → Step σ α → σ × σ → Prop
  | .done f, .done g, _ => f = g
  | .fault e, .fault f, _ => e = f
  | .inspect next, .inspect next', w => Agree c lost (next w.1) (next' w.2) w
  | .modify change next, .modify change' next', w =>
    lost ((next.settle (change w.1)).2, (next'.settle (change' w.2)).2) ∨
      c.evolves w (change w.1, change' w.2) ∧ Agree c lost next next' (change w.1, change' w.2)
  | .ask r release resume, .ask r' release' resume', w =>
    r = r' ∧ (∀ w', c.evolves w w' → c.evolves w' (release w'.1, release' w'.2)) ∧
      ∀ answer w', c.evolves w w' → Agree c lost (resume answer) (resume' answer) w'
  | _, _, _ => False

/-- What `Agree` says about steps that have come to their fronts. -/
def Front.Agree (c : Contract (σ × σ)) (lost : σ × σ → Prop) :
    Front σ α → Front σ α → σ × σ → Prop
  | .finished f, .finished g, _ => f = g
  | .faulted e, .faulted f, _ => e = f
  | .waiting r release resume, .waiting r' release' resume', w =>
    Step.Agree c lost (.ask r release resume) (.ask r' release' resume') w
  | _, _, _ => False

theorem agree_settle {s t : Step σ α} {w : σ × σ} (h : Agree c lost s t w) :
    lost ((s.settle w.1).2, (t.settle w.2).2) ∨
      c.evolves w ((s.settle w.1).2, (t.settle w.2).2) ∧
        (s.settle w.1).1.Agree c lost (t.settle w.2).1 ((s.settle w.1).2, (t.settle w.2).2) := by
  induction s generalizing t w with
  | done f =>
    cases t <;> first | exact h.elim | exact .inr ⟨c.refl w, h⟩
  | fault e =>
    cases t <;> first | exact h.elim | exact .inr ⟨c.refl w, h⟩
  | inspect next ih =>
    cases t with
    | inspect next' => exact ih w.1 (t := next' w.2) h
    | _ => exact h.elim
  | modify change next ih =>
    cases t <;> first | exact h.elim | skip
    rcases h with hl | ⟨he, h⟩
    · exact .inl hl
    · exact (ih h).imp_right fun ⟨h1, h2⟩ => ⟨c.trans he h1, h2⟩
  | ask r release resume ih =>
    cases t <;> first | exact h.elim | exact .inr ⟨c.refl w, h⟩

/-- What is true of two fronts stays true while others go on. -/
theorem Front.Agree.later {f g : Front σ α} {w w' : σ × σ} (he : c.evolves w w')
    (h : f.Agree c lost g w) : f.Agree c lost g w' := by
  cases f <;> cases g <;> first | exact h.elim | exact h | skip
  exact ⟨h.1, fun w'' hw => h.2.1 w'' (c.trans he hw),
    fun answer w'' hw => h.2.2 answer w'' (c.trans he hw)⟩

/-! ## Losses -/

/-- What `R` allows on either side leaves a lost pair lost. -/
structure Irreparable (R : σ → σ → Prop) (lost : σ × σ → Prop) : Prop where
  left : ∀ {u u' v}, R u u' → lost (u, v) → lost (u', v)
  right : ∀ {u v v'}, R v v' → lost (u, v) → lost (u, v')

theorem Irreparable.stays (hR : Irreparable R lost) {u u' v v' : σ} (hu : u' = u ∨ R u u')
    (hv : v' = v ∨ R v v') (h : lost (u, v)) : lost (u', v') := by
  have hright : lost (u, v') := by
    rcases hv with rfl | hv
    · exact h
    · exact hR.right hv h
  rcases hu with rfl | hu
  · exact hright
  · exact hR.left hu hright

/-- What comes behind a step takes over where the step finishes, if at all. -/
theorem settle_andThen_state {f : α → Step σ β} (hf : ∀ a u, R u ((f a).settle u).2)
    (s : Step σ α) (w : σ) : ((s.andThen f).settle w).2 = (s.settle w).2 ∨
      R (s.settle w).2 ((s.andThen f).settle w).2 := by
  rw [settle_andThen]
  rcases s.settle w with ⟨⟨_ | a⟩ | _ | _, w'⟩
  · exact .inl rfl
  · exact .inr (hf a w')
  · exact .inl rfl
  · exact .inl rfl

/-- What is to be undone is undone at the end, unless the step waits. -/
theorem settle_releasing_state {undo : σ → σ} (hu : ∀ u, R u (undo u)) (s : Step σ α) (w : σ) :
    ((s.releasing undo).settle w).2 = (s.settle w).2 ∨
      R (s.settle w).2 ((s.releasing undo).settle w).2 := by
  rw [settle_releasing]
  rcases s.settle w with ⟨_ | _ | _, w'⟩
  · exact .inr (hu w')
  · exact .inr (hu w')
  · exact .inl rfl

/-! ## Rules -/

/-- Steps in a row agree if a loss in the first parts is one in the whole. -/
theorem Agree.bind_of {lost' : σ × σ → Prop} {f g : α → Step σ β}
    (hl : ∀ (s t : Step σ α) {u v}, lost ((s.settle u).2, (t.settle v).2) →
      lost' (((s.andThen f).settle u).2, ((t.andThen g).settle v).2))
    {s t : Step σ α} {w : σ × σ} (h : Agree c lost s t w)
    (hf : ∀ a w', c.evolves w w' → Agree c lost' (f a) (g a) w') :
    Agree c lost' (s >>= f) (t >>= g) w := by
  simp only [bind_eq_andThen]
  induction s generalizing t w with
  | done flow =>
    cases t <;> first | exact h.elim | skip
    cases h
    cases flow with
    | ok a => exact hf a w (c.refl w)
    | error e => rfl
  | fault e =>
    cases t <;> first | exact h.elim | exact h
  | inspect next ih =>
    cases t with
    | inspect next' => exact ih w.1 (t := next' w.2) h hf
    | _ => exact h.elim
  | modify change next ih =>
    cases t <;> first | exact h.elim | skip
    rcases h with h | ⟨he, h⟩
    · exact .inl (hl _ _ h)
    · exact .inr ⟨he, ih h fun a w' he' => hf a w' (c.trans he he')⟩
  | ask r release resume ih =>
    cases t <;> first | exact h.elim | skip
    refine ⟨h.1, h.2.1, fun answer w' he => ?_⟩
    exact ih answer (h.2.2 answer w' he) fun a w'' he' => hf a w'' (c.trans he he')

/-- Where nothing is lost, anything may follow. -/
theorem Agree.bind {s t : Step σ α} {f g : α → Step σ β} {w : σ × σ}
    (h : Agree c (fun _ => False) s t w)
    (hf : ∀ a w', c.evolves w w' → Agree c lost (f a) (g a) w') :
    Agree c lost (s >>= f) (t >>= g) w := h.bind_of (fun _ _ _ _ => False.elim) hf

/-- Where something may be lost, what follows must leave it lost. -/
theorem Agree.bind_quiet (hR : Irreparable R lost) {s t : Step σ α} {f g : α → Step σ β}
    {w : σ × σ} (h : Agree c lost s t w) (hq : ∀ a u, R u ((f a).settle u).2)
    (hq' : ∀ a u, R u ((g a).settle u).2)
    (hf : ∀ a w', c.evolves w w' → Agree c lost (f a) (g a) w') :
    Agree c lost (s >>= f) (t >>= g) w :=
  h.bind_of (fun s t u v =>
    hR.stays (settle_andThen_state hq s u) (settle_andThen_state hq' t v)) hf

theorem Agree.releasing (hR : Irreparable R lost) {undo undo' : σ → σ} (hq : ∀ u, R u (undo u))
    (hq' : ∀ u, R u (undo' u)) {s t : Step σ α} {w : σ × σ} (h : Agree c lost s t w)
    (hu : ∀ w', c.evolves w w' → c.evolves w' (undo w'.1, undo' w'.2)) :
    Agree c lost (s.releasing undo) (t.releasing undo') w := by
  induction s generalizing t w with
  | done flow =>
    cases t <;> first | exact h.elim | exact .inr ⟨hu w (c.refl w), h⟩
  | fault e =>
    cases t <;> first | exact h.elim | exact .inr ⟨hu w (c.refl w), h⟩
  | inspect next ih =>
    cases t with
    | inspect next' => exact ih w.1 (t := next' w.2) h hu
    | _ => exact h.elim
  | modify change next ih =>
    cases t <;> first | exact h.elim | skip
    rcases h with h | ⟨he, h⟩
    · exact .inl <| hR.stays (settle_releasing_state hq next _) (settle_releasing_state hq' _ _) h
    · exact .inr ⟨he, ih h fun w' he' => hu w' (c.trans he he')⟩
  | ask r release resume ih =>
    cases t <;> first | exact h.elim | skip
    refine ⟨h.1, fun w' he => ?_, fun answer w' he => ?_⟩
    · have hr := h.2.1 w' he
      exact c.trans hr (hu _ (c.trans he hr))
    · exact ih answer (h.2.2 answer w' he) fun w'' he' => hu w'' (c.trans he he')

/-! ## Single nodes -/

theorem agree_read_bind {f : σ → β} {k k' : β → Step σ α} {w : σ × σ} (hf : f w.1 = f w.2)
    (h : Agree c lost (k (f w.1)) (k' (f w.1)) w) :
    Agree c lost (read f >>= k) (read f >>= k') w := by
  show Agree c lost (k (f w.1)) (k' (f w.2)) w
  rw [← hf]
  exact h

theorem agree_write {change : σ → σ} {w : σ × σ} (he : c.evolves w (change w.1, change w.2)) :
    Agree c lost (write change) (write change) w := .inr ⟨he, rfl⟩

theorem agree_compute {f : σ → α × σ} {w : σ × σ} (hf : (f w.1).1 = (f w.2).1)
    (he : c.evolves w ((f w.1).2, (f w.2).2)) : Agree c lost (compute f) (compute f) w :=
  .inr ⟨he, congrArg Except.ok hf⟩

theorem agree_checkpoint (w : σ × σ) : Agree c lost (checkpoint : Step σ Unit) checkpoint w :=
  ⟨rfl, fun w' _ => c.refl w', fun _ _ _ => rfl⟩

end ScriptSandbox.Step
