import ScriptSandbox.Proofs.Step.Dialogue

/-
  Steps that relay.

  A step that only goes on with results lets completions pass. So an abrupt answer ends it at once,
  whatever the step was in the middle of, and becomes its outcome unchanged; what else it ends with
  abruptly it has raised itself. `Relays` says so of a step, in whatever states it is resumed. The
  combinators that look at results only keep it, and on a dialogue it shows in two ways: an abrupt
  answer is the last one and is the flow (`Relays.of_abrupt_answer`), and an abrupt flow is the last
  answer or was raised (`Relays.abrupt_cases`).
-/

namespace ScriptSandbox.Step

variable {σ α β : Type} {raised : Completion → Prop}

/-- Every abrupt answer is the outcome at once, and the other completions of the step are among
    those that it may raise. -/
def Relays (raised : Completion → Prop) : Step σ α → σ → Prop
  | .done (.ok _), _ => True
  | .done (.error c), _ => raised c
  | .fault _, _ => True
  | .inspect next, w => Relays raised (next w) w
  | .modify change next, w => Relays raised next (change w)
  | .ask _ _ resume, _ =>
    (∀ v w, Relays raised (resume (.ok v)) w) ∧
      ∀ c w, ∃ w', (resume (.error c)).settle w = (.finished (.error c), w')

namespace Relays

variable {s : Step σ α} {f : α → Step σ β} {undo : σ → σ} {w : σ}

/-! ## Rules -/

theorem compute (f : σ → α × σ) : (compute f).Relays raised w := trivial

theorem request (r : Request) : (request r : Step σ Value).Relays raised w :=
  ⟨fun _ _ => trivial, fun _ w' => ⟨w', rfl⟩⟩

theorem checkpoint : (checkpoint : Step σ Unit).Relays raised w :=
  ⟨fun _ _ => trivial, fun _ w' => ⟨w', rfl⟩⟩

theorem andThen (h : s.Relays raised w) (hf : ∀ a w', (f a).Relays raised w') :
    (s.andThen f).Relays raised w := by
  induction s generalizing w with
  | done flow =>
    cases flow with
    | ok a => exact hf a w
    | error c => exact h
  | fault e => trivial
  | inspect next ih => exact ih w h
  | modify change next ih => exact ih h
  | ask r release resume ih =>
    refine ⟨fun v w' => ih (.ok v) (h.1 v w'), fun c w' => ?_⟩
    obtain ⟨w'', hs⟩ := h.2 c w'
    exact ⟨w'', by rw [settle_andThen, hs]⟩

theorem releasing (h : s.Relays raised w) : (s.releasing undo).Relays raised w := by
  induction s generalizing w with
  | done flow => cases flow <;> exact h
  | fault e => trivial
  | inspect next ih => exact ih w h
  | modify change next ih => exact ih h
  | ask r release resume ih =>
    refine ⟨fun v w' => ih (.ok v) (h.1 v w'), fun c w' => ?_⟩
    obtain ⟨w'', hs⟩ := h.2 c w'
    exact ⟨undo w'', by rw [settle_releasing, hs]⟩

theorem untilRequest (h : s.Relays raised w) : (s.untilRequest undo).Relays raised w := by
  induction s generalizing w with
  | done flow => cases flow <;> exact h
  | fault e => trivial
  | inspect next ih => exact ih w h
  | modify change next ih => exact ih h
  | ask r release resume ih => exact h

/-! ## Dialogues -/

variable {w' : σ} {es rest : List (Exchange σ)} {e : Exchange σ} {flow : Flow α} {c : Completion}

/-- After an abrupt answer there is no other request, and the answer is the outcome. -/
theorem of_abrupt_answer (h : s.Relays raised w) (hd : s.Dialogue w (es ++ e :: rest) flow w')
    (he : e.answer = .error c) : rest = [] ∧ flow = .error c := by
  induction s generalizing w es with
  | done first => exact absurd (Dialogue.of_finished rfl hd).1 (by simp)
  | fault e => exact absurd hd (Dialogue.not_of_faulted rfl)
  | inspect next ih => exact ih w h hd.of_inspect
  | modify change next ih => exact ih h (w := change w) (hd.congr rfl)
  | ask r release resume ih =>
    obtain ⟨answer, w₁, others, hes, hrest⟩ := Dialogue.of_waiting rfl hd
    have habrupt {d : Completion} (hd : answer = .error d) : others = [] ∧ flow = .error d := by
      subst hd
      obtain ⟨w₂, hs⟩ := h.2 d w₁
      obtain ⟨hothers, hflow, -⟩ := Dialogue.of_finished hs hrest
      exact ⟨hothers, hflow⟩
    cases es with
    | nil =>
      obtain ⟨rfl, rfl⟩ := List.cons.inj hes
      exact habrupt he
    | cons first before =>
      obtain ⟨rfl, rfl⟩ := List.cons.inj hes
      cases answer with
      | ok v => exact ih (.ok v) (h.1 v w₁) hrest
      | error d => exact absurd (habrupt rfl).1 (by simp)

/-- An abrupt outcome is the last answer, or the step raised it. -/
theorem abrupt_cases (h : s.Relays raised w) (hd : s.Dialogue w es (.error c) w') :
    (∃ e, es.getLast? = some e ∧ e.answer = .error c) ∨ raised c := by
  induction s generalizing w es with
  | done first =>
    obtain ⟨-, rfl, -⟩ := Dialogue.of_finished rfl hd
    exact .inr h
  | fault e => exact absurd hd (Dialogue.not_of_faulted rfl)
  | inspect next ih => exact ih w h hd.of_inspect
  | modify change next ih => exact ih h (w := change w) (hd.congr rfl)
  | ask r release resume ih =>
    obtain ⟨answer, w₁, others, rfl, hrest⟩ := Dialogue.of_waiting rfl hd
    cases answer with
    | ok v =>
      refine (ih (.ok v) (h.1 v w₁) hrest).imp_left ?_
      rintro ⟨e, hlast, he⟩
      exact ⟨e, by rw [List.getLast?_cons, hlast]; rfl, he⟩
    | error d =>
      obtain ⟨w₂, hs⟩ := h.2 d w₁
      obtain ⟨rfl, hflow, -⟩ := Dialogue.of_finished hs hrest
      cases hflow
      exact .inl ⟨_, rfl, rfl⟩

end Relays

end ScriptSandbox.Step
