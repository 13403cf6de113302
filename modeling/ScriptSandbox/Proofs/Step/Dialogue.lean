import ScriptSandbox.Proofs.Step.Budget
import ScriptSandbox.Proofs.Step.Evaluation
import ScriptSandbox.Proofs.Step.Suspension

/-
  Dialogues.

  A dialogue of a step lists its own requests with the answers that it got and the states in which
  it went on, up to its end. What happens while the step waits is left open: any answer may come, in
  any state. So a fact about all dialogues holds under every handler (`Evaluates.exists_dialogue`),
  and a dialogue of a sequence is a dialogue of each part (`Dialogue.andThen_cases`). `AsksAtMost`
  bounds the requests also of a step that never comes to its end. Such a step does not break off
  for want of arrays either.
-/

namespace ScriptSandbox

/-- A request, the answer to it, and the state in which the answer came. -/
structure Exchange (σ : Type) where
  request : Request
  answer : Flow Value
  resumed : σ

namespace Step

variable {σ α β : Type}

/-- The step makes these requests and no others, is resumed with these answers in these states,
    comes to a flow and leaves a state. -/
inductive Dialogue : Step σ α → σ → List (Exchange σ) → Flow α → σ → Prop
  | ended {s w flow w'} (h : s.settle w = (.finished flow, w')) : Dialogue s w [] flow w'
  | answered {s w r release resume w₁ answer w₂ es flow w'}
    (h : s.settle w = (.waiting r release resume, w₁))
    (rest : Dialogue (resume answer) w₂ es flow w') :
    Dialogue s w (⟨r, answer, w₂⟩ :: es) flow w'

variable {s s' : Step σ α} {f : α → Step σ β} {undo : σ → σ} {w w' w₁ : σ} {es : List (Exchange σ)}
  {flow flow' : Flow α} {n m : Nat}

namespace Dialogue

/-- Steps with the same front have the same dialogues. -/
theorem congr (hd : s'.Dialogue w₁ es flow w') (h : s.settle w = s'.settle w₁) :
    s.Dialogue w es flow w' := by
  cases hd with
  | ended hs => exact .ended (h.trans hs)
  | answered hs rest => exact .answered (h.trans hs) rest

/-- A step that looks at the state is the step it takes there. -/
theorem of_inspect {next : σ → Step σ α} (h : (Step.inspect next).Dialogue w es flow w') :
    (next w).Dialogue w es flow w' :=
  h.congr rfl

theorem of_finished (hs : s.settle w = (.finished flow', w₁)) (h : s.Dialogue w es flow w') :
    es = [] ∧ flow = flow' ∧ w' = w₁ := by
  cases h with
  | ended hs' =>
    rw [hs] at hs'
    cases hs'
    exact ⟨rfl, rfl, rfl⟩
  | answered hs' rest =>
    rw [hs] at hs'
    cases hs'

theorem not_of_faulted {e : Fault} (hs : s.settle w = (.faulted e, w₁)) :
    ¬ s.Dialogue w es flow w' := by
  intro h
  cases h with
  | ended hs' =>
    rw [hs] at hs'
    cases hs'
  | answered hs' rest =>
    rw [hs] at hs'
    cases hs'

theorem of_waiting {r : Request} {release : σ → σ} {resume : Flow Value → Step σ α}
    (hs : s.settle w = (.waiting r release resume, w₁)) (h : s.Dialogue w es flow w') :
    ∃ answer w₂ rest, es = ⟨r, answer, w₂⟩ :: rest ∧ (resume answer).Dialogue w₂ rest flow w' := by
  cases h with
  | ended hs' =>
    rw [hs] at hs'
    cases hs'
  | @answered _ _ _ _ _ _ answer w₂ rest _ _ hs' hrest =>
    rw [hs] at hs'
    cases hs'
    exact ⟨answer, w₂, rest, rfl, hrest⟩

/-- A dialogue of a sequence ends in the first step with a completion, or it is a dialogue of the
    first step and then one of the second. -/
theorem andThen_cases {flow : Flow β} (h : (s.andThen f).Dialogue w es flow w') :
    (∃ c, flow = .error c ∧ s.Dialogue w es (.error c) w') ∨
      ∃ a es₁ es₂ w₁, es = es₁ ++ es₂ ∧ s.Dialogue w es₁ (.ok a) w₁ ∧
        (f a).Dialogue w₁ es₂ flow w' := by
  induction s generalizing w es with
  | done first =>
    cases first with
    | ok a => exact .inr ⟨a, [], es, w, rfl, .ended rfl, h⟩
    | error c =>
      obtain ⟨rfl, rfl, rfl⟩ := of_finished rfl h
      exact .inl ⟨c, rfl, .ended rfl⟩
  | fault e => exact absurd h (not_of_faulted rfl)
  | inspect next ih =>
    have hnext : ((next w).andThen f).Dialogue w es flow w' := of_inspect h
    obtain ⟨c, rfl, hd⟩ | ⟨a, es₁, es₂, w₁, rfl, hd, hrest⟩ := ih w hnext
    · exact .inl ⟨c, rfl, hd.congr rfl⟩
    · exact .inr ⟨a, es₁, es₂, w₁, rfl, hd.congr rfl, hrest⟩
  | modify change next ih =>
    have hnext : (next.andThen f).Dialogue (change w) es flow w' := h.congr rfl
    obtain ⟨c, rfl, hd⟩ | ⟨a, es₁, es₂, w₁, rfl, hd, hrest⟩ := ih hnext
    · exact .inl ⟨c, rfl, hd.congr rfl⟩
    · exact .inr ⟨a, es₁, es₂, w₁, rfl, hd.congr rfl, hrest⟩
  | ask r release resume ih =>
    obtain ⟨answer, w₂, rest, rfl, hresume⟩ := of_waiting rfl h
    obtain ⟨c, rfl, hd⟩ | ⟨a, es₁, es₂, w₁, rfl, hd, hrest⟩ := ih answer hresume
    · exact .inl ⟨c, rfl, .answered rfl hd⟩
    · exact .inr ⟨a, ⟨r, answer, w₂⟩ :: es₁, es₂, w₁, rfl, .answered rfl hd, hrest⟩

theorem of_releasing (h : (s.releasing undo).Dialogue w es flow w') :
    ∃ w₁, s.Dialogue w es flow w₁ ∧ w' = undo w₁ := by
  generalize hs : s.releasing undo = t at h
  induction h generalizing s with
  | @ended t w flow w' h =>
    subst hs
    rw [settle_releasing] at h
    split at h
    · next hs =>
      cases h
      exact ⟨_, .ended hs, rfl⟩
    · cases h
    · cases h
  | answered h _ ih =>
    subst hs
    rw [settle_releasing] at h
    split at h
    · cases h
    · cases h
    · next hs =>
      cases h
      obtain ⟨w₁, hd, hw⟩ := ih rfl
      exact ⟨w₁, .answered hs hd, hw⟩

theorem of_untilRequest (h : (s.untilRequest undo).Dialogue w es flow w') :
    ∃ w₁, s.Dialogue w es flow w₁ := by
  have hfront : (s.settle w).1 = ((s.untilRequest undo).settle w).1 := by rw [settle_untilRequest]
  have hs : s.settle w = ((s.settle w).1, (s.settle w).2) := rfl
  cases h with
  | ended h =>
    rw [hfront, h] at hs
    exact ⟨_, .ended hs⟩
  | answered h rest =>
    rw [hfront, h] at hs
    exact ⟨w', .answered hs rest⟩

end Dialogue

/-! ## Bounds -/

/-- The step makes at most so many requests, whatever the answers are, and breaks off for no want of
    arrays. -/
def AsksAtMost : Step σ α → Nat → Prop
  | .done _, _ => True
  | .fault e, _ => e ≠ .endlessJoin
  | .inspect next, n => ∀ w, (next w).AsksAtMost n
  | .modify _ next, n => next.AsksAtMost n
  | .ask _ _ resume, n => ∃ m, n = m + 1 ∧ ∀ answer, (resume answer).AsksAtMost m

namespace AsksAtMost

theorem compute {change : σ → α × σ} : (Step.compute change).AsksAtMost 0 :=
  fun _ => trivial

theorem mono (h : s.AsksAtMost n) (hnm : n ≤ m) : s.AsksAtMost m := by
  induction s generalizing n m with
  | done flow => trivial
  | fault e => exact h
  | inspect next ih => exact fun w => ih w (h w) hnm
  | modify change next ih => exact ih h hnm
  | ask r release resume ih =>
    obtain ⟨k, rfl, hk⟩ := h
    obtain ⟨j, rfl⟩ : ∃ j, m = j + 1 := ⟨m - 1, by omega⟩
    exact ⟨j, rfl, fun answer => ih answer (hk answer) (by omega)⟩

theorem andThen (h : s.AsksAtMost n) (hf : ∀ a, (f a).AsksAtMost m) :
    (s.andThen f).AsksAtMost (n + m) := by
  induction s generalizing n with
  | done flow =>
    cases flow with
    | ok a => exact (hf a).mono (Nat.le_add_left m n)
    | error c => trivial
  | fault e => exact h
  | inspect next ih => exact fun w => ih w (h w)
  | modify change next ih => exact ih h
  | ask r release resume ih =>
    obtain ⟨k, rfl, hk⟩ := h
    exact ⟨k + m, by omega, fun answer => ih answer (hk answer)⟩

theorem releasing (h : s.AsksAtMost n) : (s.releasing undo).AsksAtMost n := by
  induction s generalizing n with
  | done flow => trivial
  | fault e => exact h
  | inspect next ih => exact fun w => ih w (h w)
  | modify change next ih => exact ih h
  | ask r release resume ih =>
    obtain ⟨k, rfl, hk⟩ := h
    exact ⟨k, rfl, fun answer => ih answer (hk answer)⟩

theorem untilRequest (h : s.AsksAtMost n) : (s.untilRequest undo).AsksAtMost n := by
  induction s generalizing n with
  | done flow => trivial
  | fault e => exact h
  | inspect next ih => exact fun w => ih w (h w)
  | modify change next ih => exact ih h
  | ask r release resume ih => exact h

theorem ready (a : α) : (ready a : Step σ α).AsksAtMost n := trivial

theorem orFault {result : Except Fault α} (h : result ≠ .error .endlessJoin) :
    (orFault result : Step σ α).AsksAtMost n := by
  cases result with
  | ok a => trivial
  | error e => exact fun he => h (congrArg _ he)

theorem length_le (h : s.AsksAtMost n) (hd : s.Dialogue w es flow w') : es.length ≤ n := by
  induction s generalizing n w es with
  | done first =>
    obtain ⟨rfl, -⟩ := Dialogue.of_finished rfl hd
    exact Nat.zero_le n
  | fault e => exact absurd hd (Dialogue.not_of_faulted rfl)
  | inspect next ih => exact ih w (h w) (hd.congr rfl)
  | modify change next ih => exact ih h (w := change w) (hd.congr rfl)
  | ask r release resume ih =>
    obtain ⟨k, rfl, hk⟩ := h
    obtain ⟨answer, w₂, rest, rfl, hrest⟩ := Dialogue.of_waiting rfl hd
    exact Nat.succ_le_succ (ih answer (hk answer) hrest)

theorem eq_nil (h : s.AsksAtMost 0) (hd : s.Dialogue w es flow w') : es = [] :=
  List.eq_nil_of_length_eq_zero (Nat.le_zero.mp (h.length_le hd))

end AsksAtMost

end Step

namespace Driver

variable {σ α : Type} {handler : Handler σ}

/-- Under every handler a step has a dialogue: its requests are among those of the evaluation, in
    their order, and each is answered as the handler answers it. -/
theorem Evaluates.exists_dialogue {s : Step σ α} {w w' : σ} {log : List Request} {flow : Flow α}
    (h : Evaluates handler s w log flow w') :
    ∃ es, s.Dialogue w es flow w' ∧ (es.map Exchange.request).Sublist log ∧
      ∀ e ∈ es, ∃ u log', Evaluates handler (handler e.request) u log' e.answer e.resumed := by
  induction h with
  | ready h => exact ⟨[], .ended h, .slnil, by simp⟩
  | @suspended _ _ _ r _ _ w₁ log₁ answer w₂ log₂ _ _ h hanswer _ _ ih =>
    obtain ⟨es, hd, hsub, hanswers⟩ := ih
    refine ⟨⟨r, answer, w₂⟩ :: es, .answered h hd, ?_, ?_⟩
    · exact (hsub.trans (List.sublist_append_right log₁ log₂)).cons_cons r
    · intro e he
      obtain rfl | he := List.mem_cons.mp he
      · exact ⟨w₁, log₁, hanswer⟩
      · exact hanswers e he

end Driver

end ScriptSandbox
