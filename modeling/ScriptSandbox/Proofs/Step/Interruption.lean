import ScriptSandbox.Proofs.Step.Contract

/-
  Steps that are interrupted.

  A step looks at the state and changes it node by node, and somebody else may act on the state in
  between. `SettlesAmid` is a run to the front that others interrupt at any node, as often as they
  like. If the step cannot tell apart states that are related (`Respects`), and what the others do
  leaves a state related to what it was, then such a run comes to the same front as one that nobody
  interrupts, and to a related state (`Similar.settle`).

  A step that looks at the state goes on with another step in another state, so the relation is one
  between two steps (`Similar`). Other than `Agree` it asks the same of all related states at every
  node, since nothing is left of the state in which the step was started. The rules follow those for
  contracts.
-/

namespace ScriptSandbox.Step

variable {σ α β : Type} {R : σ → σ → Prop}

/-- In related states the changes lead to related states. -/
def Relates (R : σ → σ → Prop) (change change' : σ → σ) : Prop :=
  ∀ ⦃w w'⦄, R w w' → R (change w) (change' w')

/-- In related states the two steps cannot be told apart by requests and outcomes, and they leave
    related states. -/
def Similar (R : σ → σ → Prop) : Step σ α → Step σ α → Prop
  | .done f, .done g => f = g
  | .fault e, .fault f => e = f
  | .inspect next, .inspect next' => ∀ ⦃w w'⦄, R w w' → Similar R (next w) (next' w')
  | .modify change next, .modify change' next' => Relates R change change' ∧ Similar R next next'
  | .ask r release resume, .ask r' release' resume' =>
    r = r' ∧ Relates R release release' ∧ ∀ answer, Similar R (resume answer) (resume' answer)
  | _, _ => False

/-- What `Similar` says about steps that have come to their fronts. -/
def Front.Similar (R : σ → σ → Prop) : Front σ α → Front σ α → Prop
  | .finished f, .finished g => f = g
  | .faulted e, .faulted f => e = f
  | .waiting r release resume, .waiting r' release' resume' =>
    Step.Similar R (.ask r release resume) (.ask r' release' resume')
  | _, _ => False

/-- The step does not notice in which of two related states it is. -/
abbrev Respects (R : σ → σ → Prop) (s : Step σ α) : Prop := Similar R s s

/-! ## Interrupted runs -/

/-- The step comes to the front, and to the state, while others act on the state in between. -/
inductive SettlesAmid (acts : σ → σ → Prop) : Step σ α → σ → Front σ α → σ → Prop where
  | done {flow : Flow α} {w : σ} : SettlesAmid acts (.done flow) w (.finished flow) w
  | fault {e : Fault} {w : σ} : SettlesAmid acts (.fault e) w (.faulted e) w
  | ask {r : Request} {release : σ → σ} {resume : Flow Value → Step σ α} {w : σ} :
    SettlesAmid acts (.ask r release resume) w (.waiting r release resume) w
  | inspect {next : σ → Step σ α} {w w' : σ} {front : Front σ α}
    (h : SettlesAmid acts (next w) w front w') : SettlesAmid acts (.inspect next) w front w'
  | modify {change : σ → σ} {next : Step σ α} {w w' : σ} {front : Front σ α}
    (h : SettlesAmid acts next (change w) front w') :
    SettlesAmid acts (.modify change next) w front w'
  /-- Somebody else acts on the state. -/
  | interrupted {s : Step σ α} {w w₁ w' : σ} {front : Front σ α} (hact : acts w w₁)
    (h : SettlesAmid acts s w₁ front w') : SettlesAmid acts s w front w'

/-- Nobody need act. -/
theorem settlesAmid_settle {acts : σ → σ → Prop} (s : Step σ α) (w : σ) :
    SettlesAmid acts s w (s.settle w).1 (s.settle w).2 := by
  induction s generalizing w with
  | done flow => exact .done
  | fault e => exact .fault
  | inspect next ih => exact .inspect (ih w w)
  | modify change next ih => exact .modify (ih (change w))
  | ask r release resume ih => exact .ask

/-- Interruptions that the relation allows for make no difference. -/
theorem Similar.settle {acts : σ → σ → Prop} (hacts : ∀ ⦃w w' w''⦄, R w w' → acts w' w'' → R w w'')
    {s t : Step σ α} {w w' v : σ} {front : Front σ α} (hs : s.Similar R t) (hw : R w w')
    (h : SettlesAmid acts t w' front v) :
    (s.settle w).1.Similar R front ∧ R (s.settle w).2 v := by
  induction h generalizing s w with
  | done => cases s <;> first | exact hs.elim | exact ⟨hs, hw⟩
  | fault => cases s <;> first | exact hs.elim | exact ⟨hs, hw⟩
  | ask => cases s <;> first | exact hs.elim | exact ⟨hs, hw⟩
  | inspect _ ih =>
    cases s with
    | inspect next => exact ih (s := next w) (hs hw) hw
    | _ => exact hs.elim
  | modify _ ih =>
    cases s with
    | modify change next => exact ih (s := next) hs.2 (hs.1 hw)
    | _ => exact hs.elim
  | interrupted hact _ ih => exact ih hs (hacts hw hact)

/-! ## Rules -/

theorem Similar.andThen {s t : Step σ α} {f g : α → Step σ β} (h : s.Similar R t)
    (hf : ∀ a, (f a).Similar R (g a)) : (s.andThen f).Similar R (t.andThen g) := by
  induction s generalizing t with
  | done flow =>
    cases t <;> first | exact h.elim | skip
    cases h
    cases flow with
    | ok a => exact hf a
    | error c => rfl
  | fault e => cases t <;> first | exact h.elim | exact h
  | inspect next ih =>
    cases t with
    | inspect next' => exact fun w w' hw => ih w (h hw)
    | _ => exact h.elim
  | modify change next ih =>
    cases t with
    | modify change' next' => exact ⟨h.1, ih h.2⟩
    | _ => exact h.elim
  | ask r release resume ih =>
    cases t with
    | ask r' release' resume' => exact ⟨h.1, h.2.1, fun answer => ih answer (h.2.2 answer)⟩
    | _ => exact h.elim

variable {undo undo' : σ → σ}

theorem Similar.releasing {s t : Step σ α} (h : s.Similar R t) (hu : Relates R undo undo') :
    (s.releasing undo).Similar R (t.releasing undo') := by
  induction s generalizing t with
  | done flow => cases t <;> first | exact h.elim | exact ⟨hu, h⟩
  | fault e => cases t <;> first | exact h.elim | exact ⟨hu, h⟩
  | inspect next ih =>
    cases t with
    | inspect next' => exact fun w w' hw => ih w (h hw)
    | _ => exact h.elim
  | modify change next ih =>
    cases t with
    | modify change' next' => exact ⟨h.1, ih h.2⟩
    | _ => exact h.elim
  | ask r release resume ih =>
    cases t with
    | ask r' release' resume' =>
      exact ⟨h.1, fun _ _ hw => hu (h.2.1 hw), fun answer => ih answer (h.2.2 answer)⟩
    | _ => exact h.elim

theorem Similar.untilRequest {s t : Step σ α} (h : s.Similar R t) (hu : Relates R undo undo') :
    (s.untilRequest undo).Similar R (t.untilRequest undo') := by
  induction s generalizing t with
  | done flow => cases t <;> first | exact h.elim | exact ⟨hu, h⟩
  | fault e => cases t <;> first | exact h.elim | exact ⟨hu, h⟩
  | inspect next ih =>
    cases t with
    | inspect next' => exact fun w w' hw => ih w (h hw)
    | _ => exact h.elim
  | modify change next ih =>
    cases t with
    | modify change' next' => exact ⟨h.1, ih h.2⟩
    | _ => exact h.elim
  | ask r release resume ih =>
    cases t with
    | ask r' release' resume' => exact ⟨hu, h⟩
    | _ => exact h.elim

namespace Respects

/-- What is looked at is the same in related states. -/
theorem inspect {next : σ → Step σ α} (hnext : ∀ ⦃w w'⦄, R w w' → next w = next w')
    (h : ∀ w, Respects R (next w)) : Respects R (.inspect next) :=
  fun w _ hw => hnext hw ▸ h w

theorem read_bind {f : σ → β} {k : β → Step σ α} (hf : ∀ ⦃w w'⦄, R w w' → f w = f w')
    (hk : ∀ b, Respects R (k b)) : Respects R (read f >>= k) :=
  inspect (fun _ _ hw => congrArg k (hf hw)) fun w => hk (f w)

theorem write {change : σ → σ} (h : Relates R change change) : Respects R (write change) := ⟨h, rfl⟩

theorem compute {f : σ → α × σ} (hf : ∀ ⦃w w'⦄, R w w' → (f w).1 = (f w').1 ∧ R (f w).2 (f w').2) :
    Respects R (compute f) :=
  fun _ _ hw => ⟨fun _ _ _ => (hf hw).2, congrArg Except.ok (hf hw).1⟩

theorem request (r : Request) : Respects R (request r) := ⟨rfl, fun _ _ hw => hw, fun _ => rfl⟩

theorem checkpoint : Respects R (checkpoint : Step σ Unit) :=
  ⟨rfl, fun _ _ hw => hw, fun _ => rfl⟩

theorem orFault (result : Except Fault α) : Respects R (orFault result) := by
  cases result <;> rfl

end Respects

end ScriptSandbox.Step
