import ScriptSandbox.Proofs.Operation.Footprint
import ScriptSandbox.Proofs.Step.Suspension
import ScriptSandbox.Proofs.World.Recall

/-
  Operations that decide what a link remembers.

  A write that creates a property through a link, and a delete through it, wait for the host once.
  Up to then they change nothing about the name, and how they come out behind it decides whether
  the link remembers the name afterwards: `decides_creating` and `decides_deleting`, each with the
  verdict that its outcomes give. All other operations are steady from start to end (`steady_step`).
-/

namespace ScriptSandbox

variable {E α β : Type} {link : LinkId} {name : String}

/-! ## Verdicts -/

/-- What an outcome means for whether the link remembers the name. -/
abbrev Verdict (α : Type) := Flow α → Prop → Prop

namespace Verdict

/-- With the result the name is remembered from now on. -/
def adopts (result : α) : Verdict α := fun flow p => p ∨ flow = .ok result

/-- With the result the name is forgotten. -/
def drops (result : α) : Verdict α := fun flow p => p ∧ flow ≠ .ok result

theorem adopts_map {g : α → β} {a : α} (hg : ∀ b, g b = g a → b = a) (flow : Flow α) (p : Prop) :
    adopts (g a) (flow.map g) p ↔ adopts a flow p := by
  cases flow with
  | ok b => simpa [adopts, Except.map] using or_congr_right ⟨hg b, congrArg g⟩
  | error c => simp [adopts, Except.map]

theorem drops_map {g : α → β} {a : α} (hg : ∀ b, g b = g a → b = a) (flow : Flow α) (p : Prop) :
    drops (g a) (flow.map g) p ↔ drops a flow p := by
  cases flow with
  | ok b => simpa [drops, Except.map] using and_congr_right fun _ => not_congr ⟨hg b, congrArg g⟩
  | error c => simp [drops, Except.map]

theorem adopts_error (a : α) (c : Completion) (p : Prop) : adopts a (.error c) p ↔ p := by
  simp [adopts]

theorem drops_error (a : α) (c : Completion) (p : Prop) : drops a (.error c) p ↔ p := by
  simp [drops]

end Verdict

open World (Recalls Steady)

/-- The step comes to its end without a request, and since `u` the link has recalled the name as
    the verdict says. A fault says nothing about the name. -/
def Step.Closes (link : LinkId) (name : String) (verdict : Verdict α) (u : World E)
    (s : Evaluation E α) (w : World E) : Prop :=
  match s.settle w with
  | (.finished flow, w') => Recalls link name (verdict flow) u w'
  | (.faulted _, w') => Steady link name u w'
  | (.waiting _ _ _, _) => False

/-- What is still to come is decided by the answer: without one nothing happens to the name. -/
def Step.Front.Decides (link : LinkId) (name : String) (verdict : Verdict α) :
    Front (World E) α → Prop
  | .finished _ | .faulted _ => True
  | .waiting _ release resume =>
    (∀ w, Steady link name w (release w)) ∧
      ∀ answer w, Step.Closes link name verdict w (resume answer) w

/-- The step is steady up to its front, and the answer that it waits for, if it waits, decides. -/
def Step.Decides (link : LinkId) (name : String) (verdict : Verdict α) (s : Evaluation E α)
    (w : World E) : Prop :=
  Steady link name w (s.settle w).2 ∧ (s.settle w).1.Decides link name verdict

/-! ## Rules -/

section Rules

variable {verdict : Verdict α} {verdict' : Verdict β} {u w : World E}

theorem Step.closes_done {flow : Flow α} (h : Recalls link name (verdict flow) u w) :
    Step.Closes link name verdict u (.done flow) w := h

theorem Step.decides_read_bind {f : World E → β} {k : β → Evaluation E α}
    (h : Step.Decides link name verdict (k (f w)) w) :
    Step.Decides link name verdict (Step.read f >>= k) w := h

theorem Step.decides_checkpoint_bind (he : ∀ c p, verdict (.error c) p ↔ p)
    {k : Unit → Evaluation E α} (hk : ∀ w', Step.Closes link name verdict w' (k ()) w') :
    Step.Decides link name verdict (Step.checkpoint >>= k) w := by
  refine ⟨.refl w, fun w' => .refl w', fun answer w' => ?_⟩
  cases answer with
  | ok v => exact hk w'
  | error c => exact closes_done ((Steady.refl w').congr fun p => (he c p).symm)

theorem Step.Closes.ended {s : Evaluation E α} (h : s.Closes link name verdict u w) :
    (∃ flow, (s.settle w).1 = .finished flow ∧
      Recalls link name (verdict flow) u (s.settle w).2) ∨
    ∃ e, (s.settle w).1 = .faulted e ∧ Steady link name u (s.settle w).2 := by
  rw [Step.Closes] at h
  generalize s.settle w = settled at h ⊢
  obtain ⟨front, w'⟩ := settled
  cases front with
  | finished flow => exact .inl ⟨flow, rfl, h⟩
  | faulted e => exact .inr ⟨e, rfl, h⟩
  | waiting r release resume => exact h.elim

/-- The verdict on an outcome is passed on to what becomes of it. -/
theorem Step.Closes.map {s : Evaluation E α} (h : s.Closes link name verdict u w) {g : α → β}
    (hg : ∀ flow p, verdict' (flow.map g) p ↔ verdict flow p) :
    Step.Closes link name verdict' u (s.andThen fun a => .ready (g a)) w := by
  rw [Step.Closes] at h ⊢
  rw [Step.settle_andThen]
  generalize s.settle w = settled at h
  obtain ⟨front, w'⟩ := settled
  cases front with
  | finished flow =>
    cases flow with
    | ok a => exact h.congr fun p => (hg (.ok a) p).symm
    | error c => exact h.congr fun p => (hg (.error c) p).symm
  | faulted e => exact h
  | waiting r release resume => exact h

theorem Step.Decides.map {s : Evaluation E α} (h : s.Decides link name verdict w) {g : α → β}
    (hg : ∀ flow p, verdict' (flow.map g) p ↔ verdict flow p) :
    Step.Decides link name verdict' (s >>= fun a => Step.ready (g a)) w := by
  rw [Step.Decides] at h ⊢
  rw [Step.bind_eq_andThen, Step.settle_andThen]
  generalize s.settle w = settled at h
  obtain ⟨front, w'⟩ := settled
  cases front with
  | finished flow => cases flow <;> exact ⟨h.1, trivial⟩
  | faulted e => exact ⟨h.1, trivial⟩
  | waiting r release resume =>
    exact ⟨h.1, h.2.1, fun answer w'' => (h.2.2 answer w'').map hg⟩

end Rules

variable [Embedding E]

namespace Evaluation

variable {verdict : Verdict α} {u w : World E}

/-- An access to a host object comes to its end with the answer of the host. -/
theorem closes_access {verdict : Verdict β} (he : ∀ c p, verdict (.error c) p ↔ p)
    {realm : RealmId} {things : List Thing} {method : World E → Except HostError α × World E}
    (hm : ∀ w, Steady link name w (method w).2) {k : α → Evaluation E β}
    (hk : ∀ a w', Steady link name u w' → Step.Closes link name verdict u (k a) w')
    (h : Steady link name u w) :
    Step.Closes link name verdict u ((holding things (hostResult realm method)).andThen k) w := by
  have hheld : Steady link name u (w.hold things) := h.trans (Steady.of_eq rfl rfl)
  have hmethod : Steady link name u (method (w.hold things)).2 := hheld.trans (hm _)
  rw [Step.Closes, Step.settle_andThen]
  simp only [holding, Step.settle, Step.settle_releasing, settle_hostResult]
  generalize method (w.hold things) = result at hmethod
  obtain ⟨e | a, w'⟩ := result
  · have herror : Steady link name u ((w'.hostError realm e).2.letGo things) :=
      (hmethod.trans (World.steady_of_changes (World.changes_hostError realm e w'))).trans
        (Steady.of_eq rfl rfl)
    exact herror.congr fun p => (he _ p).symm
  · exact hk a _ (hmethod.trans (Steady.of_eq rfl rfl))

theorem decides_fail (realm : RealmId) (f : Failure) :
    Step.Decides link name verdict (fail realm f : Evaluation E α) w :=
  ⟨World.steady_of_changes (World.changes_scriptError realm _ _ w), trivial⟩

theorem decides_toHost_bind {v : Value} {k : HostValue → Evaluation E α}
    (hk : ∀ h, Step.Decides link name verdict (k h) (w.toHost v).2) :
    Step.Decides link name verdict (toHost v >>= k) w := by
  have hv : Steady link name w (w.toHost v).2 := World.steady_of_changes (World.changes_toHost v w)
  rw [Step.Decides, settle_toHost_bind]
  generalize w.toHost v = converted at hk hv
  obtain ⟨_ | h, w'⟩ := converted
  · exact ⟨hv, trivial⟩
  · exact ⟨hv.trans (hk h).1, (hk h).2⟩

end Evaluation

/-! ## Creating writes and deletes -/

open Evaluation

section Accesses

variable {w : World E} {l : Link} {value : Value} {realm : RealmId}

/-- A write that creates the property makes the link remember it if the host accepts it. -/
theorem Link.decides_put (hp : w.hasProperty l.native name = false)
    (ht : (w.realm l.realm).newProperties = .trackCreated) :
    Step.Decides link name (.adopts ()) (l.put link name value : Evaluation E Unit) w := by
  have ht' : ((w.toHost value).2.realm l.realm).newProperties = .trackCreated :=
    ((World.still_toHost value w).conduct l.realm).trans ht
  refine Step.decides_read_bind (Step.decides_read_bind ?_)
  simp only [hp, Bool.not_false, Bool.not_true, Bool.false_and, Bool.false_eq_true, if_false]
  refine decides_toHost_bind fun x => Step.decides_read_bind ?_
  rw [ht', hostSet_bind]
  refine Step.decides_checkpoint_bind (Verdict.adopts_error ()) fun w' => ?_
  refine closes_access (Verdict.adopts_error ())
    (fun w => World.steady_of_changes (World.changes_setProperty l.native name x w))
    (fun _ w'' hw => ?_) (.refl w')
  have hadd : Recalls link name (fun _ => True) w' (w''.addCreated link name) :=
    hw.trans (World.recalls_addCreated w'')
  exact hadd.congr fun p => by simp [Verdict.adopts]

/-- A delete makes the link forget the name if the host reports that the property is gone. -/
theorem Link.decides_delete :
    Step.Decides link name (.drops true) (l.delete link name : Evaluation E Bool) w := by
  show Step.Decides link name _ (ite ((!w.hasProperty l.native name) = true) _ _) w
  split
  · exact ⟨.refl w, trivial⟩
  show Step.Decides link name _ (ite ((!w.allowsWrite l name) = true) _ _) w
  split
  · exact decides_fail l.realm _
  show Step.Decides link name _ (hostDelete l.realm l.native name >>= _) w
  rw [hostDelete_bind]
  refine Step.decides_checkpoint_bind (Verdict.drops_error true) fun w' => ?_
  refine closes_access (Verdict.drops_error true)
    (fun w => World.steady_of_changes (World.changes_deleteProperty l.native name w))
    (fun deleted w'' hw => ?_) (.refl w')
  cases deleted with
  | true =>
    have hremove : Recalls link name (fun _ => False) w' (w''.removeCreated link name) :=
      hw.trans (World.recalls_removeCreated w'')
    exact hremove.congr fun p => by simp [Verdict.drops]
  | false => exact hw.congr fun p => by simp [Verdict.drops]

theorem Value.decides_put (hl : w.links[link]? = some l)
    (hp : w.hasProperty l.native name = false)
    (ht : (w.realm l.realm).newProperties = .trackCreated) :
    Step.Decides link name (.adopts ())
      ((Value.link link).put name value realm : Evaluation E Unit) w := by
  simp only [Value.put, Step.Decides, Step.settle, hl]
  exact Link.decides_put hp ht

theorem Value.decides_delete :
    Step.Decides link name (.drops true)
      ((Value.link link).delete name realm : Evaluation E Bool) w := by
  simp only [Value.delete, Step.Decides, Step.settle]
  split
  · exact Link.decides_delete
  · exact ⟨.refl w, trivial⟩

end Accesses

namespace ValueOperation

variable {w : World E} {op : ValueOperation}

theorem decides_creating (realm : RealmId) (hw : op.writing? = some (.link link, name))
    (hc : op.creates w = true) :
    Step.Decides link name (.adopts (.result .done)) (op.step realm : Evaluation E Reply) w := by
  have hlink : ∃ l, w.links[link]? = some l := by
    simp only [creates, hw, Option.any_eq_true] at hc
    obtain ⟨l, hl, -⟩ := hc
    exact ⟨l, hl⟩
  obtain ⟨l, hl⟩ := hlink
  obtain ⟨hp, ht⟩ := (creates_iff hw hl).mp hc
  have done : ∀ (flow : Flow Unit) (p : Prop),
      Verdict.adopts (Reply.result .done) (flow.map fun _ => Reply.result .done) p ↔
        Verdict.adopts () flow p :=
    Verdict.adopts_map (g := fun _ : Unit => Reply.result .done) fun _ _ => rfl
  cases op with
  | put base other value =>
    cases hw
    exact (Value.decides_put hl hp ht).map done
  | set r value =>
    obtain ⟨base, other, access⟩ := r
    cases hw
    refine Step.Decides.map (s := Reference.set _ value realm) ?_ done
    unfold Reference.set
    split
    · exact decides_fail realm _
    · exact Value.decides_put hl hp ht
  | _ => cases hw

theorem decides_deleting (realm : RealmId) (hd : op.deleting? = some (.link link, name)) :
    Step.Decides link name (.drops (.result (.flag true))) (op.step realm : Evaluation E Reply)
      w := by
  have flag : ∀ (flow : Flow Bool) (p : Prop),
      Verdict.drops (Reply.result (.flag true)) (flow.map fun b => Reply.result (.flag b)) p ↔
        Verdict.drops true flow p :=
    Verdict.drops_map (g := fun b : Bool => Reply.result (.flag b)) fun b hb => by
      injection hb with hb
      injection hb
  cases op with
  | delete base other =>
    cases hd
    exact Value.decides_delete.map flag
  | remove r =>
    obtain ⟨base, other, access⟩ := r
    cases hd
    refine Step.Decides.map (s := Reference.delete _ realm) ?_ flag
    unfold Reference.delete
    split
    · exact decides_fail realm _
    · exact Value.decides_delete
  | _ => cases hd

/-- An operation that neither creates the property through the link nor deletes it there is steady
    all along. -/
theorem steady_step (realm : RealmId)
    (hw : op.writing? = some (.link link, name) → op.creates w = false)
    (hd : op.deleting? ≠ some (.link link, name)) :
    (op.step realm : Evaluation E Reply).Makes (Steady link name) w := by
  -- every other name may come and go
  let others (id : LinkId) (other : String) : Prop := ¬ (id = link ∧ other = name)
  have htouches : (op.step realm : Evaluation E Reply).Touches ⟨others, others, True⟩ w := by
    refine touches_step realm (fun id other h hc => ?_) (fun id other h => ?_) fun _ => trivial
    · rintro ⟨rfl, rfl⟩
      rw [hw h] at hc
      cases hc
    · rintro ⟨rfl, rfl⟩
      exact hd h
  have hno : ¬ others link name := fun h => h ⟨rfl, rfl⟩
  exact htouches.mono fun h => h.steady hno hno

end ValueOperation

end ScriptSandbox
