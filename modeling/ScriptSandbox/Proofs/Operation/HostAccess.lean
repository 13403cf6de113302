import ScriptSandbox.Operation.HostAccess
import ScriptSandbox.Proofs.Step.Contract
import ScriptSandbox.Proofs.World.Calm

/-
  Host accesses under a contract.

  Under a contract that allows every calm change, throwing, holding and crossing the boundary keep
  to the contract by themselves. So an access to a host object keeps to it as soon as the method of
  the host object does, in whatever state it is called: the access waits at a checkpoint first
  (`keeps_hostGet`, `keeps_hostSet`, `keeps_hostDelete`).
-/

namespace ScriptSandbox

variable {E α β : Type} {c : Contract (World E)}

/-- The step keeps to the contract, however it comes out. -/
abbrev Step.Keeps (c : Contract (World E)) (s : Evaluation E α) (w : World E) : Prop :=
  s.Meets c (fun _ _ => True) w

/-- Every calm change is allowed. -/
def Contract.Lenient (c : Contract (World E)) : Prop :=
  (∀ r w, c.asks r w) ∧ ∀ {w w' : World E}, w.Calm w' → c.evolves w w'

namespace Evaluation

theorem keeps_bind {s : Evaluation E α} {f : α → Evaluation E β} {w : World E} (h : s.Keeps c w)
    (hf : ∀ a w', c.evolves w w' → (f a).Keeps c w') : Step.Keeps c (s >>= f) w :=
  h.andThen (fun a w' he _ => hf a w' he) fun _ _ _ _ => trivial

theorem keeps_throwing (hc : c.Lenient) {make : World E → Completion × World E}
    (hm : ∀ w : World E, w.Calm (make w).2) (w : World E) :
    Step.Keeps c (throwing make : Evaluation E α) w :=
  ⟨hc.2 (hm w), trivial⟩

theorem keeps_holding (hc : c.Lenient) {things : List Thing} {s : Evaluation E α} {w : World E}
    (h : s.Keeps c (w.hold things)) : Step.Keeps c (holding things s) w :=
  ⟨hc.2 (World.calm_hold things w), h.releasing (fun _ _ => trivial) fun w' _ =>
    hc.2 (World.calm_letGo things w')⟩

theorem keeps_toHost (hc : c.Lenient) (v : Value) (w : World E) : Step.Keeps c (toHost v) w := by
  refine Step.Meets.andThen (P := fun _ _ => True) ⟨hc.2 (World.calm_toHost v w), trivial⟩ ?_
    fun _ _ _ _ => trivial
  intro h? w' _ _
  cases h? <;> trivial

theorem settle_toHost_bind (v : Value) (k : HostValue → Evaluation E α) (w : World E) :
    (toHost v >>= k).settle w =
      match w.toHost v with
      | (some h, w') => (k h).settle w'
      | (none, w') => (.faulted .endlessArray, w') := by
  rw [Step.bind_eq_andThen, toHost, Step.settle_andThen, Step.settle_andThen, Step.settle_compute]
  generalize w.toHost v = converted
  obtain ⟨_ | h, w'⟩ := converted <;> rfl

theorem settle_toHostList_bind (vs : List Value) (k : List HostValue → Evaluation E α)
    (w : World E) :
    (toHostList vs >>= k).settle w =
      match w.toHostList vs with
      | (some hs, w') => (k hs).settle w'
      | (none, w') => (.faulted .endlessArray, w') := by
  rw [Step.bind_eq_andThen, toHostList, Step.settle_andThen, Step.settle_andThen,
    Step.settle_compute]
  generalize w.toHostList vs = converted
  obtain ⟨_ | hs, w'⟩ := converted <;> rfl

theorem keeps_checkpoint (hc : c.Lenient) {k : Unit → Evaluation E α} {w : World E}
    (hk : ∀ w', c.evolves w w' → (k ()).Keeps c w') : Step.Keeps c (Step.checkpoint >>= k) w :=
  Step.meets_checkpoint_bind (hc.1 _ w) hk fun _ _ _ _ => trivial

variable [Embedding E]

theorem keeps_fail (hc : c.Lenient) (realm : RealmId) (f : Failure) (w : World E) :
    Step.Keeps c (fail realm f : Evaluation E α) w :=
  keeps_throwing hc (World.calm_scriptError realm _ _) w

theorem settle_hostResult (realm : RealmId) (method : World E → Except HostError α × World E)
    (w : World E) :
    (hostResult realm method).settle w =
      match method w with
      | (.ok a, w') => (.finished (.ok a), w')
      | (.error e, w') =>
        (.finished (.error (w'.hostError realm e).1), (w'.hostError realm e).2) := by
  rw [hostResult, Step.settle_andThen, Step.settle_compute]
  generalize method w = result
  obtain ⟨e | a, w'⟩ := result <;> rfl

theorem hostSet_bind (realm : RealmId) (n : Native) (name : String) (value : HostValue)
    (k : Unit → Evaluation E β) :
    hostSet realm n name value >>= k = Step.checkpoint >>= fun _ =>
      (holding [.native n] (hostResult realm (World.setProperty n name value))).andThen k :=
  Step.andThen_assoc _ _ _

theorem hostDelete_bind (realm : RealmId) (n : Native) (name : String) (k : Bool → Evaluation E β) :
    hostDelete realm n name >>= k = Step.checkpoint >>= fun _ =>
      (holding [.native n] (hostResult realm (World.deleteProperty n name))).andThen k :=
  Step.andThen_assoc _ _ _

theorem keeps_hostResult (hc : c.Lenient) (realm : RealmId)
    {method : World E → Except HostError α × World E} {w : World E}
    (hm : c.evolves w (method w).2) : Step.Keeps c (hostResult realm method) w := by
  refine Step.Meets.andThen (P := fun _ _ => True) ⟨hm, trivial⟩ ?_ fun _ _ _ _ => trivial
  intro result w' _ _
  cases result with
  | ok a => trivial
  | error e => exact keeps_throwing hc (World.calm_hostError realm e) w'

theorem keeps_enter (hc : c.Lenient) {wrap : Wrapper E}
    (hw : ∀ realm h (w : World E), w.Calm (wrap realm h w).2)
    (realm : RealmId) (h : HostValue) (w : World E) : Step.Keeps c (enter wrap realm h) w :=
  ⟨hc.2 (World.calm_collect h.things w), hc.2 (hw realm h _), trivial⟩

/-- Reading a property keeps to the contract if the method does at any later time. -/
theorem keeps_hostGet (hc : c.Lenient) {wrap : Wrapper E}
    (hw : ∀ realm h (w : World E), w.Calm (wrap realm h w).2) (realm : RealmId) (n : Native)
    (name : String) {w : World E}
    (hm : ∀ w', c.evolves w w' → c.evolves w' (w'.getProperty n name).2) :
    Step.Keeps c (hostGet wrap realm n name) w :=
  keeps_checkpoint hc fun w' he => keeps_holding hc <|
    keeps_bind
      (keeps_hostResult hc realm (hm _ (c.trans he (hc.2 (World.calm_hold [.native n] w')))))
      fun h w'' _ => keeps_enter hc hw realm h w''

theorem keeps_hostSet (hc : c.Lenient) (realm : RealmId) (n : Native) (name : String)
    (value : HostValue) {w : World E}
    (hm : ∀ w', c.evolves w w' → c.evolves w' (w'.setProperty n name value).2) :
    Step.Keeps c (hostSet realm n name value) w :=
  keeps_checkpoint hc fun w' he => keeps_holding hc <|
    keeps_hostResult hc realm (hm _ (c.trans he (hc.2 (World.calm_hold [.native n] w'))))

theorem keeps_hostDelete (hc : c.Lenient) (realm : RealmId) (n : Native) (name : String)
    {w : World E} (hm : ∀ w', c.evolves w w' → c.evolves w' (w'.deleteProperty n name).2) :
    Step.Keeps c (hostDelete realm n name) w :=
  keeps_checkpoint hc fun w' he => keeps_holding hc <|
    keeps_hostResult hc realm (hm _ (c.trans he (hc.2 (World.calm_hold [.native n] w'))))

end Evaluation

end ScriptSandbox
