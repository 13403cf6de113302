import ScriptSandbox.Operation.HostAccess
import ScriptSandbox.Proofs.Step.Contract
import ScriptSandbox.Proofs.Capability.Custody

/-
  Computations with safe values.

  The contract of a computation that works with safe values: in a confined world it hands out safe
  values only, and as long as safe values come back, the world stays confined and the computation
  comes out with a safe value, in a completion as in a result. `Gives` says so of a computation,
  with what is to hold of its results. After the rules come the computations that all operations are
  made of: throwing, crossing to the host, and accesses to host objects.
-/

namespace ScriptSandbox

variable {E α β : Type} [Embedding E]

/-- The values that come with a request. -/
def Request.values : Request → List Value
  | .checkpoint => []
  | .call callee receiver args => callee :: receiver :: args

namespace Ward

variable (k : Ward E)

/-- The world is confined, a result is as `good` says, and a completion carries a safe value. -/
def Outcome (good : α → World E → Prop) : Flow α → World E → Prop
  | .ok a, w => k.Confined w ∧ good a w
  | .error e, w => k.Confined w ∧ k.Safe e.value w

/-- Safe values are handed out, and safe values come back. -/
def closure : Contract (World E) where
  evolves w w' := k.Confined w → k.Later w w'
  refl _ h := h.refl
  trans h h' hw := (h hw).trans (h' (h hw).confined)
  asks r w := k.Confined w ∧ ∀ v ∈ r.values, k.Safe v w
  asks_stable he h := ⟨(he h.1).confined, fun v hv => (he h.1).safe (h.2 v hv)⟩
  answers _ flow w := k.Outcome k.Safe flow w

/-- The computation keeps to the contract, with results that are as `good` says. -/
abbrev Gives (good : α → World E → Prop) (s : Evaluation E α) (w : World E) : Prop :=
  s.Meets k.closure (k.Outcome good) w

/-- What is said of results stays true. -/
def Lasting (good : α → World E → Prop) : Prop :=
  ∀ a w w', k.Later w w' → good a w → good a w'

/-- Nothing is said of results. -/
def Any : α → World E → Prop := fun _ _ => True

variable {k} {good : α → World E → Prop} {good' : β → World E → Prop} {w : World E}

theorem lasting_any : k.Lasting (Any (E := E) (α := α)) :=
  fun _ _ _ _ _ => trivial

theorem lasting_safe : k.Lasting k.Safe := fun _ _ _ hl h => hl.safe h

theorem stable_outcome (hg : k.Lasting good) : k.closure.Stable (k.Outcome good) := by
  intro flow w w' he h
  cases flow with
  | ok a => exact ⟨(he h.1).confined, hg a w w' (he h.1) h.2⟩
  | error e => exact ⟨(he h.1).confined, (he h.1).safe h.2⟩

/-! ## Rules -/

theorem Confined.ready (h : k.Confined w) {a : α} (ha : good a w) :
    k.Gives good (Step.ready a) w := ⟨h, ha⟩

theorem Gives.bind {s : Evaluation E α} {f : α → Evaluation E β} (hs : k.Gives good s w)
    (h : k.Confined w) (hf : ∀ a w', k.Later w w' → good a w' → k.Gives good' (f a) w') :
    k.Gives good' (s >>= f) w :=
  Step.Meets.andThen hs (fun a w' he hp => hf a w' ⟨hp.1, (he h).safe⟩ hp.2) fun _ _ _ hp => hp

/-- A computation whose result is passed through a function. -/
theorem Gives.map {s : Evaluation E α} {f : α → β} (hs : k.Gives good s w) (h : k.Confined w)
    (hf : ∀ {a w'}, k.Later w w' → good a w' → good' (f a) w') :
    k.Gives good' (s >>= fun a => Step.ready (f a)) w :=
  hs.bind h fun _ _ hl ha => hl.confined.ready (hf hl ha)

theorem gives_compute {f : World E → α × World E}
    (hf : k.Later w (f w).2) (ha : good (f w).1 (f w).2) : k.Gives good (Step.compute f) w :=
  ⟨fun _ => hf, hf.confined, ha⟩

theorem gives_write {change : World E → World E}
    (hc : k.Later w (change w)) : k.Gives Any (Step.write change) w :=
  ⟨fun _ => hc, hc.confined, trivial⟩

theorem Confined.orFault (h : k.Confined w) (r : Except Fault α) :
    k.Gives Any (Step.orFault r) w := by
  cases r with
  | ok a => exact ⟨h, trivial⟩
  | error e => trivial

theorem Confined.checkpoint (h : k.Confined w) {s : Unit → Evaluation E α}
    (hs : ∀ w', k.Later w w' → k.Gives good (s ()) w') :
    k.Gives good (Step.checkpoint >>= s) w :=
  Step.meets_checkpoint_bind ⟨h, fun _ hv => by cases hv⟩ (fun w' he => hs w' (he h))
    fun _ _ _ ha => ha

theorem Confined.request (h : k.Confined w) {r : Request} (hr : ∀ v ∈ r.values, k.Safe v w) :
    k.Gives k.Safe (Step.request r) w :=
  Step.meets_request ⟨h, hr⟩ fun _ _ _ ha => ha

theorem Confined.holding (h : k.Confined w) (hg : k.Lasting good) {things : List Thing}
    {s : Evaluation E α} (hs : ∀ w', k.Later w w' → k.Gives good s w') :
    k.Gives good (Evaluation.holding things s) w :=
  ⟨fun h => h.hold things, Step.Meets.releasing (hs _ (h.hold things)) (stable_outcome hg)
    fun _ _ h' => h'.letGo things⟩

theorem Confined.holdingAtFirst (h : k.Confined w) (hg : k.Lasting good) {things : List Thing}
    {s : Evaluation E α} (hs : ∀ w', k.Later w w' → k.Gives good s w') :
    k.Gives good (Evaluation.holdingAtFirst things s) w :=
  ⟨fun h => h.hold things, Step.Meets.untilRequest (hs _ (h.hold things)) (stable_outcome hg)
    fun _ _ h' => h'.letGo things⟩

/-! ## Throwing and crossing -/

theorem gives_throwing {make : World E → Completion × World E}
    (hm : k.Later w (make w).2 ∧ k.Safe (make w).1.value (make w).2) :
    k.Gives good (Evaluation.throwing make) w :=
  ⟨fun _ => hm.1, hm.1.confined, hm.2⟩

theorem Confined.fail (h : k.Confined w) (realm : RealmId) (f : Failure) :
    k.Gives good (Evaluation.fail realm f) w :=
  gives_throwing (h.scriptError realm _ _)

theorem Confined.crosses (h : k.Confined w) {v : Value} (hv : k.Safe v w) :
    k.Gives k.SafeHost (Evaluation.toHost v) w := by
  obtain ⟨hl, hs⟩ := h.toHost hv
  refine Step.Meets.andThen (P := k.Outcome fun a? w => ∀ {a}, a? = some a → k.SafeHost a w)
    (gives_compute hl hs) (fun a? w' _ hp => ?_) fun _ _ _ hp => hp
  cases a? with
  | none => trivial
  | some a => exact ⟨hp.1, hp.2 rfl⟩

theorem Confined.crossesAll (h : k.Confined w) {vs : List Value} (hv : ∀ v ∈ vs, k.Safe v w) :
    k.Gives (fun as w => ∀ a ∈ as, k.SafeHost a w) (Evaluation.toHostList vs) w := by
  obtain ⟨hl, hs⟩ := Confined.toHostAll (fun h hv => h.toHost hv) vs h hv
  refine Step.Meets.andThen
    (P := k.Outcome fun as? w => ∀ {as}, as? = some as → ∀ a ∈ as, k.SafeHost a w)
    (gives_compute hl hs) (fun as? w' _ hp => ?_) fun _ _ _ hp => hp
  cases as? with
  | none => trivial
  | some as => exact ⟨hp.1, hp.2 rfl⟩

/-! ## Host accesses -/

variable (k) in
/-- The host value comes in safely through the wrapper, now and later. -/
def Enters (wrap : Wrapper E) (realm : RealmId) (v : HostValue) (w : World E) : Prop :=
  ∀ w', k.Later w w' →
    k.Later w' (wrap realm v w').2 ∧ k.Safe (wrap realm v w').1 (wrap realm v w').2

theorem SafeHost.enters {v : HostValue} (hv : k.SafeHost v w) (realm : RealmId) :
    k.Enters World.link realm v w :=
  fun _ hl => Confined.link realm v hl.confined (hv.later hl)

theorem gives_hostResult (realm : RealmId)
    {method : World E → Except HostError α × World E}
    (hm : k.Later w (method w).2 ∧ ∀ {a}, (method w).1 = .ok a → good a (method w).2) :
    k.Gives good (Evaluation.hostResult realm method) w := by
  refine Step.Meets.andThen (P := k.Outcome fun r w => ∀ {a}, r = .ok a → good a w)
    (gives_compute hm.1 hm.2) (fun result w' _ hp => ?_) fun _ _ _ hp => hp
  cases result with
  | ok a => exact ⟨hp.1, hp.2 rfl⟩
  | error e => exact gives_throwing (hp.1.hostError realm e)

theorem Confined.enter (h : k.Confined w) {wrap : Wrapper E} {realm : RealmId} {v : HostValue}
    (hv : k.Enters wrap realm v w) : k.Gives k.Safe (Evaluation.enter wrap realm v) w := by
  have hc := h.collect v.things
  refine (gives_write hc).bind h ?_
  intro _ w' hl _
  exact gives_compute (hv w' hl).1 (hv w' hl).2

theorem Confined.hostGet (h : k.Confined w) {wrap : Wrapper E} {realm : RealmId} {n : Native}
    {name : String}
    (hv : ∀ {w' v}, k.Later w w' → (w'.getProperty n name).1 = .ok v →
      k.Enters wrap realm v (w'.getProperty n name).2) :
    k.Gives k.Safe (Evaluation.hostGet wrap realm n name) w :=
  h.checkpoint fun _ hl => hl.confined.holding lasting_safe fun _ hl' =>
    Gives.bind (gives_hostResult realm
      ⟨(hl'.confined.getProperty n name).1, hv (hl.trans hl')⟩) hl'.confined
      fun _ _ hl'' he => hl''.confined.enter he

theorem Confined.hostSet (h : k.Confined w) (realm : RealmId) (n : Native) (name : String)
    {value : HostValue} (hv : k.SafeHost value w) :
    k.Gives Any (Evaluation.hostSet realm n name value) w :=
  h.checkpoint fun _ hl => hl.confined.holding lasting_any fun _ hl' =>
    gives_hostResult realm
      ⟨hl'.confined.setProperty n name (hv.later (hl.trans hl')), fun _ => trivial⟩

theorem Confined.hostDelete (h : k.Confined w) (realm : RealmId) (n : Native) (name : String) :
    k.Gives Any (Evaluation.hostDelete realm n name) w :=
  h.checkpoint fun _ hl => hl.confined.holding lasting_any fun _ hl' =>
    gives_hostResult realm ⟨hl'.confined.deleteProperty n name, fun _ => trivial⟩

/-- A call through a link. -/
theorem Confined.hostCall (h : k.Confined w) (realm : RealmId) (n : Native) {receiver : Value}
    {args : List Value} (hr : k.Safe receiver w) (ha : ∀ a ∈ args, k.Safe a w) :
    k.Gives k.Safe (Evaluation.hostCall World.link realm n receiver args) w := by
  refine Step.meets_read_bind ?_
  split
  · refine (h.crosses hr).bind h ?_
    intro receiver w₁ hl₁ hr₁
    refine (hl₁.confined.crossesAll fun a ha' => hl₁.safe (ha a ha')).bind hl₁.confined ?_
    intro args w₂ hl₂ ha₂
    refine hl₂.confined.checkpoint fun w₃ hl₃ => hl₃.confined.holding lasting_safe fun w₄ hl₄ => ?_
    have hl := hl₃.trans hl₄
    obtain ⟨hc, hs⟩ := hl₄.confined.callNative n (hr₁.later (hl₂.trans hl))
      fun a ha' => (ha₂ a ha').later hl
    exact Gives.bind (gives_hostResult realm ⟨hc, fun he => (hs he).enters realm⟩)
      hl₄.confined fun _ _ hl₅ he => hl₅.confined.enter he
  · exact Step.meets_read_bind (h.fail realm _)

theorem Confined.hostToPrimitive (h : k.Confined w) (n : Native) :
    k.Gives Any (Evaluation.hostToPrimitive n) w :=
  h.checkpoint fun _ hl => gives_compute (hl.confined.hostPrimitive n) trivial

end Ward

end ScriptSandbox
