import ScriptSandbox.Proofs.Guard.Integrity
import ScriptSandbox.Proofs.Step.Suspension
import ScriptSandbox.Proofs.World.Wrapper

/-
  Accesses behind checkpoints.

  An operation on a wrapper asks once at most, at a checkpoint, and makes one access to the host
  object at most, right behind it. Up to the checkpoint only calm changes happen; an abrupt answer
  changes nothing at all. `Prudent` says this of a computation, with the access that it may make,
  and `Performs` says of what stands behind the checkpoint that it makes that access and ends.

  An embedding with a journal notes every access that is made, so the main statement can count them:
  an operation in a run, under whatever limits and handler, adds one entry if its checkpoint was
  answered with a result and none otherwise (`accesses_behind_checkpoints`).
-/

namespace ScriptSandbox

/-! ## Accesses -/

/-- An access to a host object. -/
inductive HostAccess where
  | get (n : Native) (name : String)
  | set (n : Native) (name : String) (value : HostValue)
  | delete (n : Native) (name : String)
  | call (n : Native) (receiver : HostValue) (args : List HostValue)
  | primitive (n : Native)

namespace HostAccess

variable {E : Type} [Embedding E]

def native : HostAccess → Native
  | get n _ | set n _ _ | delete n _ | call n _ _ | primitive n => n

/-- Whether the access fails, and the embedding after it. -/
def perform (w : World E) : HostAccess → Bool × E
  | get n name => (!(w.getProperty n name).1.isOk, (w.getProperty n name).2.embedding)
  | set n name value =>
    (!(w.setProperty n name value).1.isOk, (w.setProperty n name value).2.embedding)
  | delete n name => (!(w.deleteProperty n name).1.isOk, (w.deleteProperty n name).2.embedding)
  | call n receiver args =>
    (!(w.callNative n receiver args).1.isOk, (w.callNative n receiver args).2.embedding)
  | primitive n => (false, (w.primitiveForm n).2.embedding)

theorem perform_get_error (serial : Nat) (errorName message name : String) (w : World E) :
    (get (.error serial errorName message) name).perform w = (false, w.embedding) := by
  obtain ⟨v, -, hv⟩ := World.getProperty_error (E := E) serial errorName message name
  simp only [perform, hv]
  rfl

/-- Only the embedding decides how an access comes out. -/
theorem perform_congr {w w' : World E} (h : w'.embedding = w.embedding) (a : HostAccess) :
    a.perform w' = a.perform w := by
  rcases a with ⟨n, name⟩ | ⟨n, name, value⟩ | ⟨n, name⟩ | ⟨n, receiver, args⟩ | ⟨n⟩ <;>
    rcases n with ⟨serial, errorName, message⟩ | ⟨serial, target⟩ | id
  case get.error => rw [perform_get_error, perform_get_error, h]
  all_goals
    simp only [perform, World.getProperty, World.setProperty, World.deleteProperty,
      World.callNative, World.primitiveForm, World.hosted, h]
  -- a bookmark fails when it is called, whatever its text is
  all_goals rfl

end HostAccess

/-- An embedding together with a journal of the accesses to its objects, the latest one last. -/
structure Journal (E : Type) where
  host : E
  log : List HostAccess

namespace Journal

variable {E α : Type} [Embedding E]

/-- Make an access and note it. -/
def noting (a : HostAccess) (method : E → α × E) (j : Journal E) : α × Journal E :=
  ((method j.host).1, ⟨(method j.host).2, j.log ++ [a]⟩)

instance : Embedding (Journal E) where
  display j := Embedding.display j.host
  has j := Embedding.has j.host
  get id name := noting (.get (.hosted id) name) (Embedding.get id name)
  set id name value := noting (.set (.hosted id) name value) (Embedding.set id name value)
  delete id name := noting (.delete (.hosted id) name) (Embedding.delete id name)
  callable j := Embedding.callable j.host
  call id receiver args :=
    noting (.call (.hosted id) receiver args) (Embedding.call id receiver args)
  policy j := Embedding.policy j.host
  primitive id := noting (.primitive (.hosted id)) (Embedding.primitive id)
  roots j := Embedding.roots j.host
  contents j := Embedding.contents j.host

/-- What the journal notes of an access: errors and bookmarks are no objects of the embedding. -/
def entries (a : HostAccess) : List HostAccess :=
  match a.native with
  | .hosted _ => [a]
  | _ => []

theorem log_perform (a : HostAccess) (w : World (Journal E)) :
    (a.perform w).2.log = w.embedding.log ++ entries a := by
  rcases a with ⟨n, name⟩ | ⟨n, name, value⟩ | ⟨n, name⟩ | ⟨n, receiver, args⟩ | ⟨n⟩ <;>
    rcases n with ⟨serial, errorName, message⟩ | ⟨serial, target⟩ | id
  case get.error =>
    rw [HostAccess.perform_get_error]
    exact (List.append_nil _).symm
  all_goals first | exact (List.append_nil _).symm | rfl

end Journal

/-! ## One access behind one checkpoint -/

/-- The world with another embedding. -/
def World.withEmbedding {E : Type} (w : World E) (e : E) : World E := { w with embedding := e }

variable {E α β : Type} [Embedding E]

/-- From one world to a later one an access was made and an outcome was reached. If the access
    failed, the outcome is a throw, and nothing else has changed since. -/
structure HostAccess.Made (a : HostAccess) (flow : Flow α) (w w' : World E) : Prop where
  embedding : w'.embedding = (a.perform w).2
  failed : (a.perform w).1 = true →
    (∃ v, flow = .error (.thrown v)) ∧ World.Calm (w.withEmbedding (a.perform w).2) w'

/-- The computation makes the access and comes to an outcome, without asking. -/
def HostAccess.Performs (a : HostAccess) (s : Evaluation E α) : Prop :=
  ∀ w, ∃ flow w', s.settle w = (.finished flow, w') ∧ a.Made flow w w'

/-- The front is an end, or a checkpoint that holds nothing. Behind the checkpoint an abrupt answer
    is the outcome, and a result lets one of the admitted accesses through. -/
def Step.Front.Prudent (admits : HostAccess → Prop) : Step.Front (World E) α → Prop
  | .finished _ | .faulted _ => True
  | .waiting r release resume =>
    r = .checkpoint ∧ release = id ∧
      (∀ c w, (resume (.error c)).settle w = (.finished (.error c), w)) ∧
      ∃ a, admits a ∧ ∀ v, a.Performs (resume (.ok v))

/-- From a world on, the computation gets to a prudent front by calm changes. -/
def Step.Prudent (admits : HostAccess → Prop) (s : Evaluation E α) (w : World E) : Prop :=
  w.Calm (s.settle w).2 ∧ (s.settle w).1.Prudent admits

namespace HostAccess

variable {a : HostAccess}

theorem Performs.andThen {s : Evaluation E α} {f : α → Evaluation E β} (h : a.Performs s)
    (hf : ∀ x w, ∃ flow w', (f x).settle w = (.finished flow, w') ∧ w'.embedding = w.embedding) :
    a.Performs (s.andThen f) := by
  intro w
  obtain ⟨flow, w₁, hs, hmade⟩ := h w
  rw [Step.settle_andThen, hs]
  cases flow with
  | ok x =>
    obtain ⟨flow', w₂, hx, he⟩ := hf x w₁
    refine ⟨flow', w₂, hx, he.trans hmade.embedding, fun hfail => ?_⟩
    obtain ⟨⟨v, hv⟩, -⟩ := hmade.failed hfail
    cases hv
  | error c =>
    refine ⟨.error c, w₁, rfl, hmade.embedding, fun hfail => ?_⟩
    obtain ⟨⟨v, hv⟩, hcalm⟩ := hmade.failed hfail
    cases hv
    exact ⟨⟨v, rfl⟩, hcalm⟩

theorem Performs.holding {things : List Thing} {s : Evaluation E α} (h : a.Performs s) :
    a.Performs (Evaluation.holding things s) := by
  intro w
  obtain ⟨flow, w₁, hs, hmade⟩ := h (w.hold things)
  have he : (w.hold things).embedding = w.embedding := rfl
  have hperform : a.perform (w.hold things) = a.perform w := a.perform_congr he
  refine ⟨flow, w₁.letGo things, ?_, ?_, fun hfail => ?_⟩
  · show Step.settle (s.releasing _) (w.hold things) = _
    rw [Step.settle_releasing, hs]
  · rw [← hperform]
    exact hmade.embedding
  · rw [← hperform] at hfail ⊢
    obtain ⟨hthrown, hcalm⟩ := hmade.failed hfail
    refine ⟨hthrown, World.Calm.trans ?_ (hcalm.trans (World.calm_letGo things w₁))⟩
    exact .of_eq rfl rfl

theorem exists_thrown_hostError (realm : RealmId) (e : HostError) (w : World E) :
    ∃ v, (w.hostError realm e).1 = .thrown v := by
  cases e <;> exact ⟨_, rfl⟩

/-- The result of a host method, for an access that is this method. -/
theorem performs_hostResult (realm : RealmId) {method : World E → Except HostError α × World E}
    (h : ∀ w, a.perform w = (!(method w).1.isOk, (method w).2.embedding))
    (hw : ∀ w, (method w).2 = w.withEmbedding (method w).2.embedding) :
    a.Performs (Evaluation.hostResult realm method) := by
  intro w
  have hperform := h w
  have hembedding := hw w
  rw [Evaluation.settle_hostResult]
  generalize method w = result at hperform hembedding ⊢
  obtain ⟨e | x, w'⟩ := result
  · obtain ⟨v, hv⟩ := exists_thrown_hostError realm e w'
    have hcalm := World.calm_hostError realm e w'
    refine ⟨_, _, rfl, ?_, fun _ => ⟨⟨v, congrArg Except.error hv⟩, ?_⟩⟩
    · rw [hcalm.embedding, hperform]
    · rw [hperform, ← hembedding]
      exact hcalm
  · refine ⟨.ok x, w', rfl, by rw [hperform], fun hfail => ?_⟩
    rw [hperform] at hfail
    cases hfail

end HostAccess

namespace Step

variable {admits : HostAccess → Prop} {w : World E}

theorem prudent_inspect {next : World E → Evaluation E α} :
    Prudent admits (.inspect next) w ↔ Prudent admits (next w) w := Iff.rfl

theorem prudent_ready (x : α) : (ready x : Evaluation E α).Prudent admits w :=
  ⟨.refl w, trivial⟩

theorem prudent_fail (realm : RealmId) (f : Failure) :
    (Evaluation.fail realm f : Evaluation E α).Prudent admits w :=
  ⟨World.calm_scriptError realm _ _ w, trivial⟩

theorem prudent_unless {c : Prop} [Decidable c] {s : Evaluation E α} {realm : RealmId} {f : Failure}
    (hs : Prudent admits s w) : Prudent admits (if c then Evaluation.fail realm f else s) w := by
  split
  · exact prudent_fail realm f
  · exact hs

theorem prudent_checkpoint_bind {k : Unit → Evaluation E α} {a : HostAccess} (ha : admits a)
    (hk : a.Performs (k ())) : Prudent admits (checkpoint >>= k) w :=
  ⟨.refl w, rfl, rfl, fun _ _ => rfl, a, ha, fun _ => hk⟩

theorem prudent_toHost_bind {v : Value} {k : HostValue → Evaluation E α}
    (hk : ∀ h w', Prudent admits (k h) w') : Prudent admits (Evaluation.toHost v >>= k) w := by
  have hcalm := World.calm_toHost v w
  rw [Prudent, Evaluation.settle_toHost_bind]
  generalize w.toHost v = converted at hcalm ⊢
  obtain ⟨_ | h, w'⟩ := converted
  · exact ⟨hcalm, trivial⟩
  · exact ⟨hcalm.trans (hk h w').1, (hk h w').2⟩

theorem prudent_toHostList_bind {vs : List Value} {k : List HostValue → Evaluation E α}
    (hk : ∀ hs w', Prudent admits (k hs) w') :
    Prudent admits (Evaluation.toHostList vs >>= k) w := by
  have hcalm : w.Calm (w.toHostList vs).2 := World.calm_toHostAll World.calm_toHost vs w
  rw [Prudent, Evaluation.settle_toHostList_bind]
  generalize w.toHostList vs = converted at hcalm ⊢
  obtain ⟨_ | hs, w'⟩ := converted
  · exact ⟨hcalm, trivial⟩
  · exact ⟨hcalm.trans (hk hs w').1, (hk hs w').2⟩

/-- Whatever becomes of a result without another change, the computation stays prudent. -/
theorem Prudent.map {s : Evaluation E α} (h : s.Prudent admits w) (g : α → β) :
    Prudent admits (s >>= fun x => pure (g x)) w := by
  rw [Prudent, bind_eq_andThen, settle_andThen]
  obtain ⟨hcalm, hfront⟩ := h
  generalize s.settle w = settled at hcalm hfront
  obtain ⟨front, w₁⟩ := settled
  cases front with
  | finished flow => cases flow <;> exact ⟨hcalm, trivial⟩
  | faulted e => exact ⟨hcalm, trivial⟩
  | waiting r release resume =>
    obtain ⟨hr, hrelease, hthrow, a, ha, hperforms⟩ := hfront
    refine ⟨hcalm, hr, hrelease, fun c w' => ?_, a, ha, fun v => ?_⟩
    · rw [settle_andThen, hthrow]
    · exact (hperforms v).andThen fun x w' => ⟨.ok (g x), w', rfl, rfl⟩

end Step

/-! ## Host accesses -/

namespace Evaluation

variable {admits : HostAccess → Prop} {w : World E} {realm : RealmId} {n : Native}

theorem performs_getProperty (realm : RealmId) (n : Native) (name : String) :
    (HostAccess.get n name).Performs
      (hostResult realm (World.getProperty n name) : Evaluation E HostValue) := by
  refine HostAccess.performs_hostResult realm (fun _ => rfl) fun w => ?_
  cases n with
  | error serial errorName message =>
    obtain ⟨v, -, hv⟩ := World.getProperty_error (E := E) serial errorName message name
    rw [hv]
    rfl
  | bookmark serial target => rfl
  | hosted id => rfl

theorem performs_setProperty (realm : RealmId) (n : Native) (name : String) (value : HostValue) :
    (HostAccess.set n name value).Performs
      (hostResult realm (World.setProperty n name value) : Evaluation E Unit) :=
  HostAccess.performs_hostResult realm (fun _ => rfl) fun w => by cases n <;> rfl

theorem performs_deleteProperty (realm : RealmId) (n : Native) (name : String) :
    (HostAccess.delete n name).Performs
      (hostResult realm (World.deleteProperty n name) : Evaluation E Bool) :=
  HostAccess.performs_hostResult realm (fun _ => rfl) fun w => by cases n <;> rfl

theorem performs_callNative (realm : RealmId) (n : Native) (receiver : HostValue)
    (args : List HostValue) :
    (HostAccess.call n receiver args).Performs
      (hostResult realm (World.callNative n receiver args) : Evaluation E HostValue) :=
  HostAccess.performs_hostResult realm (fun _ => rfl) fun w => by cases n <;> rfl

/-- What a host object gave comes into the script without another access. -/
theorem settle_enter {wrap : Wrapper E} (hw : ∀ realm h (w : World E), w.Calm (wrap realm h w).2)
    (realm : RealmId) (h : HostValue) (w : World E) : ∃ flow w',
      (enter wrap realm h).settle w = (.finished flow, w') ∧ w'.embedding = w.embedding :=
  ⟨_, _, rfl, ((World.calm_collect h.things w).trans (hw realm h _)).embedding⟩

theorem prudent_hostGet {wrap : Wrapper E} (hw : ∀ realm h (w : World E), w.Calm (wrap realm h w).2)
    {name : String} (ha : admits (.get n name)) : (hostGet wrap realm n name).Prudent admits w :=
  Step.prudent_checkpoint_bind ha
    ((performs_getProperty realm n name).andThen (settle_enter hw realm)).holding

theorem prudent_hostSet_bind {name : String} {value : HostValue} (ha : admits (.set n name value))
    {k : Unit → Evaluation E α}
    (hk : ∀ w, ∃ flow w', (k ()).settle w = (.finished flow, w') ∧ w'.embedding = w.embedding) :
    Step.Prudent admits (hostSet realm n name value >>= k) w := by
  rw [hostSet_bind]
  exact Step.prudent_checkpoint_bind ha
    ((performs_setProperty realm n name value).holding.andThen fun _ => hk)

theorem prudent_hostSet {name : String} {value : HostValue} (ha : admits (.set n name value)) :
    (hostSet realm n name value : Evaluation E Unit).Prudent admits w :=
  Step.prudent_checkpoint_bind ha (performs_setProperty realm n name value).holding

theorem prudent_hostDelete_bind {name : String} (ha : admits (.delete n name))
    {k : Bool → Evaluation E α}
    (hk : ∀ b w, ∃ flow w', (k b).settle w = (.finished flow, w') ∧ w'.embedding = w.embedding) :
    Step.Prudent admits (hostDelete realm n name >>= k) w := by
  rw [hostDelete_bind]
  exact Step.prudent_checkpoint_bind ha
    ((performs_deleteProperty realm n name).holding.andThen hk)

theorem prudent_hostDelete {name : String} (ha : admits (.delete n name)) :
    (hostDelete realm n name : Evaluation E Bool).Prudent admits w :=
  Step.prudent_checkpoint_bind ha (performs_deleteProperty realm n name).holding

theorem prudent_hostCall {wrap : Wrapper E}
    (hw : ∀ realm h (w : World E), w.Calm (wrap realm h w).2) {receiver : Value}
    {args : List Value} (ha : ∀ receiver args, admits (.call n receiver args)) :
    (hostCall wrap realm n receiver args).Prudent admits w := by
  show Step.Prudent admits (ite (w.isNativeCallable n = true) _ _) w
  split
  · refine Step.prudent_toHost_bind fun receiver' w' => Step.prudent_toHostList_bind ?_
    intro args' w''
    exact Step.prudent_checkpoint_bind (ha receiver' args')
      ((performs_callNative realm n receiver' args').andThen (settle_enter hw realm)).holding
  · exact Step.prudent_fail realm _

/-- After a host object was asked for its primitive form, its text may be made, but nothing else is
    asked. -/
theorem embedding_hostPrimitive (n : Native) (w : World E) :
    (w.hostPrimitive n).2.embedding = (w.primitiveForm n).2.embedding := by
  unfold World.hostPrimitive
  split
  · next w' hr =>
    rw [hr]
    exact (World.calm_newText _ w').embedding
  · next h w' hr =>
    rw [hr]
    have halone := World.calm_fromHostIn none h w'
    split
    · next p w'' hr' =>
      rw [hr'] at halone
      exact halone.embedding
    · next w'' _ hr' =>
      rw [hr'] at halone
      exact (halone.trans (World.calm_newText _ w'')).embedding

theorem prudent_hostToPrimitive (ha : admits (.primitive n)) :
    (hostToPrimitive n : Evaluation E Primitive).Prudent admits w := by
  refine Step.prudent_checkpoint_bind ha fun w' => ?_
  exact ⟨_, _, rfl, embedding_hostPrimitive n w', fun h => by cases h⟩

end Evaluation

/-! ## Wrappers -/

namespace Link

open Evaluation

variable {admits : HostAccess → Prop} {w : World E} {l : Link} {id : LinkId} {name : String}

theorem prudent_member (ha : admits (.get l.native name)) :
    (l.member name : Evaluation E Value).Prudent admits w := by
  show Step.Prudent admits (ite ((!w.hasProperty l.native name) = true) _ _) w
  split
  · exact Step.prudent_ready _
  · show Step.Prudent admits (ite ((!w.allowsRead l name) = true) _ _) w
    exact Step.prudent_unless (prudent_hostGet World.calm_link ha)

/-- Whether the property is remembered is decided behind the access. -/
theorem prudent_put {value : Value} (ha : ∀ h, admits (.set l.native name h)) :
    (l.put id name value : Evaluation E Unit).Prudent admits w := by
  show Step.Prudent admits (ite ((!!w.hasProperty l.native name && !w.allowsWrite l name) = true)
    _ _) w
  refine Step.prudent_unless (Step.prudent_toHost_bind fun h w' => ?_)
  refine prudent_hostSet_bind (ha h) fun w'' => ?_
  split <;> exact ⟨_, _, rfl, rfl⟩

theorem prudent_delete (ha : admits (.delete l.native name)) :
    (l.delete id name : Evaluation E Bool).Prudent admits w := by
  show Step.Prudent admits (ite ((!w.hasProperty l.native name) = true) _ _) w
  split
  · exact Step.prudent_ready _
  · show Step.Prudent admits (ite ((!w.allowsWrite l name) = true) _ _) w
    refine Step.prudent_unless (prudent_hostDelete_bind ha fun b w' => ?_)
    cases b <;> exact ⟨_, _, rfl, rfl⟩

end Link

namespace Bridge

open Evaluation

variable {admits : HostAccess → Prop} {w : World E} {b : Bridge} {name : String}

theorem prudent_member (ha : admits (.get b.native name)) :
    (b.member name : Evaluation E Value).Prudent admits w := by
  show Step.Prudent admits (ite (w.hasProperty b.native name = true) _ _) w
  split
  · exact prudent_hostGet World.calm_fromHost ha
  · exact Step.prudent_ready _

theorem prudent_put {value : Value} (ha : ∀ h, admits (.set b.native name h)) :
    (b.put name value : Evaluation E Unit).Prudent admits w :=
  Step.prudent_toHost_bind fun h _ => prudent_hostSet (ha h)

end Bridge

namespace WrapperKind

open Evaluation

variable {admits : HostAccess → Prop} {w : World E} {id : Nat} {realm : RealmId} {name : String}

theorem prudent_member (k : WrapperKind)
    (ha : ∀ n, w.native? (k.value id) = some n → admits (.get n name)) :
    ((k.value id).member name realm : Evaluation E Value).Prudent admits w := by
  cases k with
  | bridge =>
    simp only [WrapperKind.value, Value.member, Step.prudent_inspect]
    split
    · next b hb => exact Bridge.prudent_member (ha b.native (congrArg (Option.map _) hb))
    · exact Step.prudent_ready _
  | link =>
    simp only [WrapperKind.value, Value.member, Step.prudent_inspect]
    split
    · next l hl => exact Link.prudent_member (ha l.native (congrArg (Option.map _) hl))
    · exact Step.prudent_ready _

theorem prudent_put (k : WrapperKind) {value : Value}
    (ha : ∀ n h, w.native? (k.value id) = some n → admits (.set n name h)) :
    ((k.value id).put name value realm : Evaluation E Unit).Prudent admits w := by
  cases k with
  | bridge =>
    simp only [WrapperKind.value, Value.put, Step.prudent_inspect]
    split
    · next b hb =>
      exact Bridge.prudent_put fun h => ha b.native h (congrArg (Option.map _) hb)
    · exact Step.prudent_ready _
  | link =>
    simp only [WrapperKind.value, Value.put, Step.prudent_inspect]
    split
    · next l hl => exact Link.prudent_put fun h => ha l.native h (congrArg (Option.map _) hl)
    · exact Step.prudent_ready _

theorem prudent_delete (k : WrapperKind)
    (ha : ∀ n, w.native? (k.value id) = some n → admits (.delete n name)) :
    ((k.value id).delete name realm : Evaluation E Bool).Prudent admits w := by
  cases k with
  | bridge =>
    simp only [WrapperKind.value, Value.delete, Step.prudent_inspect]
    split
    · next b hb => exact prudent_hostDelete (ha b.native (congrArg (Option.map _) hb))
    · exact Step.prudent_ready _
  | link =>
    simp only [WrapperKind.value, Value.delete, Step.prudent_inspect]
    split
    · next l hl => exact Link.prudent_delete (ha l.native (congrArg (Option.map _) hl))
    · exact Step.prudent_ready _

theorem prudent_call (k : WrapperKind) {receiver : Value} {args : List Value}
    (ha : ∀ n receiver args, w.native? (k.value id) = some n → admits (.call n receiver args)) :
    ((k.value id).call receiver args realm : Evaluation E Value).Prudent admits w := by
  cases k with
  | bridge =>
    simp only [WrapperKind.value, Value.call, Step.prudent_inspect]
    split
    · next b hb =>
      refine prudent_hostCall World.calm_fromHost fun receiver' args' => ?_
      exact ha b.native receiver' args' (congrArg (Option.map _) hb)
    · exact Step.prudent_fail realm _
  | link =>
    simp only [WrapperKind.value, Value.call, Step.prudent_inspect]
    split
    · next l hl =>
      refine prudent_hostCall World.calm_link fun receiver' args' => ?_
      exact ha l.native receiver' args' (congrArg (Option.map _) hl)
    · exact Step.prudent_fail realm _

theorem prudent_toPrimitive (k : WrapperKind) {hint : Hint}
    (ha : ∀ n, w.native? (k.value id) = some n → admits (.primitive n)) :
    ((k.value id).toPrimitive hint realm : Evaluation E Primitive).Prudent admits w := by
  cases k with
  | bridge =>
    simp only [WrapperKind.value, Value.toPrimitive, toPrimitiveBy, Step.prudent_inspect]
    split
    · next n hn => exact prudent_hostToPrimitive (ha n hn)
    · exact Step.prudent_ready _
  | link =>
    simp only [WrapperKind.value, Value.toPrimitive, toPrimitiveBy, Step.prudent_inspect]
    split
    · next n hn => exact prudent_hostToPrimitive (ha n hn)
    · exact Step.prudent_ready _

end WrapperKind

/-! ## Operations -/

namespace ValueOperation

/-- The value that a host object may have to be accessed for. -/
def target? : ValueOperation → Option Value
  | .member v _ | .put v _ _ | .delete v _ | .call v _ _ | .toPrimitive v _ => some v
  | .get r | .set r _ | .remove r => some r.base
  | _ => none

/-- The access to a host object that an operation is for. -/
def Accesses (n : Native) (a : HostAccess) : ValueOperation → Prop
  | .member _ name => a = .get n name
  | .get r => a = .get n r.name
  | .put _ name _ => ∃ h, a = .set n name h
  | .set r _ => ∃ h, a = .set n r.name h
  | .delete _ name => a = .delete n name
  | .remove r => a = .delete n r.name
  | .call _ _ _ => ∃ receiver args, a = .call n receiver args
  | .toPrimitive _ _ => a = .primitive n
  | _ => False

theorem prudent_step {op : ValueOperation} {k : WrapperKind} {id : Nat}
    (h : op.target? = some (k.value id)) (realm : RealmId) (w : World E) :
    (op.step realm : Evaluation E Reply).Prudent
      (fun a => ∃ n, w.native? (k.value id) = some n ∧ op.Accesses n a) w := by
  cases op with
  | member v name =>
    cases h
    exact (k.prudent_member fun n hn => ⟨n, hn, rfl⟩).map _
  | put v name value =>
    cases h
    exact (k.prudent_put fun n a hn => ⟨n, hn, a, rfl⟩).map _
  | delete v name =>
    cases h
    exact (k.prudent_delete fun n hn => ⟨n, hn, rfl⟩).map _
  | call callee receiver args =>
    cases h
    exact (k.prudent_call fun n receiver' args' hn => ⟨n, hn, receiver', args', rfl⟩).map _
  | toPrimitive v hint =>
    cases h
    exact (k.prudent_toPrimitive fun n hn => ⟨n, hn, rfl⟩).map _
  | get r =>
    obtain ⟨base, name, access⟩ := r
    obtain rfl : base = k.value id := Option.some_inj.mp h
    refine Step.Prudent.map (Step.prudent_unless ?_) _
    exact k.prudent_member fun n hn => ⟨n, hn, rfl⟩
  | set r value =>
    obtain ⟨base, name, access⟩ := r
    obtain rfl : base = k.value id := Option.some_inj.mp h
    refine Step.Prudent.map (Step.prudent_unless ?_) _
    exact k.prudent_put fun n a hn => ⟨n, hn, a, rfl⟩
  | remove r =>
    obtain ⟨base, name, access⟩ := r
    obtain rfl : base = k.value id := Option.some_inj.mp h
    refine Step.Prudent.map (Step.prudent_unless ?_) _
    exact k.prudent_delete fun n hn => ⟨n, hn, rfl⟩
  | refer base name => cases h
  | describe v => cases h
  | unary op v => cases h
  | binary op a b => cases h

end ValueOperation

/-! ## Runs of operations -/

namespace HostAccess

/-- The access was made and noted, and nothing else was. -/
def Noted (a : HostAccess) (flow : Flow α) (w w' : World (Journal E)) : Prop :=
  a.Made flow w w' ∧ w'.embedding.log = w.embedding.log ++ Journal.entries a

theorem Made.noted {a : HostAccess} {flow : Flow α} {w w' : World (Journal E)}
    (h : a.Made flow w w') : a.Noted flow w w' :=
  ⟨h, by rw [h.embedding, Journal.log_perform]⟩

/-- What an operation comes to when the run of its checkpoint alone comes to the first outcome: with
    a result for an answer the access is made, and without one nothing more happens. -/
def Follows (a : HostAccess) :
    Outcome Value × World (Journal E) → Outcome α × World (Journal E) → Prop
  | (.finished (.ok _), w), (outcome, w') => ∃ flow, outcome = .finished flow ∧ a.Noted flow w w'
  | (.finished (.error c), w), (outcome, w') => outcome = .finished (.error c) ∧ w' = w
  | (.faulted e, w), (outcome, w') => outcome = .faulted e ∧ w' = w
  | (.stopped s, w), (outcome, w') => outcome = .stopped s ∧ w' = w
  | (.unfinished, w), (outcome, w') => outcome = .unfinished ∧ w' = w

theorem follows_conclude {a : HostAccess} {resume : Flow Value → Evaluation (Journal E) α}
    (herror : ∀ c w, (resume (.error c)).settle w = (.finished (.error c), w))
    (hok : ∀ v, a.Performs (resume (.ok v))) (answered : Outcome Value × World (Journal E)) :
    a.Follows answered (Driver.conclude resume answered) := by
  obtain ⟨outcome, w⟩ := answered
  cases outcome with
  | finished answer =>
    cases answer with
    | ok v =>
      obtain ⟨flow, w', hs, hmade⟩ := hok v w
      simp only [Driver.conclude, hs]
      exact ⟨flow, rfl, hmade.noted⟩
    | error c =>
      simp only [Driver.conclude, herror]
      exact ⟨rfl, rfl⟩
  | faulted e => exact ⟨rfl, rfl⟩
  | stopped s => exact ⟨rfl, rfl⟩
  | unfinished => exact ⟨rfl, rfl⟩

end HostAccess

/-- An operation on a bridge or a link first makes calm changes only: the hosts, the journal and the
    created sets stay as they are. If it goes further, it waits at a checkpoint, holding nothing. In
    whatever world it goes on, an abrupt answer is its outcome and changes nothing. A result lets it
    make one access, the one it is for, to the host object of the wrapper, and end; if the access
    fails, it ends in a throw, and the created sets are as before. And in a run under any limits and
    with any handler it does just that if the checkpoint gets its answer, and nothing otherwise. -/
theorem accesses_behind_checkpoints {op : ValueOperation} {k : WrapperKind} {id : Nat}
    (h : op.target? = some (k.value id)) (realm : RealmId) (w : World (Journal E)) :
    ∃ front w₁, (op.step realm).settle w = (front, w₁) ∧ w.Calm w₁ ∧
      match front with
      | .finished flow => ∀ fuel limits handler,
        Driver.runWithin fuel limits handler (op.step realm) w = (.finished flow, w₁)
      | .faulted e => ∀ fuel limits handler,
        Driver.runWithin fuel limits handler (op.step realm) w = (.faulted e, w₁)
      | .waiting r release resume =>
        r = .checkpoint ∧ (∀ w₂, release w₂ = w₂) ∧
        ∃ n a, w.native? (k.value id) = some n ∧ op.Accesses n a ∧
          (∀ c w₂, (resume (.error c)).settle w₂ = (.finished (.error c), w₂)) ∧
          (∀ v w₂, ∃ flow w₃, (resume (.ok v)).settle w₂ = (.finished flow, w₃) ∧
            a.Noted flow w₂ w₃) ∧
          ∀ fuel limits handler,
            a.Follows (Driver.runWithin fuel limits handler (Step.request .checkpoint) w₁)
              (Driver.runWithin fuel limits handler (op.step realm) w) := by
  obtain ⟨hcalm, hfront⟩ := op.prudent_step h realm w
  cases hs : (op.step realm : Evaluation (Journal E) Reply).settle w with
  | mk front w₁ =>
    rw [hs] at hcalm hfront
    refine ⟨front, w₁, rfl, hcalm, ?_⟩
    cases front with
    | finished flow => exact fun fuel _ _ => Driver.runWithin_of_finished hs fuel
    | faulted e => exact fun fuel _ _ => Driver.runWithin_of_faulted hs fuel
    | waiting r release resume =>
      obtain ⟨rfl, rfl, herror, a, ⟨n, hn, ha⟩, hok⟩ := hfront
      refine ⟨rfl, fun _ => rfl, n, a, hn, ha, herror, fun v w₂ => ?_,
        fun fuel limits handler => ?_⟩
      · obtain ⟨flow, w₃, hsettle, hmade⟩ := hok v w₂
        exact ⟨flow, w₃, hsettle, hmade.noted⟩
      · have hcompletes : ∀ answer, (resume answer).Completes := by
          intro answer w₂
          cases answer with
          | ok v =>
            obtain ⟨flow, w₃, hsettle, -⟩ := hok v w₂
            exact ⟨flow, w₃, hsettle⟩
          | error c => exact ⟨.error c, w₂, herror c w₂⟩
        rw [Driver.runWithin_suspended hs hcompletes fuel]
        exact HostAccess.follows_conclude herror hok _

namespace Session

/-- The account behind a link, with an empty journal. -/
def journaledAccount : World (Journal Session) :=
  { World.empty ⟨ofRecords #[account], []⟩ with
    links := #[⟨0, .hosted 0, ∅, true⟩]
    realms := #[.fresh .trackCreated]
    held := [.value (.link 0)] }

/-- A write to the note is noted once when its checkpoint is answered, and not at all without a
    budget. -/
theorem accesses_behind_checkpoints_account :
    let op : ValueOperation := .put (.link 0) "note" .null
    let answering : Handler (World (Journal Session)) := fun _ => .ready .undefined
    let run := fun limits => Driver.runWithin 1 limits answering (op.step 0) journaledAccount
    op.target? = some (WrapperKind.link.value 0) ∧
      (run .none).2.embedding.log.length = 1 ∧
      (run ⟨some 0, fun _ => false⟩).2.embedding.log.length = 0 := by
  intro op answering run
  have htarget : op.target? = some (WrapperKind.link.value 0) := rfl
  obtain ⟨front, w₁, hs, -, hfront⟩ := accesses_behind_checkpoints htarget 0 journaledAccount
  obtain ⟨resume, hwaits⟩ : ∃ resume,
      (op.step 0).settle journaledAccount = (.waiting .checkpoint id resume, journaledAccount) :=
    ⟨_, rfl⟩
  rw [hwaits] at hs
  cases hs
  obtain ⟨-, -, n, a, hn, ⟨v, rfl⟩, -, -, hruns⟩ := hfront
  cases hn
  have hanswered : Driver.Runs .none answering 0 (.main (Step.request .checkpoint))
      journaledAccount [.checkpoint] (.finished (.ok .undefined)) journaledAccount :=
    .asked rfl (.resumed rfl (.ended rfl))
  have hstopped : Driver.Runs ⟨some 0, fun _ => false⟩ answering 0
      (.main (Step.request .checkpoint)) journaledAccount [] (.stopped (.budgetExhausted 0))
      journaledAccount := .ended rfl
  have hnoted := hruns 1 .none answering
  have hkept := hruns 1 ⟨some 0, fun _ => false⟩ answering
  rw [(hanswered.runWithin_eq (Nat.le_refl 1)).1] at hnoted
  rw [(hstopped.runWithin_eq (Nat.zero_le 1)).1] at hkept
  obtain ⟨flow, -, -, hlog⟩ := hnoted
  refine ⟨htarget, ?_, ?_⟩
  · exact (congrArg List.length hlog).trans rfl
  · exact (congrArg (fun w => w.embedding.log.length) hkept.2).trans rfl

end Session

end ScriptSandbox
