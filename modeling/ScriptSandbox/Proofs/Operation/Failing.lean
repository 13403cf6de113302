import ScriptSandbox.Proofs.Capability.Minting
import ScriptSandbox.Proofs.Operation.Composition
import ScriptSandbox.Proofs.Operation.Equality
import ScriptSandbox.Proofs.Step.Relay

/-
  How operations fail.

  An operation ends abruptly in two ways only. Either an answer to one of its requests is abrupt:
  then the operation ends there and passes the completion on unchanged (`relays_step`). Or the
  runtime throws: then the completion is a throw of a bridge, whatever the heap, the hosts and the
  answers are like. Where worlds stay minted, the bridge is one over an error that the runtime has
  made in the course of the operation (`mints_step`). Both facts follow from the way operations are
  put together.
-/

namespace ScriptSandbox

variable {E α β : Type} [Embedding E]

/-! ## Passing completions on -/

namespace World

variable (E) in
/-- The completion is what the runtime throws in some realm of some world. -/
def Throws (c : Completion) : Prop :=
  ∃ (realm : RealmId) (name message : String) (u : World E),
    c = (u.scriptError realm name message).1

omit [Embedding E] in
theorem exists_bridge (realm : RealmId) (n : Native) (w : World E) :
    ∃ id, (w.bridge realm n).1 = .bridge id := by
  unfold bridge
  split
  · exact ⟨_, rfl⟩
  · exact ⟨_, rfl⟩

theorem Throws.thrown {c : Completion} (h : Throws E c) : ∃ id, c = .thrown (.bridge id) := by
  obtain ⟨realm, name, message, u, rfl⟩ := h
  obtain ⟨id, hid⟩ := exists_bridge realm ((u.collect []).newError name message).1
    ((u.collect []).newError name message).2
  exact ⟨id, congrArg Completion.thrown hid⟩

theorem throws_hostError (realm : RealmId) (e : HostError) (w : World E) :
    Throws E (w.hostError realm e).1 := by
  cases e <;> exact ⟨realm, _, _, w, rfl⟩

end World

namespace Evaluation

open Step (Relays)

variable {w : World E}

/-- The evaluation passes completions on and throws as the runtime does. -/
abbrev Relaying (s : Evaluation E α) (w : World E) : Prop := s.Relays (World.Throws E) w

theorem relaying_toHost_bind {v : Value} {f : HostValue → Evaluation E α}
    (hf : ∀ h w', Relaying (f h) w') : Relaying (toHost v >>= f) w := by
  refine Relays.andThen (Relays.andThen (.compute _) fun h? _ => ?_) hf
  cases h? <;> trivial

theorem relaying_toHostList_bind {vs : List Value} {f : List HostValue → Evaluation E α}
    (hf : ∀ hs w', Relaying (f hs) w') : Relaying (toHostList vs >>= f) w := by
  refine Relays.andThen (Relays.andThen (.compute _) fun hs? _ => ?_) hf
  cases hs? <;> trivial

theorem relaying_hostResult (realm : RealmId) (method : World E → Except HostError α × World E) :
    Relaying (hostResult realm method) w := by
  refine Relays.andThen (.compute _) fun result w' => ?_
  cases result with
  | ok a => trivial
  | error e => exact World.throws_hostError realm e w'

theorem relaying_access {things : List Thing} {s : Evaluation E α} (h : ∀ w', Relaying s w') :
    Relaying (Step.checkpoint >>= fun _ => holding things s) w :=
  Relays.andThen .checkpoint fun _ _ => Relays.releasing (h _)

theorem relaying_hostGet (wrap : Wrapper E) (realm : RealmId) (n : Native) (name : String) :
    Relaying (hostGet wrap realm n name) w :=
  relaying_access fun _ => Relays.andThen (relaying_hostResult realm _) fun _ _ => trivial

theorem relaying_hostCall (wrap : Wrapper E) (realm : RealmId) (n : Native) (receiver : Value)
    (args : List Value) : Relaying (hostCall wrap realm n receiver args) w := by
  show Relaying (ite (w.isNativeCallable n = true) _ _) w
  split
  · refine relaying_toHost_bind fun receiver' _ => relaying_toHostList_bind fun args' _ => ?_
    exact relaying_access fun _ => Relays.andThen (relaying_hostResult realm _) fun _ _ => trivial
  · exact ⟨realm, _, _, w, rfl⟩

theorem accessing_relaying : Accessing (E := E) (fun _ s w => Relaying s w) fun _ _ => True where
  ready _ := trivial
  fault _ := trivial
  inspect h := h
  andThen h hf := Relays.andThen h hf
  holding h := Relays.releasing (h _)
  holdingAtFirst h := Relays.untilRequest (h _)
  joining _ h := Relays.releasing (h _)
  newText _ := trivial
  fail {_ w} realm _ := ⟨realm, _, _, w, rfl⟩
  hostToPrimitive _ := Relays.andThen .checkpoint fun _ _ => trivial
  request := .request
  newObject _ := trivial
  modifyObject _ _ := trivial
  modifyArray _ _ := trivial
  addCreated _ _ := trivial
  removeCreated _ _ := trivial
  toHost_bind hk := relaying_toHost_bind fun h w' => hk h w' trivial
  hostSet _ realm _ _ := relaying_access fun _ => relaying_hostResult realm _
  hostDelete realm _ _ := relaying_access fun _ => relaying_hostResult realm _
  hostGet {_ wrap} _ := relaying_hostGet wrap
  hostCall {_ wrap} _ := relaying_hostCall wrap

end Evaluation

theorem ValueOperation.relays_step (op : ValueOperation) (realm : RealmId) (w : World E) :
    (op.step realm : Evaluation E Reply).Relays (World.Throws E) w :=
  Evaluation.accessing_relaying.step op realm

/-! ## Throwing bridges over errors -/

namespace Provenance

variable (k : Provenance E)

/-- Worlds stay minted while a computation waits, and results come back. -/
def minting : Contract (World E) where
  evolves := k.Later
  refl := .refl
  trans := .trans
  asks _ _ := True
  asks_stable _ _ := trivial
  answers _ flow _ := ∃ v, flow = .ok v

/-- The world is minted and does not lie before the number. -/
def Underway (start : Nat) (w : World E) : Prop := k.Minted w ∧ start ≤ w.nextNative

omit [Embedding E] in
/-- A result is as `good` says, and what is thrown is an error that was made from the number on. -/
def Yields (start : Nat) (good : α → World E → Prop) : Flow α → World E → Prop
  | .ok a, w => good a w
  | .error c, w => Raised start c w

/-- The computation keeps to the contract with such outcomes. -/
abbrev Mints (start : Nat) (good : α → World E → Prop) (s : Evaluation E α) (w : World E) : Prop :=
  s.Meets k.minting (Yields start good) w

variable {k} {start : Nat} {P : α → World E → Prop} {Q : β → World E → Prop} {w w' : World E}

theorem Underway.later (h : k.Underway start w) (hl : k.Later w w') : k.Underway start w' :=
  ⟨hl.minted h.1, Nat.le_trans h.2 hl.extension.next⟩

theorem stable_yields (hg : ∀ {a w w'}, k.Later w w' → P a w → P a w') :
    k.minting.Stable (Yields start P) := by
  intro flow w w' hl h
  cases flow with
  | ok a => exact hg hl h
  | error c => exact Raised.extend h hl.extension

/-- Nothing is said of results. -/
def Any : α → World E → Prop := fun _ _ => True

theorem stable_any : k.minting.Stable (Yields start (Any : α → World E → Prop)) :=
  stable_yields fun _ _ => trivial

/-! ### Rules -/

theorem mints_compute {f : World E → α × World E} (hl : k.Later w (f w).2)
    (hf : P (f w).1 (f w).2) : k.Mints start P (Step.compute f) w :=
  ⟨hl, hf⟩

theorem mints_bind {s : Evaluation E α} {f : α → Evaluation E β} (h : k.Mints start P s w)
    (hf : ∀ a w', k.Later w w' → P a w' → k.Mints start Q (f a) w') :
    k.Mints start Q (s >>= f) w :=
  Step.Meets.andThen h hf fun _ _ _ hp => hp

theorem mints_holding {things : List Thing} {s : Evaluation E α}
    (hg : k.minting.Stable (Yields start P))
    (h : ∀ w', k.Later w w' → k.Mints start P s w') :
    k.Mints start P (Evaluation.holding things s) w :=
  ⟨later_hold things w, (h _ (later_hold things w)).releasing hg fun w' _ => later_letGo things w'⟩

theorem mints_checkpoint {f : Unit → Evaluation E α}
    (h : ∀ w', k.Later w w' → k.Mints start P (f ()) w') :
    k.Mints start P (Step.checkpoint >>= f) w :=
  Step.meets_checkpoint_bind trivial h fun _ _ _ ⟨_, ha⟩ => by cases ha

theorem mints_scriptError (h : k.Underway start w) (realm : RealmId) (name message : String) :
    k.Mints start P
      (Evaluation.throwing (World.scriptError realm name message) : Evaluation E α) w :=
  ⟨later_scriptError realm name message w, (h.1.scriptError realm name message).mono h.2⟩

theorem mints_hostResult (h : k.Underway start w) (realm : RealmId)
    {method : World E → Except HostError α × World E} (hl : k.Later w (method w).2)
    (hg : ∀ {a}, (method w).1 = .ok a → P a (method w).2) :
    k.Mints start P (Evaluation.hostResult realm method) w := by
  refine mints_bind (P := fun result w => ∀ {a}, result = .ok a → P a w) ⟨hl, hg⟩ ?_
  intro result w' hw hP
  cases result with
  | ok a => exact hP rfl
  | error e =>
    exact ⟨later_hostError realm e w', ((h.later hw).1.hostError realm e).mono (h.later hw).2⟩

/-! ### Host accesses -/

theorem later_wrap {wrap : Wrapper E} (hwrap : wrap = World.fromHost ∨ wrap = World.link)
    (realm : RealmId) {h : HostValue} (hh : h.Before w.nextNative) :
    k.Later w (wrap realm h w).2 := by
  rcases hwrap with rfl | rfl
  · exact later_fromHost realm h hh
  · exact later_link realm h hh

theorem mints_enter {wrap : Wrapper E} (hwrap : wrap = World.fromHost ∨ wrap = World.link)
    (realm : RealmId) {h : HostValue} (hh : h.Before w.nextNative) :
    k.Mints start Any (Evaluation.enter wrap realm h) w :=
  have hl : k.Later w (w.collect h.things) := later_collect h.things w
  ⟨hl, later_wrap hwrap realm (hl.before hh), trivial⟩

theorem mints_hostGet {wrap : Wrapper E} (hwrap : wrap = World.fromHost ∨ wrap = World.link)
    (h : k.Underway start w) (realm : RealmId) (n : Native) (name : String) :
    k.Mints start Any (Evaluation.hostGet wrap realm n name) w := by
  refine mints_checkpoint fun w₁ hl₁ => mints_holding stable_any fun w₂ hl₂ => ?_
  have h₂ := (h.later hl₁).later hl₂
  refine mints_bind (P := fun a w => a.Before w.nextNative) ?_ fun a _ _ ha =>
    mints_enter hwrap realm ha
  exact mints_hostResult h₂ realm (later_getProperty n name w₂) h₂.1.before_getProperty

theorem mints_hostSet (h : k.Underway start w) {value : HostValue}
    (hv : value.Before w.nextNative) (realm : RealmId) (n : Native) (name : String) :
    k.Mints start Any (Evaluation.hostSet realm n name value) w :=
  mints_checkpoint fun _ hl₁ => mints_holding stable_any fun _ hl₂ =>
    mints_hostResult ((h.later hl₁).later hl₂) realm
      (later_setProperty n name ((hl₁.trans hl₂).before hv)) fun _ => trivial

theorem mints_hostDelete (h : k.Underway start w) (realm : RealmId) (n : Native) (name : String) :
    k.Mints start Any (Evaluation.hostDelete realm n name) w :=
  mints_checkpoint fun _ hl₁ => mints_holding stable_any fun w₂ hl₂ =>
    mints_hostResult ((h.later hl₁).later hl₂) realm (later_deleteProperty n name w₂)
      fun _ => trivial

theorem mints_toHost (h : k.Underway start w) (v : Value) :
    k.Mints start (fun a w => a.Before w.nextNative) (Evaluation.toHost v) w := by
  refine mints_bind (P := fun a? w => ∀ {a}, a? = some a → a.Before w.nextNative)
    (mints_compute (later_toHost v w) h.1.before_toHost) ?_
  intro a? w' _ ha
  cases a? with
  | none => trivial
  | some a => exact ha rfl

theorem mints_toHostList (h : k.Underway start w) (vs : List Value) :
    k.Mints start (fun as w => ∀ a ∈ as, a.Before w.nextNative) (Evaluation.toHostList vs) w := by
  refine mints_bind
    (P := fun as? w => ∀ {as}, as? = some as → ∀ a ∈ as, a.Before w.nextNative)
    (mints_compute (later_toHostList vs w) h.1.before_toHostList) ?_
  intro as? w' _ has
  cases as? with
  | none => trivial
  | some as => exact has rfl

theorem mints_hostCall {wrap : Wrapper E} (hwrap : wrap = World.fromHost ∨ wrap = World.link)
    (h : k.Underway start w) (realm : RealmId) (n : Native) (receiver : Value)
    (args : List Value) : k.Mints start Any (Evaluation.hostCall wrap realm n receiver args) w := by
  refine Step.meets_read_bind ?_
  split
  · refine mints_bind (mints_toHost h receiver) fun receiver w₁ hl₁ hr => ?_
    refine mints_bind (mints_toHostList (h.later hl₁) args) fun args w₂ hl₂ ha => ?_
    refine mints_checkpoint fun w₃ hl₃ => mints_holding stable_any fun w₄ hl₄ => ?_
    have h₄ : k.Underway start w₄ := (h.later (hl₁.trans hl₂)).later (hl₃.trans hl₄)
    have hr₄ : receiver.Before w₄.nextNative := (hl₂.trans (hl₃.trans hl₄)).before hr
    have ha₄ : ∀ a ∈ args, a.Before w₄.nextNative := fun a hm => (hl₃.trans hl₄).before (ha a hm)
    refine mints_bind (P := fun a w => a.Before w.nextNative) ?_ fun a _ _ ha =>
      mints_enter hwrap realm ha
    exact mints_hostResult h₄ realm (later_callNative n hr₄ ha₄) (h₄.1.before_callNative hr₄ ha₄)
  · exact Step.meets_read_bind (mints_scriptError h realm _ _)

theorem accessing_mints (k : Provenance E) (start : Nat) :
    Evaluation.Accessing (fun _ s w => k.Underway start w → k.Mints start Any s w)
      fun h w => h.Before w.nextNative where
  ready _ _ := trivial
  fault _ _ := trivial
  inspect h := h
  andThen h hf hw := mints_bind (h hw) fun a w' hl _ => hf a w' (hw.later hl)
  holding h hw := mints_holding stable_any fun w' hl => h w' (hw.later hl)
  holdingAtFirst {_ things _ w} h hw :=
    have hl : k.Later w (w.hold things) := later_hold things w
    ⟨hl, (h _ (hw.later hl)).untilRequest stable_any fun w' _ => later_letGo things w'⟩
  joining {_ id _ w} _ h hw :=
    have hl : k.Later w (World.markJoining id true w) := later_modifyArray id _ w
    ⟨hl, (h _ (hw.later hl)).releasing stable_any fun w' _ => later_modifyArray id _ w'⟩
  newText {w} s _ := ⟨later_newText s w, trivial⟩
  fail realm _ hw := mints_scriptError hw realm _ _
  hostToPrimitive n _ := mints_checkpoint fun w' _ => ⟨later_hostPrimitive n w', trivial⟩
  request _ _ := Step.meets_request trivial fun _ _ _ ⟨_, ha⟩ => by cases ha; trivial
  newObject {w} o _ := ⟨later_newObject o w, trivial⟩
  modifyObject {w} id f _ := ⟨later_modifyObject id f w, trivial⟩
  modifyArray {w} id f _ := ⟨later_modifyArray id f w, trivial⟩
  addCreated {w} id name _ := ⟨later_modifyCreated id (·.insert name) w, trivial⟩
  removeCreated {w} id name _ := ⟨later_modifyCreated id (·.erase name) w, trivial⟩
  toHost_bind hk hw := mints_bind (mints_toHost hw _) fun h w' hl hh => hk h w' hh (hw.later hl)
  hostSet hh realm n name hw := mints_hostSet hw hh realm n name
  hostDelete realm n name hw := mints_hostDelete hw realm n name
  hostGet hwrap realm n name hw := mints_hostGet hwrap hw realm n name
  hostCall hwrap realm n receiver args hw := mints_hostCall hwrap hw realm n receiver args

end Provenance

theorem ValueOperation.mints_step (op : ValueOperation) (realm : RealmId) {k : Provenance E}
    {w : World E} (h : k.Minted w) :
    k.Mints w.nextNative Provenance.Any (op.step realm : Evaluation E Reply) w :=
  (Provenance.accessing_mints k w.nextNative).step op realm ⟨h, Nat.le_refl _⟩

/-! ## Failures -/

/-- An evaluation has a dialogue in which the handler gives the answers. Where the handler changes
    the state as a contract allows, a step that keeps to the contract comes out as it says, if the
    answers are as it says. -/
theorem Driver.Evaluates.exists_dialogue_meets {σ α : Type} {handler : Handler σ} {c : Contract σ}
    {s : Step σ α} {w w' : σ} {log : List Request} {flow : Flow α}
    (h : Evaluates handler s w log flow w')
    (hk : ∀ r u log answer u', Evaluates handler (handler r) u log answer u' → c.evolves u u') :
    ∃ es, s.Dialogue w es flow w' ∧
      (∀ e ∈ es, ∃ u log, Evaluates handler (handler e.request) u log e.answer e.resumed) ∧
      ∀ {P : Flow α → σ → Prop}, s.Meets c P w →
        (∀ e ∈ es, c.answers e.request e.answer e.resumed) → P flow w' := by
  induction h with
  | ready h =>
    refine ⟨[], .ended h, by simp, fun hs _ => ?_⟩
    have hfront := (Step.meets_settle hs).2
    rw [h] at hfront
    exact hfront
  | @suspended _ _ _ r _ _ w₁ log₁ answer w₂ log₂ _ _ h hanswer _ _ ih =>
    obtain ⟨es, hd, hanswers, hmeets⟩ := ih
    refine ⟨⟨r, answer, w₂⟩ :: es, .answered h hd,
      List.forall_mem_cons.mpr ⟨⟨w₁, log₁, hanswer⟩, hanswers⟩, fun hs hall => ?_⟩
    obtain ⟨hfirst, hrest⟩ := List.forall_mem_cons.mp hall
    have hfront := (Step.meets_settle hs).2
    rw [h] at hfront
    exact hmeets (hfront.2.2 answer w₂ (hk r w₁ log₁ answer w₂ hanswer) hfirst) hrest

/-- The handler leaves every world minted that it finds minted. -/
def Provenance.Respected (k : Provenance E) (handler : Handler (World E)) : Prop :=
  ∀ r u log answer u', Driver.Evaluates handler (handler r) u log answer u' → k.Later u u'

open Driver (Evaluates) in
/-- Whatever the heap, the host and the answers are like, an abrupt answer is the last one and is
    the outcome as it is, and every other abrupt outcome is a throw of a bridge that the runtime
    made. Where the host and the handler keep worlds minted, the bridge is one over an error that
    was made in the course of the operation. -/
theorem ValueOperation.failures_are_throws (op : ValueOperation) (realm : RealmId) (w : World E) :
    (∀ {es flow w'}, (op.step realm : Evaluation E Reply).Dialogue w es flow w' →
      (∀ {before e rest c}, es = before ++ e :: rest → e.answer = .error c →
        rest = [] ∧ flow = .error c) ∧
      ∀ {c}, flow = .error c → (∃ e, es.getLast? = some e ∧ e.answer = .error c) ∨
        (∃ id, c = .thrown (.bridge id)) ∧ World.Throws E c) ∧
    ∀ (k : Provenance E) {handler log c w'}, k.Minted w → k.Respected handler →
      Evaluates handler (op.step realm : Evaluation E Reply) w log (.error c) w' →
        ∃ es, (op.step realm : Evaluation E Reply).Dialogue w es (.error c) w' ∧
          (∀ e ∈ es, ∃ u log, Evaluates handler (handler e.request) u log e.answer e.resumed) ∧
          ((∃ e, es.getLast? = some e ∧ e.answer = .error c) ∨
            ∃ id serial name message, c = .thrown (.bridge id) ∧
              w'.bridgeNative? id = some (.error serial name message) ∧
              w.nextNative ≤ serial ∧ serial < w'.nextNative) := by
  have hrelays := op.relays_step realm w
  refine ⟨fun {es flow w'} hd => ⟨?_, ?_⟩, ?_⟩
  · rintro before e rest c rfl he
    exact hrelays.of_abrupt_answer hd he
  · rintro c rfl
    exact (hrelays.abrupt_cases hd).imp_right fun h => ⟨h.thrown, h⟩
  · intro k handler log c w' hw hk h
    obtain ⟨es, hd, hanswers, hmeets⟩ := h.exists_dialogue_meets (c := k.minting) hk
    refine ⟨es, hd, hanswers, ?_⟩
    by_cases hlast : ∃ e, es.getLast? = some e ∧ e.answer = .error c
    · exact .inl hlast
    · refine .inr (hmeets (op.mints_step realm hw) fun e he => ?_)
      -- an abrupt answer would be the last one and the outcome
      cases hanswer : e.answer with
      | ok v => exact ⟨v, rfl⟩
      | error d =>
        obtain ⟨before, rest, rfl⟩ := List.append_of_mem he
        obtain ⟨rfl, hc⟩ := hrelays.of_abrupt_answer hd hanswer
        cases hc
        exact absurd ⟨e, List.getLast?_concat, hanswer⟩ hlast

theorem Session.minted_heir : Session.provenance.Minted heirWorld where
  hosts id h hh := by
    have hrecord : heirWorld.embedding.record id = default := rfl
    rw [hrecord] at hh
    cases hh
  bridged hn := by cases hn
  linked hn := by cases hn
  cached realm serial id he := by
    rcases realm with _ | realm <;> cases he

open Driver (Evaluates) in
/-- Both methods of the heir give an object, so the conversion fails by itself: it throws a bridge
    over the first error that is made. -/
theorem Session.failures_are_throws_heir :
    let handler : Handler (World Session) := fun _ => .ready (.object 1)
    let convert := (ValueOperation.toPrimitive (.object 0) .default).step 0
    ∃ c w', Evaluates handler convert heirWorld
        [.call (.object 2) (.object 0) [], .call (.object 2) (.object 0) []] (.error c) w' ∧
      ∃ id serial name message, c = .thrown (.bridge id) ∧
        w'.bridgeNative? id = some (.error serial name message) ∧
        heirWorld.nextNative ≤ serial ∧ serial < w'.nextNative := by
  intro handler convert
  have hgives (r : Request) {u u' : World Session} {log : List Request} {answer : Flow Value}
      (h : Evaluates handler (handler r) u log answer u') : answer = .ok (.object 1) ∧ u' = u := by
    cases h with
    | ready h =>
      cases h
      exact ⟨rfl, rfl⟩
    | suspended h => cases h
  have hrespected : Session.provenance.Respected handler := by
    intro r u log answer u' h
    rw [(hgives r h).2]
    exact .refl u
  have hfails : Evaluates handler convert heirWorld
      [.call (.object 2) (.object 0) [], .call (.object 2) (.object 0) []]
      (.error (heirWorld.typeError 0 Failure.noPrimitive.message).1)
      (heirWorld.typeError 0 Failure.noPrimitive.message).2 :=
    .suspended (by rfl) (.ready rfl) (.suspended (by rfl) (.ready rfl) (.ready (by rfl)))
  obtain ⟨es, -, hanswers, ⟨e, hlast, he⟩ | hraised⟩ :=
    (ValueOperation.failures_are_throws (.toPrimitive (.object 0) .default) 0 heirWorld).2
      Session.provenance Session.minted_heir hrespected hfails
  · -- the handler gives results only
    obtain ⟨u, log, h⟩ := hanswers e (List.mem_of_getLast? hlast)
    rw [(hgives e.request h).1] at he
    cases he
  · exact ⟨_, _, hfails, hraised⟩

end ScriptSandbox
