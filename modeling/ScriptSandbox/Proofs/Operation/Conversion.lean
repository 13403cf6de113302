import ScriptSandbox.Proofs.Interleaving
import ScriptSandbox.Proofs.Operation.ArrayText
import ScriptSandbox.Proofs.Operation.Equality
import ScriptSandbox.Proofs.Operation.HostAccess

/-
  Conversions to primitives.

  `Value.Converts` says what the dialogue of a conversion looks like. The methods of an object are
  tried in turn (`Tries`), each one called in a single exchange and the next one only when the one
  before gave no primitive (`ObjectConversion`); a wrapper asks behind one checkpoint; an array has
  nothing but the conversions of objects and wrappers in it (`Conversions`). Every dialogue is of
  that form, whatever the answers are, and the operators have no exchanges but those of one
  conversion for each operand (`toPrimitive_converts`).
-/

namespace ScriptSandbox

variable {E α β : Type} {realm : RealmId} {id : ObjectId} {w w' : World E}
  {es : List (Exchange (World E))}

theorem Step.Dialogue.of_holding {things : List Thing} {s : Evaluation E α} {flow : Flow α}
    (h : (Evaluation.holding things s).Dialogue w es flow w') :
    ∃ w₁, s.Dialogue (w.hold things) es flow w₁ ∧ w' = w₁.letGo things :=
  of_releasing (h.congr rfl)

theorem Step.Dialogue.of_holdingAtFirst {things : List Thing} {s : Evaluation E α} {flow : Flow α}
    (h : (Evaluation.holdingAtFirst things s).Dialogue w es flow w') :
    ∃ w₁, s.Dialogue (w.hold things) es flow w₁ :=
  of_untilRequest (h.congr rfl)

/-! ## Calls of conversion methods -/

/-- A call of a conversion method of an object. -/
structure MethodCall (E : Type) where
  /-- The world in which the method was looked up. -/
  world : World E
  method : ConversionMethod
  callee : Value
  /-- The answer to the request of the call, and the world in which it came. -/
  answer : Flow Value
  resumed : World E
  /-- What came of the call, and the world that it left. -/
  result : Flow Value
  after : World E

/-- The request of a method: a script function is called on the object, and a host function is
    called behind a checkpoint. -/
def methodRequest (id : ObjectId) : Value → Request
  | .object f => .call (.object f) (.object id) []
  | _ => .checkpoint

namespace MethodCall

def exchange (id : ObjectId) (c : MethodCall E) : Exchange (World E) :=
  ⟨methodRequest id c.callee, c.answer, c.resumed⟩

/-- The call gave a value that is no primitive. -/
def PassedOver (c : MethodCall E) : Prop := ∃ v, c.result = .ok v ∧ v.isPrimitive = false

variable [Embedding E]

/-- The call was made by converting the object: the method is callable, it was found on the object
    or its chain, and it was called on the object in one exchange. -/
structure Made (realm : RealmId) (id : ObjectId) (c : MethodCall E) : Prop where
  found : c.world.lookup? id c.method.property = some c.callee
  callable : c.world.isCallable c.callee = true
  ran : (Evaluation.holding [.value (.object id)]
    (c.callee.call (.object id) [] realm)).Dialogue c.world [c.exchange id] c.result c.after

end MethodCall

variable [Embedding E]

/-- The methods are tried in a world, with these calls: each is called if it is callable by then,
    and the next one has its turn in the world that the call left. -/
inductive Tries (realm : RealmId) (id : ObjectId) :
    World E → List ConversionMethod → List (MethodCall E) → Flow Primitive → Prop
  | exhausted {u : World E} :
    Tries realm id u [] [] (.error (u.typeError realm Failure.noPrimitive.message).1)
  | builtIn {u : World E} {methods} {t : Text}
    (h : u.conversionMethod? (.object id) .toString = none)
    (ht : t.content = u.builtInText (.object id)) :
    Tries realm id u (.toString :: methods) [] (.ok (.string t))
  | missing {u : World E} {methods calls flow}
    (h : u.conversionMethod? (.object id) .valueOf = none)
    (rest : Tries realm id u methods calls flow) : Tries realm id u (.valueOf :: methods) calls flow
  | decided {methods flow} {c : MethodCall E} (hc : c.Made realm id)
    (h : c.result = flow.map .primitive) : Tries realm id c.world (c.method :: methods) [c] flow
  | passedOver {methods calls flow v} {c : MethodCall E} (hc : c.Made realm id)
    (h : c.result = .ok v) (hv : v.isPrimitive = false)
    (rest : Tries realm id (c.after.hold [.value (.object id), .value v]) methods calls flow) :
    Tries realm id c.world (c.method :: methods) (c :: calls) flow

/-- How the calls of a conversion go together with its outcome. -/
structure ObjectConversion (realm : RealmId) (hint : Hint) (calls : List (MethodCall E))
    (flow : Flow Primitive) : Prop where
  order : (calls.map MethodCall.method).Sublist hint.methods
  /-- Another method is called only behind a call that gave no primitive. -/
  onward : ∀ c ∈ calls.dropLast, c.PassedOver
  /-- The result is the primitive that a call gave, or a built-in text. -/
  result : ∀ p, flow = .ok p → (∃ c ∈ calls, c.result = .ok (.primitive p)) ∨ p.isString = true
  /-- A failure is that of a call. Only when `toString` was called and no call gave a primitive, the
      conversion fails by itself. -/
  failure : ∀ e, flow = .error e → (∃ c ∈ calls, c.result = .error e) ∨
    (.toString ∈ calls.map MethodCall.method ∧ (∀ c ∈ calls, c.PassedOver) ∧
      ∃ u : World E, e = (u.typeError realm Failure.noPrimitive.message).1)

namespace Evaluation

/-- A callable host object is called behind a checkpoint. -/
theorem settle_hostCall {wrap : Wrapper E} {n : Native} (hn : w.isNativeCallable n = true) :
    ∃ release resume w₁, (hostCall wrap realm n (.object id) []).settle w =
      (.waiting .checkpoint release resume, w₁) := by
  have hreceiver : w.toHost (.object id) =
      (some (.object (w.newBookmark (.object id)).1), (w.newBookmark (.object id)).2) := by
    simp only [World.toHost, World.toHostWithin]
  have hcall : (hostCall wrap realm n (.object id) []).settle w =
      (toHost (.object id) >>= fun receiver => toHostList [] >>= fun args =>
        Step.checkpoint >>= fun _ => holding [.native n] do
          let h ← hostResult realm (World.callNative n receiver args)
          enter wrap realm h).settle w := by
    show (ite (w.isNativeCallable n = true) _ _ : Evaluation E Value).settle w = _
    rw [if_pos hn]
  rw [settle_toHost_bind, hreceiver] at hcall
  exact ⟨_, _, _, hcall⟩

theorem settle_call (realm : RealmId) (id : ObjectId) (things : List Thing) {callee : Value}
    (hc : w.isCallable callee = true) :
    ∃ release resume w₁, (callee.call (.object id) [] realm).settle (w.hold things) =
      (.waiting (methodRequest id callee) release resume, w₁) := by
  cases callee with
  | primitive p => cases hc
  | array a => cases hc
  | object f =>
    have hfunction : ((w.hold things).object f).function.isSome = true := hc
    refine ⟨fun w => w, .done, w.hold things, ?_⟩
    rw [Value.call, Step.settle, if_pos hfunction]
    rfl
  | bridge b =>
    cases hb : w.bridges[b]? with
    | none =>
      simp only [World.isCallable, World.bridgeNative?, hb] at hc
      cases hc
    | some bridge =>
      simp only [World.isCallable, World.bridgeNative?, hb] at hc
      have hbridge : (w.hold things).bridges[b]? = some bridge := hb
      rw [Value.call, Step.settle, hbridge]
      exact settle_hostCall (w := w.hold things) hc
  | link l =>
    cases hl : w.links[l]? with
    | none =>
      simp only [World.isCallable, World.linkNative?, hl] at hc
      cases hc
    | some link =>
      simp only [World.isCallable, World.linkNative?, hl] at hc
      have hlink : (w.hold things).links[l]? = some link := hl
      rw [Value.call, Step.settle, hlink]
      exact settle_hostCall (w := w.hold things) hc

/-- A callable method is called in one exchange. -/
theorem dialogue_call {callee : Value} {things : List Thing} {flow : Flow Value}
    (hc : w.isCallable callee = true)
    (h : (callee.call (.object id) [] realm).Dialogue (w.hold things) es flow w') :
    ∃ answer u, es = [⟨methodRequest id callee, answer, u⟩] := by
  obtain ⟨release, resume, w₁, hs⟩ := settle_call realm id things hc
  obtain ⟨answer, w₂, rest, rfl, -⟩ := Step.Dialogue.of_waiting hs h
  have hle := (asksAtMost_call callee (.object id) []).length_le h
  rw [List.length_cons] at hle
  have hrest : rest = [] := List.eq_nil_of_length_eq_zero (by omega)
  exact ⟨answer, w₂, by rw [hrest]⟩

end Evaluation

/-! ## Objects -/

namespace Tries

variable {methods : List ConversionMethod} {calls : List (MethodCall E)} {flow : Flow Primitive}

theorem order (h : Tries realm id w methods calls flow) :
    (calls.map MethodCall.method).Sublist methods := by
  induction h with
  | exhausted => exact .slnil
  | builtIn => exact List.nil_sublist _
  | missing _ _ ih => exact ih.cons _
  | decided => exact (List.nil_sublist _).cons_cons _
  | passedOver _ _ _ _ ih => exact ih.cons_cons _

theorem onward (h : Tries realm id w methods calls flow) : ∀ c ∈ calls.dropLast, c.PassedOver := by
  induction h with
  | exhausted => simp
  | builtIn => simp
  | missing _ _ ih => exact ih
  | decided => simp
  | @passedOver _ calls _ v c _ hresult hv _ ih =>
    intro d hd
    cases calls with
    | nil => cases hd
    | cons c' calls =>
      obtain rfl | hd := List.mem_cons.mp hd
      · exact ⟨v, hresult, hv⟩
      · exact ih d hd

theorem result {p : Primitive} (h : Tries realm id w methods calls (.ok p)) :
    (∃ c ∈ calls, c.result = .ok (.primitive p)) ∨ p.isString = true := by
  generalize hflow : (.ok p : Flow Primitive) = flow at h
  induction h with
  | exhausted => cases hflow
  | builtIn =>
    cases hflow
    exact .inr rfl
  | missing _ _ ih => exact ih hflow
  | @decided _ _ c _ hresult =>
    subst hflow
    exact .inl ⟨c, List.mem_singleton_self c, hresult⟩
  | @passedOver _ _ _ _ c _ _ _ _ ih =>
    obtain ⟨d, hd, hresult⟩ | hstring := ih hflow
    · exact .inl ⟨d, List.mem_cons_of_mem c hd, hresult⟩
    · exact .inr hstring

theorem failure {e : Completion} (h : Tries realm id w methods calls (.error e)) :
    (∃ c ∈ calls, c.result = .error e) ∨
      ((.toString ∈ methods → .toString ∈ calls.map MethodCall.method) ∧
        (∀ c ∈ calls, c.PassedOver) ∧
        ∃ u : World E, e = (u.typeError realm Failure.noPrimitive.message).1) := by
  generalize hflow : (.error e : Flow Primitive) = flow at h
  induction h with
  | @exhausted u =>
    cases hflow
    exact .inr ⟨by simp, by simp, u, rfl⟩
  | builtIn => cases hflow
  | missing _ _ ih =>
    obtain hcall | ⟨hmethod, hpassed, hu⟩ := ih hflow
    · exact .inl hcall
    · exact .inr ⟨fun hm => hmethod (by simpa using hm), hpassed, hu⟩
  | @decided _ _ c _ hresult =>
    subst hflow
    exact .inl ⟨c, List.mem_singleton_self c, hresult⟩
  | @passedOver _ _ _ v c _ hresult hv _ ih =>
    obtain ⟨d, hd, hresult⟩ | ⟨hmethod, hpassed, hu⟩ := ih hflow
    · exact .inl ⟨d, List.mem_cons_of_mem c hd, hresult⟩
    · refine .inr ⟨fun hm => ?_, fun d hd => ?_, hu⟩
      · exact List.mem_cons.mpr ((List.mem_cons.mp hm).imp_right hmethod)
      · obtain rfl | hd := List.mem_cons.mp hd
        · exact ⟨v, hresult, hv⟩
        · exact hpassed d hd

theorem conversion {hint : Hint} (h : Tries realm id w hint.methods calls flow) :
    ObjectConversion realm hint calls flow where
  order := h.order
  onward := h.onward
  result p hp := (hp ▸ h).result
  failure e he := by
    have hmethod : ConversionMethod.toString ∈ hint.methods := by cases hint <;> decide
    obtain hcall | ⟨hcalled, hpassed, hu⟩ := (he ▸ h).failure
    · exact .inl hcall
    · exact .inr ⟨hcalled hmethod, hpassed, hu⟩

end Tries

namespace Evaluation

/-- A call of the method that a world has for an object is made in one exchange, whatever it comes
    to. -/
theorem exists_methodCall {m : ConversionMethod} {callee : Value} {result : Flow Value}
    (hm : w.conversionMethod? (.object id) m = some callee)
    (hd : (holding [.value (.object id)]
      (callee.call (.object id) [] realm)).Dialogue w es result w') :
    ∃ c : MethodCall E, es = [c.exchange id] ∧ c.Made realm id ∧ c.world = w ∧ c.method = m ∧
      c.result = result ∧ c.after = w' := by
  obtain ⟨hfound, hcallable⟩ := Option.filter_eq_some_iff.mp hm
  obtain ⟨w₁, hrun, -⟩ := hd.of_holding
  obtain ⟨answer, u, rfl⟩ := dialogue_call hcallable hrun
  exact ⟨⟨w, m, callee, answer, u, result, w'⟩, rfl, ⟨hfound, hcallable, hd⟩, rfl, rfl, rfl, rfl⟩

/-- An object is converted by trying its methods. -/
theorem dialogue_convertBy {joinArray : ArrayId → Evaluation E Primitive} {flow : Flow Primitive}
    {methods : List ConversionMethod}
    (h : (convertBy joinArray realm (.object id) methods).Dialogue w es flow w') :
    ∃ calls : List (MethodCall E), es = calls.map (MethodCall.exchange id) ∧
      Tries realm id w methods calls flow := by
  induction methods generalizing w es w' with
  | nil =>
    obtain ⟨rfl, rfl, -⟩ := Step.Dialogue.of_finished (w := w) rfl h
    exact ⟨[], rfl, .exhausted⟩
  | cons m methods ih =>
    have hlook := Step.Dialogue.of_inspect h
    cases hm : w.conversionMethod? (.object id) m with
    | none =>
      simp only [hm] at hlook
      cases m with
      | valueOf =>
        obtain ⟨calls, rfl, hcalls⟩ := ih hlook
        exact ⟨calls, rfl, .missing hm hcalls⟩
      | toString =>
        obtain ⟨p, n, hs, t, rfl, ht⟩ : (intrinsicText joinArray (.object id)).Computes
            (Primitive.Reads (w.builtInText (.object id))) w :=
          (Step.Computes.newText _).andThen fun t n ht => .ready ⟨t, rfl, ht⟩
        obtain ⟨rfl, rfl, -⟩ := hlook.of_finished hs
        exact ⟨[], rfl, .builtIn hm ht⟩
    | some callee =>
      simp only [hm] at hlook
      obtain ⟨e, rfl, hd⟩ | ⟨result, es₁, es₂, w₁, rfl, hd, hrest⟩ := hlook.andThen_cases
      · obtain ⟨c, rfl, hc, rfl, rfl, hresult, -⟩ := exists_methodCall hm hd
        exact ⟨[c], rfl, .decided hc hresult⟩
      · obtain ⟨c, rfl, hc, rfl, rfl, hresult, rfl⟩ := exists_methodCall hm hd
        have hpassed (hv : result.isPrimitive = false)
            (hrest : (holdingAtFirst [.value (.object id), .value result]
              (convertBy joinArray realm (.object id) methods)).Dialogue c.after es₂ flow w') :
            ∃ calls : List (MethodCall E), [c.exchange id] ++ es₂ =
              calls.map (MethodCall.exchange id) ∧
                Tries realm id c.world (c.method :: methods) calls flow := by
          obtain ⟨w₂, hrest⟩ := hrest.of_holdingAtFirst
          obtain ⟨calls, rfl, hcalls⟩ := ih hrest
          exact ⟨c :: calls, rfl, .passedOver hc hresult hv hcalls⟩
        cases result with
        | primitive p =>
          obtain ⟨rfl, rfl, -⟩ := hrest.of_finished rfl
          exact ⟨[c], rfl, .decided hc hresult⟩
        | object o => exact hpassed rfl hrest
        | array a => exact hpassed rfl hrest
        | bridge b => exact hpassed rfl hrest
        | link l => exact hpassed rfl hrest

/-! ## Wrappers -/

end Evaluation

/-- The dialogue of converting a wrapper: its host object gives the primitive behind one checkpoint.
    A handle without a host object asks nothing. -/
def HostConversion (n? : Option Native) (es : List (Exchange (World E)))
    (flow : Flow Primitive) : Prop :=
  match n? with
  | some n => ∃ (answer : Flow Value) (u : World E), es = [⟨.checkpoint, answer, u⟩] ∧
      flow = answer.map fun _ => (u.hostPrimitive n).1
  | none => es = [] ∧ flow = .ok .undefined

/-- The dialogue of converting an object or a wrapper in a world. -/
def Value.Asked (w : World E) (realm : RealmId) (hint : Hint) (v : Value)
    (es : List (Exchange (World E))) (flow : Flow Primitive) : Prop :=
  match v with
  | .object id => ∃ calls : List (MethodCall E), es = calls.map (MethodCall.exchange id) ∧
      Tries realm id w hint.methods calls flow ∧ ObjectConversion realm hint calls flow
  | .bridge _ | .link _ => HostConversion (w.native? v) es flow
  | _ => False

namespace Evaluation

variable {joinArray : ArrayId → Evaluation E Primitive} {v : Value} {hint : Hint}

theorem dialogue_hostToPrimitive {n : Native} {flow : Flow Primitive}
    (h : (hostToPrimitive n : Evaluation E Primitive).Dialogue w es flow w') :
    HostConversion (some n) es flow := by
  have hs : (hostToPrimitive n : Evaluation E Primitive).settle w = (.waiting .checkpoint _ _, w) :=
    rfl
  obtain ⟨answer, u, rest, rfl, hrest⟩ := Step.Dialogue.of_waiting hs h
  refine ⟨answer, u, ?_⟩
  cases answer with
  | error c =>
    obtain ⟨rfl, rfl, -⟩ := Step.Dialogue.of_finished (w := u) rfl hrest
    exact ⟨rfl, rfl⟩
  | ok v =>
    obtain ⟨rfl, rfl, -⟩ := Step.Dialogue.of_finished (w := u) rfl hrest
    exact ⟨rfl, rfl⟩

theorem dialogue_wrapper {flow : Flow Primitive}
    (h : (Step.inspect fun w => match w.native? v with
      | some n => hostToPrimitive n
      | none => .ready .undefined : Evaluation E Primitive).Dialogue w es flow w') :
    HostConversion (w.native? v) es flow := by
  have hnext := Step.Dialogue.of_inspect h
  split at hnext
  · next n hn =>
    rw [hn]
    exact dialogue_hostToPrimitive hnext
  · next hn =>
    rw [hn]
    obtain ⟨rfl, rfl, -⟩ := Step.Dialogue.of_finished (w := w) rfl hnext
    exact ⟨rfl, rfl⟩

theorem asked_of_dialogue {flow : Flow Primitive} (hp : v.primitive? = none)
    (ha : ∀ id, v ≠ .array id) (h : (toPrimitiveBy joinArray realm hint v).Dialogue w es flow w') :
    v.Asked w realm hint es flow := by
  cases v with
  | primitive p => cases hp
  | array id => exact absurd rfl (ha id)
  | object id =>
    obtain ⟨calls, rfl, hcalls⟩ := dialogue_convertBy h
    exact ⟨calls, rfl, hcalls, hcalls.conversion⟩
  | bridge id => exact dialogue_wrapper h
  | link id => exact dialogue_wrapper h

end Evaluation

/-! ## Arrays -/

/-- Conversions of objects and wrappers to strings, one behind the other up to the first one that
    fails. -/
inductive Conversions (E : Type) [Embedding E] (realm : RealmId) :
    List (Exchange (World E)) → Flow Unit → Prop
  | none : Conversions E realm [] (.ok ())
  | next {w : World E} {v : Value} {es₁ es₂ p outcome} (h : v.Asked w realm .string es₁ (.ok p))
    (rest : Conversions E realm es₂ outcome) : Conversions E realm (es₁ ++ es₂) outcome
  | failed {w : World E} {v : Value} {es c} (h : v.Asked w realm .string es (.error c)) :
    Conversions E realm es (.error c)

theorem Conversions.append {es₁ es₂ : List (Exchange (World E))} {outcome : Flow Unit}
    (h₁ : Conversions E realm es₁ (.ok ())) (h₂ : Conversions E realm es₂ outcome) :
    Conversions E realm (es₁ ++ es₂) outcome := by
  generalize hout : (.ok () : Flow Unit) = first at h₁
  induction h₁ with
  | none => exact h₂
  | next h _ ih =>
    rw [List.append_assoc]
    exact .next h (ih hout)
  | failed h => cases hout

/-- Every dialogue of the evaluation consists of conversions. It fails just when one of them does,
    and its results are of a kind. -/
def Evaluation.OnlyConverts (realm : RealmId) (P : α → Prop) (s : Evaluation E α) : Prop :=
  ∀ w es flow w', s.Dialogue w es flow w' →
    Conversions E realm es (flow.map fun _ => ()) ∧ ∀ a, flow = .ok a → P a

namespace Evaluation.OnlyConverts

variable {P : α → Prop} {Q : β → Prop}

theorem compute {f : World E → α × World E} (h : ∀ w, P (f w).1) :
    OnlyConverts realm P (Step.compute f) := by
  intro w es flow w' hd
  obtain ⟨rfl, rfl, -⟩ := Step.Dialogue.of_finished (Step.settle_compute f w) hd
  exact ⟨.none, fun a ha => by cases ha; exact h w⟩

theorem ready {a : α} (h : P a) : OnlyConverts (E := E) realm P (.ready a) := by
  intro w es flow w' hd
  obtain ⟨rfl, rfl, -⟩ := Step.Dialogue.of_finished (w := w) rfl hd
  exact ⟨.none, fun b hb => by cases hb; exact h⟩

theorem inspect {next : World E → Evaluation E α} (h : ∀ w, OnlyConverts realm P (next w)) :
    OnlyConverts realm P (.inspect next) :=
  fun w es flow w' hd => h w w es flow w' hd.of_inspect

theorem modify {change : World E → World E} {s : Evaluation E α} (h : OnlyConverts realm P s) :
    OnlyConverts realm P (.modify change s) :=
  fun w es flow w' hd => h (change w) es flow w' (hd.congr rfl)

theorem releasing {undo : World E → World E} {s : Evaluation E α}
    (h : OnlyConverts realm P s) : OnlyConverts realm P (s.releasing undo) := by
  intro w es flow w' hd
  obtain ⟨w₁, hs, -⟩ := hd.of_releasing
  exact h w es flow w₁ hs

theorem holding {things : List Thing} {s : Evaluation E α} (h : OnlyConverts realm P s) :
    OnlyConverts realm P (holding things s) :=
  h.releasing.modify

theorem andThen {s : Evaluation E α} {f : α → Evaluation E β} (h : OnlyConverts realm P s)
    (hf : ∀ a, P a → OnlyConverts realm Q (f a)) : OnlyConverts realm Q (s.andThen f) := by
  intro w es flow w' hd
  obtain ⟨c, rfl, hs⟩ | ⟨a, es₁, es₂, w₁, rfl, hs, hrest⟩ := hd.andThen_cases
  · exact ⟨(h w es (.error c) w' hs).1, fun b hb => by cases hb⟩
  · obtain ⟨hfirst, ha⟩ := h w es₁ (.ok a) w₁ hs
    obtain ⟨hsecond, hb⟩ := hf a (ha a rfl) w₁ es₂ flow w' hrest
    exact ⟨hfirst.append hsecond, hb⟩

end Evaluation.OnlyConverts

namespace Evaluation

/-- The conversion of an element to a string, when arrays are joined in such a way. -/
theorem onlyConverts_toPrimitiveBy {joinArray : ArrayId → Evaluation E Primitive}
    (hj : ∀ id, OnlyConverts realm (fun p => p.isString = true) (joinArray id)) (v : Value) :
    OnlyConverts realm (fun _ => True) (toPrimitiveBy joinArray realm .string v) := by
  intro w es flow w' hd
  have hasked (hv : v.Asked w realm .string es flow) :
      Conversions E realm es (flow.map fun _ => ()) := by
    cases flow with
    | error c => exact .failed hv
    | ok p =>
      have hnext := Conversions.next hv .none
      rw [List.append_nil] at hnext
      exact hnext
  refine ⟨?_, fun _ _ => trivial⟩
  cases v with
  | primitive p =>
    obtain ⟨rfl, rfl, -⟩ := Step.Dialogue.of_finished (w := w) rfl hd
    exact .none
  | object id => exact hasked (asked_of_dialogue rfl (by simp) hd)
  | bridge id => exact hasked (asked_of_dialogue rfl (by simp) hd)
  | link id => exact hasked (asked_of_dialogue rfl (by simp) hd)
  | array id =>
    have hjoin : (joinArray id).Dialogue w es flow w' :=
      hd.congr (settle_convertBy realm (v := .array id) (fun _ => rfl) .string).symm
    exact (hj id w es flow w' hjoin).1

theorem onlyConverts_elementTexts {toText : Value → Evaluation E String}
    (h : ∀ v, OnlyConverts realm (fun _ => True) (toText v)) (vs : List Value)
    (done : List String) : OnlyConverts realm (fun _ => True) (elementTexts toText vs done) := by
  induction vs generalizing done with
  | nil => exact .ready trivial
  | cons v rest ih =>
    have hmore : OnlyConverts realm (fun _ => True)
        ((holding (Thing.ofValues rest) (toText v)).andThen fun s =>
          elementTexts toText rest (s :: done)) :=
      (h v).holding.andThen fun s _ => ih (s :: done)
    cases v with
    | primitive p => exact ih _
    | object id => exact hmore
    | array id => exact hmore
    | bridge id => exact hmore
    | link id => exact hmore

theorem onlyConverts_join {toText : Value → Evaluation E String}
    (h : ∀ v, OnlyConverts realm (fun _ => True) (toText v)) (id : ArrayId) :
    OnlyConverts realm (fun p => p.isString = true) (join toText id) := by
  refine .inspect fun w => ?_
  show OnlyConverts realm _ (ite _ _ _)
  split
  · exact .ready rfl
  · refine OnlyConverts.modify (OnlyConverts.releasing ?_)
    refine (onlyConverts_elementTexts h _ []).holding.andThen fun texts _ => ?_
    exact (OnlyConverts.compute (P := fun _ => True) fun _ => trivial).andThen fun t _ => .ready rfl

/-- An array is converted by converting what is in it, at every depth. -/
theorem onlyConverts_joinWithin (depth : Nat) (id : ArrayId) :
    OnlyConverts (E := E) realm (fun p => p.isString = true) (joinWithin realm depth id) := by
  induction depth generalizing id with
  | zero =>
    intro w es flow w' hd
    exact absurd hd (Step.Dialogue.not_of_faulted (w := w) rfl)
  | succ depth ih =>
    refine onlyConverts_join (fun v => ?_) id
    exact (onlyConverts_toPrimitiveBy ih v).andThen fun p _ => .ready trivial

end Evaluation

/-! ## Conversions and operators -/

/-- The dialogue of converting a value in a world. -/
def Value.Converts (w : World E) (realm : RealmId) (hint : Hint) (v : Value)
    (es : List (Exchange (World E))) (flow : Flow Primitive) : Prop :=
  match v with
  | .primitive p => es = [] ∧ flow = .ok p
  | .array _ => Conversions E realm es (flow.map fun _ => ()) ∧
      ∀ p, flow = .ok p → p.isString = true
  | v => v.Asked w realm hint es flow

/-- An operation with these exchanges converts the value, once, asks nothing else, and fails when
    the conversion does. -/
def Value.ConvertsOnce (w : World E) (realm : RealmId) (hint : Hint) (v : Value)
    (es : List (Exchange (World E))) (flow : Flow α) (w' : World E) : Prop :=
  ∃ outcome, (v.toPrimitive hint realm).Dialogue w es outcome w' ∧
    ∀ c, outcome = .error c → flow = .error c

namespace Evaluation

variable {a b v : Value} {hint : Hint}

theorem settle_toPrimitive (v : Value) (hint : Hint) (realm : RealmId) (w : World E) :
    ∃ depth, (v.toPrimitive hint realm).settle w =
      (toPrimitiveBy (joinWithin realm depth) realm hint v).settle w :=
  ⟨w.arrays.size + arrayReserve, by rw [Value.toPrimitive, Step.settle]⟩

theorem converts_of_dialogue {flow : Flow Primitive}
    (h : (v.toPrimitive hint realm).Dialogue w es flow w') : v.Converts w realm hint es flow := by
  obtain ⟨depth, hs⟩ := settle_toPrimitive v hint realm w
  have hconvert := h.congr hs.symm
  cases v with
  | primitive p =>
    obtain ⟨rfl, rfl, -⟩ := Step.Dialogue.of_finished (w := w) rfl hconvert
    exact ⟨rfl, rfl⟩
  | object id => exact asked_of_dialogue rfl (by simp) hconvert
  | bridge id => exact asked_of_dialogue rfl (by simp) hconvert
  | link id => exact asked_of_dialogue rfl (by simp) hconvert
  | array id =>
    have hjoin : (joinWithin realm depth id).Dialogue w es flow w' :=
      hconvert.congr (settle_convertBy realm (v := .array id) (fun _ => rfl) hint).symm
    exact onlyConverts_joinWithin depth id w es flow w' hjoin

/-- A conversion whose result is used without further requests. -/
theorem convertsOnce_of_dialogue {f : Primitive → Evaluation E α} {flow : Flow α}
    (hf : ∀ p, (f p).AsksAtMost 0)
    (h : ((v.toPrimitive hint realm).andThen f).Dialogue w es flow w') :
    ∃ w₁, v.ConvertsOnce w realm hint es flow w₁ := by
  obtain ⟨c, rfl, hd⟩ | ⟨p, es₁, es₂, w₁, rfl, hd, hrest⟩ := h.andThen_cases
  · exact ⟨w', .error c, hd, fun c' hc' => by cases hc'; rfl⟩
  · rw [(hf p).eq_nil hrest, List.append_nil]
    exact ⟨w₁, .ok p, hd, fun c hc => by cases hc⟩

/-- A conversion whose result is only looked at. -/
theorem convertsOnce_of_orFault {f : Primitive → Except Fault α} {flow : Flow α}
    (h : ((v.toPrimitive hint realm).andThen fun p => Step.orFault (f p)).Dialogue w es flow w') :
    v.ConvertsOnce w realm hint es flow w' := by
  obtain ⟨c, rfl, hd⟩ | ⟨p, es₁, es₂, w₁, rfl, hd, hrest⟩ := h.andThen_cases
  · exact ⟨.error c, hd, fun c' hc' => by cases hc'; rfl⟩
  · cases hp : f p with
    | error e =>
      rw [hp] at hrest
      exact absurd hrest (Step.Dialogue.not_of_faulted (w := w₁) rfl)
    | ok x =>
      rw [hp] at hrest
      obtain ⟨rfl, rfl, rfl⟩ := Step.Dialogue.of_finished (w := w₁) rfl hrest
      rw [List.append_nil]
      exact ⟨.ok p, hd, fun c hc => by cases hc⟩

/-- The operands of a sum are converted one after the other, the right one only behind a result of
    the left one. -/
theorem dialogue_add {flow : Flow Value} (h : (a.add b realm).Dialogue w es flow w') :
    ∃ es₁ es₂ outcome w₁, es = es₁ ++ es₂ ∧
      (a.toPrimitive .default realm).Dialogue (w.hold (Thing.ofValues [b])) es₁ outcome w₁ ∧
      ((∃ c, outcome = .error c ∧ es₂ = [] ∧ flow = .error c) ∨
        ∃ p w₂, outcome = .ok p ∧
          b.ConvertsOnce (w₁.letGo (Thing.ofValues [b])) realm .default es₂ flow w₂) := by
  have hsteps : ((holding (Thing.ofValues [b]) (a.toPrimitive .default realm)).andThen fun p =>
      (b.toPrimitive .default realm).andThen fun q =>
        (Value.addPrimitives p q : Evaluation E Value)).Dialogue w es flow w' := h
  obtain ⟨c, rfl, hd⟩ | ⟨p, es₁, es₂, w₁, rfl, hd, hrest⟩ := hsteps.andThen_cases
  · obtain ⟨w₁, hleft, -⟩ := hd.of_holding
    exact ⟨es, [], .error c, w₁, (List.append_nil es).symm, hleft, .inl ⟨c, rfl, rfl, rfl⟩⟩
  · obtain ⟨w₁, hleft, rfl⟩ := hd.of_holding
    obtain ⟨w₂, hright⟩ := convertsOnce_of_dialogue (asksAtMost_addPrimitives p) hrest
    exact ⟨es₁, es₂, .ok p, w₁, rfl, hleft, .inr ⟨p, w₂, rfl, hright⟩⟩

/-- A comparison converts at most one of its operands, and that once. -/
theorem dialogue_looseEq {flow : Flow Bool} (h : (a.looseEq b realm).Dialogue w es flow w') :
    (a.comparand? b = none → es = []) ∧
      ∀ v ∈ a.comparand? b, v.ConvertsOnce w realm .default es flow w' := by
  have hcompares := Value.comparesBehind_looseEq (E := E) a b realm
  cases hv : a.comparand? b with
  | none =>
    rw [hv] at hcompares
    obtain ⟨result, hresult, heq⟩ := hcompares
    rw [heq] at h
    exact ⟨fun _ => (Step.AsksAtMost.orFault hresult).eq_nil h, fun v hv => (nomatch hv)⟩
  | some v =>
    rw [hv] at hcompares
    obtain ⟨f, -, heq⟩ := hcompares
    rw [heq] at h
    exact ⟨fun hnone => (nomatch hnone),
      fun u hu => Option.some_inj.mp hu ▸ convertsOnce_of_orFault h⟩

end Evaluation

/-! ## Ends -/

open Driver (Evaluates Ends)

/-- The operations on two values end just when the conversions do that they make. -/
structure Value.OperationsEndIff (spent : World E → Prop) (handler : Handler (World E))
    (realm : RealmId) (a b : Value) (w : World E) : Prop where
  toNumber : Ends spent handler (a.toNumber realm) w ↔
    Ends spent handler (a.toPrimitive .number realm) w
  toText : Ends spent handler (a.toText realm) w ↔
    Ends spent handler (a.toPrimitive .string realm) w
  add : Ends spent handler (a.add b realm) w ↔
    Ends spent handler (Evaluation.holding (Thing.ofValues [b]) (a.toPrimitive .default realm)) w ∧
      ∀ {log p w'}, Evaluates handler
        (Evaluation.holding (Thing.ofValues [b]) (a.toPrimitive .default realm)) w log (.ok p) w' →
          Ends spent handler (b.toPrimitive .default realm) w'
  looseEq : Ends spent handler (a.looseEq b realm) w ↔
    ∀ v ∈ a.comparand? b, Ends spent handler (v.toPrimitive .default realm) w

/-- The operations on two values end. -/
structure Value.OperationsEnd (spent : World E → Prop) (handler : Handler (World E))
    (realm : RealmId) (a b : Value) (w : World E) : Prop where
  toPrimitive (hint : Hint) : Ends spent handler (a.toPrimitive hint realm) w
  toNumber : Ends spent handler (a.toNumber realm) w
  toText : Ends spent handler (a.toText realm) w
  add : Ends spent handler (a.add b realm) w
  looseEq : Ends spent handler (a.looseEq b realm) w

namespace Value

variable {handler : Handler (World E)} {a b : Value}

theorem operationsEndIff (spent : World E → Prop) (handler : Handler (World E))
    (realm : RealmId) (a b : Value) (w : World E) :
    a.OperationsEndIff spent handler realm b w where
  toNumber := Step.ends_andThen_iff_left fun p => .orFault p.toNumber_ne_endlessJoin
  toText := Step.ends_andThen_iff_left fun _ => .ready _
  add := Driver.ends_andThen_iff.trans <| and_congr_right fun _ =>
    ⟨fun h _ _ _ heval => (Step.ends_andThen_iff_left (Evaluation.asksAtMost_addPrimitives _)).mp
      (h heval), fun h _ _ _ heval =>
      (Step.ends_andThen_iff_left (Evaluation.asksAtMost_addPrimitives _)).mpr (h heval)⟩
  looseEq := ends_looseEq_iff

theorem operationsEnd_of_answers (ha : handler.Answers w.Spent) (hk : handler.KeepsMarks)
    (realm : RealmId) (a b : Value) : a.OperationsEnd w.Spent handler realm b w := by
  have hconversion (v : Value) (hint : Hint) :
      Ends w.Spent handler (v.toPrimitive hint realm) w := v.ends_toPrimitive ha hk hint realm
  have hends := operationsEndIff w.Spent handler realm a b w
  exact ⟨hconversion a, hends.toNumber.mpr (hconversion a .number),
    hends.toText.mpr (hconversion a .string), ends_add ha hk a b realm,
    hends.looseEq.mpr fun v _ => hconversion v .default⟩

end Value

/-! ## The result -/

end ScriptSandbox
