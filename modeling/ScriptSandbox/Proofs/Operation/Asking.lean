import ScriptSandbox.Operation.Operator
import ScriptSandbox.Proofs.Step.Dialogue

/-
  How often conversions ask.

  A call asks once at most, and so does the conversion of a wrapper; the conversion of an object
  calls no more methods than the hint names (`asksAtMost_toPrimitive`). Nothing bounds the requests
  of an array before its elements are known. What an operator does with the primitives asks nothing,
  and stumbles over nothing but a numeral.
-/

namespace ScriptSandbox

theorem Number.readChars_ne_endlessJoin (cs : List Char) :
    readChars cs ≠ .error .endlessJoin := by
  unfold readChars
  split
  · exact nofun
  · unfold readTrimmed
    dsimp only
    repeat' split
    all_goals exact nofun

theorem Primitive.toNumber_ne_endlessJoin (p : Primitive) :
    p.toNumber ≠ .error .endlessJoin := by
  cases p with
  | string s => exact Number.readChars_ne_endlessJoin s.content.toList
  | undefined | null | boolean b | number n => exact nofun

/-- The most requests that the conversion of a value makes. Nothing bounds those of an array before
    its elements are known. -/
def Value.askBound? : Value → Option Nat
  | .primitive _ => some 0
  | .object _ => some 2
  | .bridge _ | .link _ => some 1
  | .array _ => none

variable {E α : Type} {realm : RealmId} {id : ObjectId}

namespace Evaluation

/-! ## Calls -/

theorem asksAtMost_toHost (v : Value) : (toHost v : Evaluation E HostValue).AsksAtMost 0 := by
  refine Step.AsksAtMost.compute.andThen (m := 0) fun found => ?_
  cases found with
  | some h => trivial
  | none => exact nofun

theorem asksAtMost_toHostList (vs : List Value) :
    (toHostList vs : Evaluation E (List HostValue)).AsksAtMost 0 := by
  refine Step.AsksAtMost.compute.andThen (m := 0) fun found => ?_
  cases found with
  | some hs => trivial
  | none => exact nofun

variable [Embedding E]

theorem asksAtMost_hostResult (method : World E → Except HostError α × World E) :
    (hostResult realm method).AsksAtMost 0 := by
  refine Step.AsksAtMost.compute.andThen (m := 0) fun result => ?_
  cases result with
  | ok a => trivial
  | error e => exact fun w => trivial

theorem asksAtMost_hostCall {wrap : Wrapper E} {n : Native} {receiver : Value}
    {args : List Value} : (hostCall wrap realm n receiver args).AsksAtMost 1 := by
  intro w
  show (ite (w.isNativeCallable n = true) _ _ : Evaluation E Value).AsksAtMost 1
  split
  · refine (asksAtMost_toHost receiver).andThen (m := 1) fun receiver => ?_
    refine (asksAtMost_toHostList args).andThen (m := 1) fun args => ?_
    refine ⟨0, rfl, fun answer => ?_⟩
    cases answer with
    | error c => trivial
    | ok u =>
      refine Step.AsksAtMost.releasing ((asksAtMost_hostResult _).andThen (m := 0) fun h => ?_)
      exact fun w => trivial
  · exact fun w w => trivial

theorem asksAtMost_call (v receiver : Value) (args : List Value) :
    (v.call receiver args realm : Evaluation E Value).AsksAtMost 1 := by
  have hrefuse : (do
      let text ← Step.read (·.debugText v)
      fail realm (.notCallable text) : Evaluation E Value).AsksAtMost 1 := fun w w => trivial
  cases v with
  | primitive p => exact hrefuse
  | array id => exact hrefuse
  | object id =>
    simp only [Value.call, Step.AsksAtMost]
    intro w
    split
    · exact ⟨0, rfl, fun answer => trivial⟩
    · exact hrefuse
  | bridge id =>
    simp only [Value.call, Step.AsksAtMost]
    intro w
    split
    · exact asksAtMost_hostCall
    · exact hrefuse
  | link id =>
    simp only [Value.call, Step.AsksAtMost]
    intro w
    split
    · exact asksAtMost_hostCall
    · exact hrefuse

/-! ## Conversions -/

variable {joinArray : ArrayId → Evaluation E Primitive} {v : Value} {hint : Hint}

theorem asksAtMost_convertBy (methods : List ConversionMethod) :
    (convertBy joinArray realm (.object id) methods).AsksAtMost methods.length := by
  induction methods with
  | nil => exact fun w => trivial
  | cons m methods ih =>
    simp only [convertBy, Step.AsksAtMost]
    intro w
    split
    · next callee _ =>
      have hcall : (holding [.value (.object id)]
          (callee.call (.object id) [] realm) : Evaluation E Value).AsksAtMost 1 :=
        Step.AsksAtMost.releasing (asksAtMost_call callee (.object id) [])
      rw [List.length_cons, Nat.add_comm]
      refine hcall.andThen fun result => ?_
      cases result with
      | primitive p => trivial
      | object o => exact Step.AsksAtMost.untilRequest ih
      | array a => exact Step.AsksAtMost.untilRequest ih
      | bridge b => exact Step.AsksAtMost.untilRequest ih
      | link l => exact Step.AsksAtMost.untilRequest ih
    · cases m with
      | valueOf => exact ih.mono (Nat.le_succ methods.length)
      | toString => exact fun w w => trivial

theorem asksAtMost_hostToPrimitive (n : Native) :
    (hostToPrimitive n : Evaluation E Primitive).AsksAtMost 1 := by
  refine ⟨0, rfl, fun answer => ?_⟩
  cases answer with
  | ok u => exact fun w => trivial
  | error c => trivial

theorem asksAtMost_toPrimitiveBy {n : Nat} (h : v.askBound? = some n) :
    (toPrimitiveBy joinArray realm hint v).AsksAtMost n := by
  cases v with
  | primitive p => trivial
  | object id =>
    cases h
    have hlength : hint.methods.length = 2 := by cases hint <;> rfl
    rw [← hlength]
    exact asksAtMost_convertBy hint.methods
  | array id => cases h
  | bridge id | link id =>
    cases h
    intro w
    dsimp only
    split
    · exact asksAtMost_hostToPrimitive _
    · trivial

theorem asksAtMost_toPrimitive {n : Nat} (h : v.askBound? = some n) (hint : Hint)
    (realm : RealmId) : (v.toPrimitive hint realm : Evaluation E Primitive).AsksAtMost n := by
  rw [Value.toPrimitive, Step.AsksAtMost]
  exact fun w => asksAtMost_toPrimitiveBy h

omit [Embedding E] in
theorem asksAtMost_addPrimitives (p q : Primitive) :
    (Value.addPrimitives p q : Evaluation E Value).AsksAtMost 0 := by
  rw [Value.addPrimitives]
  split
  · exact fun w => trivial
  · refine (Step.AsksAtMost.orFault p.toNumber_ne_endlessJoin).andThen (m := 0) fun x => ?_
    exact (Step.AsksAtMost.orFault q.toNumber_ne_endlessJoin).andThen (m := 0) fun y => trivial

end Evaluation

end ScriptSandbox
