import ScriptSandbox.Operation.Operator
import ScriptSandbox.Proofs.Number.Grammar
import ScriptSandbox.Proofs.Operation.Equality
import ScriptSandbox.Proofs.Step.Suspension
import ScriptSandbox.Session.Basic

/-
  Coercions of primitives.

  A primitive is converted without a request, so a coercion of primitives is over at once. Whether
  it ends in a value or in a fault is decided by the texts alone. A text that is read as a number is
  cut behind its second byte, so it is read only where a character ends there (`Readable`), and an
  operator ends in a value just if it can read every operand that it takes for a number
  (`coercion_ends_iff`). Strings that are joined, or compared with each other, are not read.
-/

namespace ScriptSandbox

namespace Number

variable {s : String}

/-- What is left of the text without the blanks at its ends can be cut behind two bytes. -/
def Readable (s : String) : Prop := ∀ t, TrimsTo s.toList t → Cuttable t

theorem readable_iff : Readable s ↔ Cuttable (trim s.toList) := by
  refine ⟨fun h => h _ (trimsTo_trim _), fun h t ht => ?_⟩
  rwa [← ht.trim_eq]

theorem exists_ofText (h : Readable s) : ∃ x, Binary64.ofText s = .ok x := by
  rw [ofText_eq]
  by_cases hne : trim s.toList = []
  · exact ⟨.zero, if_pos hne⟩
  · obtain ⟨x, hread, -⟩ := readTrimmed_isNaN_iff hne (readable_iff.mp h)
    exact ⟨x, (if_neg hne).trans hread⟩

theorem ofText_of_not_readable (h : ¬Readable s) :
    Binary64.ofText s = .error .splitCharacter := by
  rw [readable_iff] at h
  have hne : trim s.toList ≠ [] := by
    intro hnil
    rw [hnil] at h
    exact h (by decide)
  rw [ofText_eq, if_neg hne]
  exact readTrimmed_of_not_cuttable h

end Number

/-! ## Steps that end in a result or inside a character -/

namespace Step

variable {σ α β : Type} {C D : Prop}

/-- The step asks for nothing. It has a result if `C` holds, and otherwise it breaks off inside a
    character. -/
structure EndsIff (C : Prop) (s : Step σ α) : Prop where
  result (h : C) (w : σ) : ∃ a w', s.settle w = (.finished (.ok a), w')
  fault (h : ¬C) (w : σ) : ∃ w', s.settle w = (.faulted .splitCharacter, w')

namespace EndsIff

theorem congr {s : Step σ α} (h : s.EndsIff C) (hCD : C ↔ D) : s.EndsIff D :=
  ⟨fun hD => h.result (hCD.mpr hD), fun hD => h.fault fun hC => hD (hCD.mp hC)⟩

theorem ready (a : α) : (Step.ready a : Step σ α).EndsIff True :=
  ⟨fun _ w => ⟨a, w, rfl⟩, fun h => absurd trivial h⟩

theorem inspect {next : σ → Step σ α} (h : ∀ w, (next w).EndsIff C) :
    (Step.inspect next).EndsIff C :=
  ⟨fun hC w => (h w).result hC w, fun hC w => (h w).fault hC w⟩

theorem modify {change : σ → σ} {next : Step σ α} (h : next.EndsIff C) :
    (Step.modify change next).EndsIff C :=
  ⟨fun hC w => h.result hC (change w), fun hC w => h.fault hC (change w)⟩

theorem compute (f : σ → α × σ) : (Step.compute f).EndsIff True :=
  ⟨fun _ _ => ⟨_, _, rfl⟩, fun h => absurd trivial h⟩

theorem andThen {s : Step σ α} {f : α → Step σ β} (h : s.EndsIff C)
    (hf : ∀ a, (f a).EndsIff D) : (s.andThen f).EndsIff (C ∧ D) := by
  constructor
  · rintro ⟨hC, hD⟩ w
    obtain ⟨a, w', hs⟩ := h.result hC w
    obtain ⟨b, w'', hb⟩ := (hf a).result hD w'
    refine ⟨b, w'', ?_⟩
    rw [settle_andThen, hs]
    exact hb
  · intro hCD w
    by_cases hC : C
    · -- the first step has a result, so the fault is that of the second one
      obtain ⟨a, w', hs⟩ := h.result hC w
      obtain ⟨w'', hb⟩ := (hf a).fault (fun hD => hCD ⟨hC, hD⟩) w'
      refine ⟨w'', ?_⟩
      rw [settle_andThen, hs]
      exact hb
    · obtain ⟨w', hs⟩ := h.fault hC w
      refine ⟨w', ?_⟩
      rw [settle_andThen, hs]

theorem map {s : Step σ α} (h : s.EndsIff C) (f : α → β) :
    (s.andThen fun a => .ready (f a)).EndsIff C :=
  (h.andThen fun a => ready (f a)).congr (and_iff_left trivial)

theorem holding {E : Type} {s : Evaluation E α} (h : s.EndsIff C) (things : List Thing) :
    (Evaluation.holding things s).EndsIff C := by
  constructor
  · intro hC w
    obtain ⟨a, w', hs⟩ := h.result hC (w.hold things)
    refine ⟨a, w'.letGo things, ?_⟩
    rw [Evaluation.holding, settle, settle_releasing, hs]
  · intro hC w
    obtain ⟨w', hs⟩ := h.fault hC (w.hold things)
    refine ⟨w'.letGo things, ?_⟩
    rw [Evaluation.holding, settle, settle_releasing, hs]

end EndsIff

end Step

/-! ## Primitives -/

namespace Primitive

/-- The primitive is no string, or one that can be read as a number. -/
def Readable : Primitive → Prop
  | .string s => Number.Readable s.content
  | _ => True

/-- The primitives are compared as numbers: neither is nullish, and not both are strings. -/
def ComparedAsNumbers (p q : Primitive) : Prop :=
  p.isNullish = false ∧ q.isNullish = false ∧ (p.isString && q.isString) = false

variable {σ : Type} {p q : Primitive}

theorem readable_of_isString (h : p.isString = false) : p.Readable := by
  cases p with
  | string s => cases h
  | undefined | null | boolean b | number n => trivial

/-- Where no numbers are compared nothing is read. -/
theorem exists_looseEq (h : ¬p.ComparedAsNumbers q) : ∃ r, p.looseEq q = .ok r := by
  cases hstrings : p.isString && q.isString with
  | true =>
    obtain ⟨hp, hq⟩ := Bool.and_eq_true_iff.mp hstrings
    cases p <;> cases hp
    cases q <;> cases hq
    exact ⟨_, rfl⟩
  | false =>
    have hnullish : (p.isNullish || q.isNullish) = true := by
      by_contra hne
      rw [Bool.not_eq_true, Bool.or_eq_false_iff] at hne
      exact h ⟨hne.1, hne.2, hstrings⟩
    rw [looseEq_of_not_strings hstrings, if_pos hnullish]
    exact ⟨_, rfl⟩

variable (p q)

theorem toNumber_ends : (Step.orFault p.toNumber : Step σ Binary64).EndsIff p.Readable := by
  cases p with
  | string s =>
    constructor
    · intro h w
      obtain ⟨x, hx⟩ := Number.exists_ofText h
      exact ⟨x, w, by rw [toNumber, hx]; rfl⟩
    · intro h w
      exact ⟨w, by rw [toNumber, Number.ofText_of_not_readable h]; rfl⟩
  | undefined | null | boolean b | number n => exact .ready _

theorem looseEq_ends : (Step.orFault (p.looseEq q) : Step σ Bool).EndsIff
    (p.ComparedAsNumbers q → p.Readable ∧ q.Readable) := by
  by_cases h : p.ComparedAsNumbers q
  · obtain ⟨hp, hq, hstrings⟩ := h
    have hcompared : (Step.orFault (p.looseEq q) : Step σ Bool) =
        (Step.orFault p.toNumber).andThen fun x =>
          (Step.orFault q.toNumber).andThen fun y => .ready (x.eqv y) := by
      rw [looseEq_of_not_strings hstrings, hp, hq]
      cases p.toNumber <;> cases q.toNumber <;> rfl
    rw [hcompared]
    refine (p.toNumber_ends.andThen fun x => q.toNumber_ends.map x.eqv).congr ?_
    exact ⟨fun h _ => h, fun h => h ⟨hp, hq, hstrings⟩⟩
  · obtain ⟨r, hr⟩ := exists_looseEq h
    rw [hr]
    exact (Step.EndsIff.ready r).congr ⟨fun _ hcompared => absurd hcompared h, fun _ => trivial⟩

end Primitive

namespace Value

open Step (EndsIff)

variable {E : Type} (p q : Primitive) (realm : RealmId)

/-- Where there is a string the texts are joined, and other primitives can always be read. -/
theorem addPrimitives_ends : (addPrimitives p q : Evaluation E Value).EndsIff True := by
  unfold addPrimitives
  split
  · exact .compute _
  · next hstrings =>
    rw [Bool.not_eq_true, Bool.or_eq_false_iff] at hstrings
    have hreadable := And.intro (Primitive.readable_of_isString hstrings.1)
      (Primitive.readable_of_isString hstrings.2)
    exact (p.toNumber_ends.andThen fun x => q.toNumber_ends.map fun y => number (x.add y)).congr
      (iff_true_intro hreadable)

variable [Embedding E]

theorem toNumber_ends :
    ((Value.primitive p).toNumber realm : Evaluation E Binary64).EndsIff p.Readable :=
  .inspect fun _ => p.toNumber_ends

theorem binary_ends (op : NumericOperator) :
    ((Value.primitive p).binary op (.primitive q) realm : Evaluation E Value).EndsIff
      (p.Readable ∧ q.Readable) :=
  ((toNumber_ends p realm).holding _).andThen fun x => (toNumber_ends q realm).map (op.apply x)

theorem add_ends :
    ((Value.primitive p).add (.primitive q) realm : Evaluation E Value).EndsIff True :=
  -- both conversions give the primitives themselves
  .modify (.inspect fun _ => .modify (.inspect fun _ => addPrimitives_ends p q))

/-- A text is read as a number just if it can be cut behind two bytes; otherwise there is a fault.
    So it is with the conversion of a primitive and with the operators on one operand. An operator
    on numbers, comparisons included, needs both operands to be like that, and loose equality does
    where it compares numbers. Addition always ends in a value. -/
theorem coercion_ends_iff :
    (∀ s, (Number.Readable s → ∃ x, Binary64.ofText s = .ok x) ∧
      (¬Number.Readable s → Binary64.ofText s = .error .splitCharacter)) ∧
    ((Value.primitive p).toNumber realm : Evaluation E Binary64).EndsIff p.Readable ∧
    ((Value.primitive p).negate realm : Evaluation E Value).EndsIff p.Readable ∧
    ((Value.primitive p).unaryPlus realm : Evaluation E Value).EndsIff p.Readable ∧
    ((Value.primitive p).bitNot realm : Evaluation E Value).EndsIff p.Readable ∧
    (∀ op, ((Value.primitive p).binary op (.primitive q) realm : Evaluation E Value).EndsIff
      (p.Readable ∧ q.Readable)) ∧
    ((Value.primitive p).add (.primitive q) realm : Evaluation E Value).EndsIff True ∧
    ((Value.primitive p).looseEq (.primitive q) realm : Evaluation E Bool).EndsIff
      (p.ComparedAsNumbers q → p.Readable ∧ q.Readable) ∧
    ((Value.primitive p).looseNe (.primitive q) realm : Evaluation E Bool).EndsIff
      (p.ComparedAsNumbers q → p.Readable ∧ q.Readable) := by
  have hnumber : ((Value.primitive p).toNumber realm : Evaluation E Binary64).EndsIff p.Readable :=
    toNumber_ends p realm
  refine ⟨fun s => ⟨Number.exists_ofText, Number.ofText_of_not_readable⟩, hnumber, ?_, ?_, ?_,
    binary_ends p q realm, add_ends p q realm, p.looseEq_ends q, ?_⟩
  · exact hnumber.map fun x => number x.neg
  · exact hnumber.map fun x => number x
  · exact hnumber.map fun x => number x.bitNot
  · exact (p.looseEq_ends q).map Bool.not

end Value

/-- A letter of two bytes ends where the text is cut. -/
theorem Session.coercion_ends_iff_accented :
    Number.Readable "é5" ∧ (∃ x, Binary64.ofText "é5" = .ok x) ∧
    ∃ a w', Step.settle
      (Value.binary .subtract (.string ⟨1, "é5"⟩) (.number .zero) 0 : Evaluation Session Value)
      (World.empty (ofRecords #[])) = (.finished (.ok a), w') := by
  have hcut : Number.Readable "é5" := by
    rw [Number.readable_iff]
    decide
  obtain ⟨htext, -, -, -, -, hbinary, -⟩ := Value.coercion_ends_iff (E := Session)
    (.string ⟨1, "é5"⟩) (.number .zero) 0
  exact ⟨hcut, (htext _).1 hcut, (hbinary .subtract).result ⟨hcut, trivial⟩ _⟩

/-- The euro sign takes three bytes, so a text that starts with it is not cut behind two. A script
    that makes such a string and subtracts from it breaks off. -/
theorem Session.subtraction_breaks_off :
    Binary64.ofText "€5" = .error .splitCharacter ∧
    ∃ w', Step.settle (do
        let v ← Step.compute (World.newString "€5")
        v.binary .subtract (.number .zero) 0)
      (World.empty (ofRecords #[])) = (.faulted .splitCharacter, w') := by
  have hcut : ¬Number.Readable "€5" := by
    rw [Number.readable_iff]
    decide
  refine ⟨Number.ofText_of_not_readable hcut, ?_⟩
  exact (Value.binary_ends (.string ⟨1, "€5"⟩) (.number .zero) 0 .subtract).fault
    (fun h => hcut h.1) _

end ScriptSandbox
