import ScriptSandbox.Proofs.Operation.JoinDepth
import ScriptSandbox.Proofs.Step.Mapping
import ScriptSandbox.Session.Basic

/-
  Loose equality.

  Whichever side it stands on, an operand that is no primitive is converted for a primitive one, and
  a primitive is compared with the result (`compareConverted`). The comparison of primitives is
  symmetric (`Primitive.looseEq_comm`), so a comparison and its mirror image are the same step, and
  inequality is that step with its result negated. It ends just when the conversion of the one
  operand does that is converted (`ends_looseEq_iff`, `looseEq_symmetric`).
-/

namespace ScriptSandbox

theorem Binary64.eqv_comm (x y : Binary64) : x.eqv y = y.eqv x := by
  rw [eqv, eqv, Bool.and_comm (!x.isNaN), BEq.comm (a := x.rank)]

namespace Primitive

variable {p q : Primitive}

/-- Only the numeral in a string can be cut inside a character. -/
theorem exists_toNumber (h : p.isString = false) : ∃ x, p.toNumber = .ok x := by
  cases p with
  | string s => cases h
  | undefined => exact ⟨_, rfl⟩
  | null => exact ⟨_, rfl⟩
  | boolean b => exact ⟨_, rfl⟩
  | number n => exact ⟨_, rfl⟩

/-- Two primitives that are not both strings are compared as numbers, unless one of them is
    nullish. -/
theorem looseEq_of_not_strings (h : (p.isString && q.isString) = false) :
    p.looseEq q =
      if p.isNullish || q.isNullish then .ok (p.isNullish && q.isNullish)
      else p.toNumber.bind fun x => q.toNumber.map fun y => x.eqv y := by
  cases p <;> cases q <;> first | rfl | cases h

theorem looseEq_comm (p q : Primitive) : p.looseEq q = q.looseEq p := by
  cases hstrings : p.isString && q.isString with
  | true =>
    obtain ⟨hp, hq⟩ := Bool.and_eq_true_iff.mp hstrings
    cases p <;> cases hp
    cases q <;> cases hq
    exact congrArg _ BEq.comm
  | false =>
    have hmirrored : (q.isString && p.isString) = false := by rw [Bool.and_comm, hstrings]
    have hnumbers : (p.toNumber.bind fun x => q.toNumber.map fun y => x.eqv y) =
        q.toNumber.bind fun x => p.toNumber.map fun y => x.eqv y := by
      -- one of the numeric values is there, so the fault can only be that of the other
      obtain hp | hq := Bool.and_eq_false_iff.mp hstrings
      · obtain ⟨x, hx⟩ := exists_toNumber hp
        rw [hx]
        cases q.toNumber with
        | error e => rfl
        | ok y => exact congrArg Except.ok (x.eqv_comm y)
      · obtain ⟨y, hy⟩ := exists_toNumber hq
        rw [hy]
        cases p.toNumber with
        | error e => rfl
        | ok x => exact congrArg Except.ok (x.eqv_comm y)
    rw [looseEq_of_not_strings hstrings, looseEq_of_not_strings hmirrored, hnumbers,
      Bool.or_comm, Bool.and_comm]

theorem looseEq_ne_endlessJoin (p q : Primitive) : p.looseEq q ≠ .error .endlessJoin := by
  cases hstrings : p.isString && q.isString with
  | true =>
    obtain ⟨hp, hq⟩ := Bool.and_eq_true_iff.mp hstrings
    cases p <;> cases hp
    cases q <;> cases hq
    exact nofun
  | false =>
    rw [looseEq_of_not_strings hstrings]
    split
    · exact nofun
    · have hp := p.toNumber_ne_endlessJoin
      have hq := q.toNumber_ne_endlessJoin
      cases hx : p.toNumber with
      | error e =>
        rw [hx] at hp
        exact fun he => hp (congrArg Except.error (Except.error.inj he))
      | ok x =>
        cases hy : q.toNumber with
        | error e =>
          rw [hy] at hq
          exact fun he => hq (congrArg Except.error (Except.error.inj he))
        | ok y => exact nofun

end Primitive

variable {E : Type} [Embedding E]

/-- Compare a primitive with what a value is converted to. What needs a conversion never equals
    `undefined` or `null`. -/
def Evaluation.compareConverted (realm : RealmId) (p : Primitive) (v : Value) :
    Evaluation E Bool :=
  if p.isNullish then .ready false
  else (v.toPrimitive .default realm).andThen fun q => Step.orFault (p.looseEq q)

namespace Value

open Evaluation

theorem looseEq_eq (a b : Value) (realm : RealmId) :
    (a.looseEq b realm : Evaluation E Bool) =
      match a.primitive?, b.primitive? with
      | some p, some q => Step.orFault (p.looseEq q)
      | some p, none => compareConverted realm p b
      | none, some q => compareConverted realm q a
      | none, none => .ready (a.sameRef b) := by
  have hconverted (q : Primitive) (v : Value) : compareConverted realm q v =
      if q.isNullish then .ready false
      else (v.toPrimitive .default realm).andThen fun p =>
        (Step.orFault (p.looseEq q) : Evaluation E Bool) := by
    simp only [compareConverted, q.looseEq_comm]
  cases a with
  | primitive p => cases b <;> rfl
  | object i | array i | bridge i | link i =>
    cases b with
    | primitive q => exact (hconverted q _).symm
    | object j | array j | bridge j | link j => rfl

/-- A comparison and its mirror image are the same step. -/
theorem looseEq_comm (a b : Value) (realm : RealmId) :
    (a.looseEq b realm : Evaluation E Bool) = b.looseEq a realm := by
  rw [looseEq_eq, looseEq_eq]
  cases a.primitive? with
  | some p =>
    cases b.primitive? with
    | some q => exact congrArg Step.orFault (p.looseEq_comm q)
    | none => rfl
  | none =>
    cases b.primitive? with
    | some q => rfl
    | none =>
      have href : a.sameRef b = b.sameRef a := decide_eq_decide.mpr eq_comm
      exact congrArg Step.ready href

/-! ## Ends -/

open Driver (Ends Terminates runWithin requestsWithin)

/-- The operand that a comparison converts: the one that is no primitive, when the other one is a
    primitive and not nullish. -/
def comparand? (a b : Value) : Option Value :=
  match a.primitive?, b.primitive? with
  | some p, none => if p.isNullish then none else some b
  | none, some q => if q.isNullish then none else some a
  | _, _ => none

/-- The step is over at once when there is nothing to convert, and otherwise it converts that value
    and looks at the result. -/
def ComparesBehind (realm : RealmId) (v? : Option Value) (s : Evaluation E Bool) : Prop :=
  match v? with
  | none => ∃ result : Except Fault Bool, result ≠ .error .endlessJoin ∧ s = Step.orFault result
  | some v => ∃ f : Primitive → Except Fault Bool, (∀ p, f p ≠ .error .endlessJoin) ∧
      s = (v.toPrimitive .default realm).andThen fun p => Step.orFault (f p)

theorem comparesBehind_looseEq (a b : Value) (realm : RealmId) :
    ComparesBehind realm (a.comparand? b) (a.looseEq b realm : Evaluation E Bool) := by
  have hone (p : Primitive) (v : Value) :
      ComparesBehind realm (if p.isNullish then none else some v)
        (compareConverted realm p v : Evaluation E Bool) := by
    rw [compareConverted]
    split
    · exact ⟨.ok false, nofun, rfl⟩
    · exact ⟨p.looseEq, p.looseEq_ne_endlessJoin, rfl⟩
  rw [looseEq_eq, comparand?]
  cases a.primitive? with
  | some p =>
    cases b.primitive? with
    | some q => exact ⟨p.looseEq q, p.looseEq_ne_endlessJoin q, rfl⟩
    | none => exact hone p b
  | none =>
    cases b.primitive? with
    | some q => exact hone q a
    | none => exact ⟨.ok (a.sameRef b), nofun, rfl⟩

/-- A comparison ends just when the conversion does that it makes. -/
theorem ends_looseEq_iff {spent : World E → Prop} {handler : Handler (World E)} {a b : Value}
    {realm : RealmId} {w : World E} :
    Ends spent handler (a.looseEq b realm) w ↔
      ∀ v ∈ a.comparand? b, Ends spent handler (v.toPrimitive .default realm) w := by
  have hcompares := comparesBehind_looseEq (E := E) a b realm
  cases hv : a.comparand? b with
  | none =>
    rw [hv] at hcompares
    obtain ⟨result, hresult, heq⟩ := hcompares
    rw [heq]
    exact ⟨fun _ v hv => (nomatch hv), fun _ => (Step.AsksAtMost.orFault hresult).ends_zero⟩
  | some v =>
    rw [hv] at hcompares
    obtain ⟨f, hf, heq⟩ := hcompares
    rw [heq, Step.ends_andThen_iff_left fun p => .orFault (hf p)]
    exact ⟨fun hends u hu => Option.some_inj.mp hu ▸ hends, fun h => h v rfl⟩

end Value

/-- A world with an object that has a `toString` and inherits a `valueOf`. Both are one script
    function. -/
def Session.heirWorld : World Session :=
  { World.empty (ofRecords #[]) with
    objects := #[⟨⟨[("toString", .object 2)]⟩, some (.object 1), none⟩,
      ⟨⟨[("valueOf", .object 2)]⟩, none, none⟩, ⟨∅, none, some ⟨0, none⟩⟩]
    realms := #[.fresh .allow] }

end ScriptSandbox
