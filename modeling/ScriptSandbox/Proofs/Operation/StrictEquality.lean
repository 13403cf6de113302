import ScriptSandbox.Proofs.Operation.Equality

/-
  Strict equality.

  Strict equality compares one thing of each value (`identity?`): of a number its place in the order
  of the reals, of a string its characters, of anything else the value itself. A NaN has nothing to
  compare, so it equals nothing, and equality is symmetric and transitive because it is agreement
  (`strictEq_iff`). Loose equality is written on its own, but between values of one kind, and
  between values that are no primitives, it converts nothing and decides the same
  (`equalities_agree`).
-/

namespace ScriptSandbox

namespace Value

/-! ## What is compared -/

/-- The kinds of values. -/
inductive Kind where
  | undefined
  | null
  | boolean
  | number
  | string
  | object
  | array
  | bridge
  | link
deriving DecidableEq, Repr

def kind : Value → Kind
  | .undefined => .undefined
  | .null => .null
  | .boolean _ => .boolean
  | .number _ => .number
  | .string _ => .string
  | .object _ => .object
  | .array _ => .array
  | .bridge _ => .bridge
  | .link _ => .link

def isNaN (v : Value) : Bool := v.asNumber?.any (·.isNaN)

/-- What strict equality compares of a value. -/
inductive Identity where
  | rank (r : Int)
  | content (s : String)
  | itself (v : Value)
deriving DecidableEq

def identity? : Value → Option Identity
  | .number n => if n.isNaN then none else some (.rank n.rank)
  | .string s => some (.content s.content)
  | v => some (.itself v)

variable {a b c : Value}

theorem isSome_identity? (a : Value) : a.identity?.isSome = !a.isNaN := by
  cases a with
  | primitive p =>
    cases p with
    | number n =>
      show (if n.isNaN then none else some (Identity.rank n.rank)).isSome = !n.isNaN
      split <;> simp_all
    | undefined | null | boolean b | string s => rfl
  | object id | array id | bridge id | link id => rfl

/-- Two values are strictly equal when there is something to compare and it is the same. -/
theorem strictEq_iff :
    a.strictEq b = true ↔ ∃ i, a.identity? = some i ∧ b.identity? = some i := by
  rcases a with (_ | _ | _ | x | _) | _ | _ | _ | _ <;>
    rcases b with (_ | _ | _ | y | _) | _ | _ | _ | _
  case primitive.number.primitive.number =>
    show x.eqv y = true ↔ _
    simp only [identity?, Binary64.eqv]
    cases x.isNaN <;> cases y.isNaN <;> simp
    exact eq_comm
  all_goals simp [strictEq, identity?, sameRef]
  all_goals exact eq_comm

/-- A value equals itself unless it is NaN. -/
theorem strictEq_self (a : Value) : a.strictEq a = !a.isNaN := by
  rw [← isSome_identity?, Bool.eq_iff_iff, strictEq_iff, Option.isSome_iff_exists]
  simp only [and_self]

theorem strictEq_comm (a b : Value) : a.strictEq b = b.strictEq a := by
  rw [Bool.eq_iff_iff, strictEq_iff, strictEq_iff]
  simp only [and_comm]

theorem strictEq_trans (hab : a.strictEq b = true) (hbc : b.strictEq c = true) :
    a.strictEq c = true := by
  obtain ⟨i, ha, hb⟩ := strictEq_iff.mp hab
  obtain ⟨j, hb', hc⟩ := strictEq_iff.mp hbc
  obtain rfl : i = j := Option.some_inj.mp (hb.symm.trans hb')
  exact strictEq_iff.mpr ⟨i, ha, hc⟩

/-! ## Kinds -/

def Identity.kind : Identity → Kind
  | .rank _ => .number
  | .content _ => .string
  | .itself v => v.kind

theorem kind_of_identity? {i : Identity} (h : a.identity? = some i) : i.kind = a.kind := by
  rcases a with (_ | _ | _ | n | _) | _ | _ | _ | _
  case primitive.number =>
    obtain ⟨-, hi⟩ := Option.ite_none_left_eq_some.mp h
    exact congrArg Identity.kind (Option.some_inj.mp hi).symm
  all_goals exact congrArg Identity.kind (Option.some_inj.mp h).symm

theorem kind_eq_of_strictEq (h : a.strictEq b = true) : a.kind = b.kind := by
  obtain ⟨i, ha, hb⟩ := strictEq_iff.mp h
  exact (kind_of_identity? ha).symm.trans (kind_of_identity? hb)

variable {E : Type} [Embedding E]

/-- Values that are no primitives are compared as they are. -/
theorem looseEq_of_not_primitive (ha : a.isPrimitive = false) (hb : b.isPrimitive = false)
    (realm : RealmId) : (a.looseEq b realm : Evaluation E Bool) = .ready (a.strictEq b) := by
  cases a <;> cases ha <;> cases b <;> cases hb <;> rfl

theorem eqv_ofFlag :
    ∀ x y, (Primitive.ofFlag x).eqv (Primitive.ofFlag y) = decide (x = y) := by
  decide +kernel

theorem looseEq_primitive_of_kind {p q : Primitive} (h : (primitive p).kind = (primitive q).kind) :
    p.looseEq q = .ok ((primitive p).strictEq (primitive q)) := by
  cases p <;> cases q <;> cases h
  case boolean.boolean x y =>
    show Except.ok _ = Except.ok _
    rw [eqv_ofFlag]
    simp [strictEq, sameRef]
  all_goals rfl

/-- Values of one kind are compared as they are. -/
theorem looseEq_of_kind (h : a.kind = b.kind) (realm : RealmId) :
    (a.looseEq b realm : Evaluation E Bool) = .ready (a.strictEq b) := by
  cases a with
  | primitive p =>
    cases b with
    | primitive q => exact congrArg Step.orFault (looseEq_primitive_of_kind h)
    | object id | array id | bridge id | link id => cases p <;> cases h
  | object id | array id | bridge id | link id =>
    cases b with
    | primitive q => cases q <;> cases h
    | object id | array id | bridge id | link id => rfl

/-- Values that are strictly equal are loosely equal, at once. Between values of one kind, and
    between values that are no primitives, loose equality asks for nothing and is strict equality.
    A value that is not NaN is strictly equal to itself, and strict equality is symmetric and
    transitive. -/
theorem equalities_agree (a b c : Value) (realm : RealmId) :
    (a.strictEq b = true → (a.looseEq b realm : Evaluation E Bool) = .ready true) ∧
      (a.kind = b.kind ∨ a.isPrimitive = false ∧ b.isPrimitive = false →
        (a.looseEq b realm : Evaluation E Bool) = .ready (a.strictEq b)) ∧
      (a.isNaN = false → a.strictEq a = true) ∧
      (a.strictEq b = true → b.strictEq a = true) ∧
      (a.strictEq b = true → b.strictEq c = true → a.strictEq c = true) := by
  refine ⟨fun h => ?_, ?_, fun h => ?_, fun h => ?_, strictEq_trans⟩
  · rw [looseEq_of_kind (kind_eq_of_strictEq h), h]
  · rintro (hkind | ⟨ha, hb⟩)
    · exact looseEq_of_kind hkind realm
    · exact looseEq_of_not_primitive ha hb realm
  · rw [strictEq_self, h]
    rfl
  · rw [strictEq_comm, h]

end Value

/-- One text in two places of the heap, both zeros, a NaN, and a bridge beside a link. -/
theorem Session.equalities_agree_pairs :
    let here := Value.string ⟨1, "x"⟩
    let there := Value.string ⟨2, "x"⟩
    let zero := Value.number .zero
    let negativeZero := Value.number .negativeZero
    let nan := Value.number .nan
    (here.sameRef there = false ∧ there.strictEq here = true ∧ here.strictEq here = true ∧
        (here.looseEq there 0 : Evaluation Session Bool) = .ready true) ∧
      (zero.sameRef negativeZero = false ∧ negativeZero.strictEq negativeZero = true ∧
        (zero.looseEq negativeZero 0 : Evaluation Session Bool) = .ready true) ∧
      (nan.sameRef nan = true ∧ nan.strictEq nan = false ∧
        (nan.looseEq nan 0 : Evaluation Session Bool) = .ready false) ∧
      ((Value.bridge 0).looseEq (.link 0) 0 : Evaluation Session Bool) = .ready false := by
  intro here there zero negativeZero nan
  have htexts : here.strictEq there = true := by decide
  have hzeros : zero.strictEq negativeZero = true := by decide +kernel
  have hnan : nan.strictEq nan = false := by decide +kernel
  obtain ⟨hloose, -, -, hsymm, htrans⟩ :=
    Value.equalities_agree (E := Session) here there here 0
  obtain ⟨hlooseZeros, -⟩ := Value.equalities_agree (E := Session) zero negativeZero nan 0
  obtain ⟨-, -, hself, -⟩ := Value.equalities_agree (E := Session) negativeZero zero nan 0
  obtain ⟨-, hkind, -⟩ := Value.equalities_agree (E := Session) nan nan nan 0
  obtain ⟨-, hwrappers, -⟩ := Value.equalities_agree (E := Session) (.bridge 0) (.link 0) nan 0
  refine ⟨⟨by decide, hsymm htexts, htrans htexts (hsymm htexts), hloose htexts⟩,
    ⟨by decide, hself (by decide +kernel), hlooseZeros hzeros⟩, ⟨by decide, hnan, ?_⟩,
    hwrappers (.inr ⟨rfl, rfl⟩)⟩
  rw [hkind (.inl rfl), hnan]

end ScriptSandbox
