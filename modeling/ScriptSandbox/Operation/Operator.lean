import ScriptSandbox.Number.Word
import ScriptSandbox.Operation.Coercion

/-
  Operators.

  The numeric operators convert the left operand, then the right one, and compute on the numbers;
  the right one is held meanwhile.
  Addition joins strings as soon as one operand is a string. Loose equality converts an object only
  to compare it with a primitive.
-/

namespace ScriptSandbox

/-- The binary operators that convert both operands to numbers. -/
inductive NumericOperator where
  | gt
  | lt
  | gte
  | lte
  | subtract
  | multiply
  | divide
  | remainder
  | bitAnd
  | bitOr
  | bitXor
  | shiftLeft
  | shiftRight
  | shiftRightUnsigned
deriving DecidableEq, Repr

/-- The result of an operator on two numbers. -/
def NumericOperator.apply : NumericOperator → Binary64 → Binary64 → Value
  | gt, a, b => .boolean (b.lt a)
  | lt, a, b => .boolean (a.lt b)
  | gte, a, b => .boolean (b.le a)
  | lte, a, b => .boolean (a.le b)
  | subtract, a, b => .number (a.sub b)
  | multiply, a, b => .number (a.mul b)
  | divide, a, b => .number (a.div b)
  | remainder, a, b => .number (a.remainder b)
  | bitAnd, a, b => .number (a.bitAnd b)
  | bitOr, a, b => .number (a.bitOr b)
  | bitXor, a, b => .number (a.bitXor b)
  | shiftLeft, a, b => .number (a.shiftLeft b)
  | shiftRight, a, b => .number (a.shiftRight b)
  | shiftRightUnsigned, a, b => .number (a.shiftRightUnsigned b)

namespace Value

variable {E : Type} [Embedding E]

/-- A numeric operator on two values. -/
def binary (op : NumericOperator) (a b : Value) (realm : RealmId) : Evaluation E Value := do
  let x ← Evaluation.holding (Thing.ofValues [b]) (a.toNumber realm)
  let y ← b.toNumber realm
  return op.apply x y

/-- The sum of two primitives: a string when one of them is a string. -/
def addPrimitives (a b : Primitive) : Evaluation E Value :=
  if a.isString || b.isString then Step.compute (World.newString (a.text ++ b.text))
  else do
    let x ← Step.orFault a.toNumber
    let y ← Step.orFault b.toNumber
    return .number (x.add y)

/-- Addition. -/
def add (a b : Value) (realm : RealmId) : Evaluation E Value := do
  let x ← Evaluation.holding (Thing.ofValues [b]) (a.toPrimitive .default realm)
  let y ← b.toPrimitive .default realm
  addPrimitives x y

def negate (v : Value) (realm : RealmId) : Evaluation E Value := do
  return .number (← v.toNumber realm).neg

def unaryPlus (v : Value) (realm : RealmId) : Evaluation E Value := do
  return .number (← v.toNumber realm)

def bitNot (v : Value) (realm : RealmId) : Evaluation E Value := do
  return .number (← v.toNumber realm).bitNot

/-- Logical negation. -/
def not (v : Value) : Evaluation E Value := .ready (.boolean !v.truthy)

/-- The kind of a value as a string. -/
def typeOf (v : Value) : Evaluation E Value := .inspect fun w =>
  Step.compute (World.newString (w.typeName v))

/-- Equality with coercion. -/
def looseEq (a b : Value) (realm : RealmId) : Evaluation E Bool :=
  match a, b with
  | .primitive p, .primitive q => Step.orFault (p.looseEq q)
  | .primitive p, b =>
    if p.isNullish then .ready false
    else do
      let q ← b.toPrimitive .default realm
      Step.orFault (p.looseEq q)
  | a, .primitive q =>
    if q.isNullish then .ready false
    else do
      let p ← a.toPrimitive .default realm
      Step.orFault (p.looseEq q)
  | a, b => .ready (a.sameRef b)

def looseNe (a b : Value) (realm : RealmId) : Evaluation E Bool := do
  return !(← a.looseEq b realm)

end Value

end ScriptSandbox
