import ScriptSandbox.Number.Text
import ScriptSandbox.Number.Numeral

/-
  Script values.

  A value is a primitive or a handle on something in the heap. Handles are numbers, so two values
  are the same thing exactly when they are equal; a script string carries the number of its
  allocation beside its characters for this reason.
-/

namespace ScriptSandbox

abbrev ObjectId := Nat

abbrev ArrayId := Nat

abbrev BridgeId := Nat

abbrev LinkId := Nat

abbrev RealmId := Nat

/-- A script string: its characters, and the number of its allocation. All empty strings have the
    number 0. -/
structure Text where
  serial : Nat
  content : String
deriving DecidableEq, Repr

def Text.empty : Text := ⟨0, ""⟩

/-- The values that convert to numbers and strings without running anything. -/
inductive Primitive where
  | undefined
  | null
  | boolean (b : Bool)
  | number (n : Binary64)
  | string (s : Text)
deriving DecidableEq, Repr, Inhabited

inductive Value where
  | primitive (p : Primitive)
  | object (id : ObjectId)
  | array (id : ArrayId)
  /-- An unrestricted wrapper of a host object. -/
  | bridge (id : BridgeId)
  /-- A wrapper of a host object that is guarded by allow-lists. -/
  | link (id : LinkId)
deriving DecidableEq, Repr

namespace Value

@[match_pattern] abbrev undefined : Value := .primitive .undefined

@[match_pattern] abbrev null : Value := .primitive .null

@[match_pattern] abbrev boolean (b : Bool) : Value := .primitive (.boolean b)

@[match_pattern] abbrev number (n : Binary64) : Value := .primitive (.number n)

@[match_pattern] abbrev string (s : Text) : Value := .primitive (.string s)

instance : Inhabited Value := ⟨undefined⟩

/-- The empty string, the same one everywhere. -/
def emptyString : Value := .string .empty

def primitive? : Value → Option Primitive
  | .primitive p => some p
  | _ => none

def isPrimitive (v : Value) : Bool := v.primitive?.isSome

def isNullish : Value → Bool
  | .undefined | .null => true
  | _ => false

def asNumber? : Value → Option Binary64
  | .number n => some n
  | _ => none

def asString? : Value → Option String
  | .string s => some s.content
  | _ => none

def asBoolean? : Value → Option Bool
  | .boolean b => some b
  | _ => none

/-- Identity. Numbers are told apart by their bits, strings by their allocation. -/
def sameRef (a b : Value) : Bool := a = b

/-- Equality without coercion: numbers by value, strings by content, everything else by
    identity. -/
def strictEq : Value → Value → Bool
  | .number a, .number b => a.eqv b
  | .string a, .string b => a.content == b.content
  | a, b => a.sameRef b

/-- Whether a value counts as true. -/
def truthy : Value → Bool
  | .undefined | .null => false
  | .boolean b => b
  | .number n => !n.isZero && !n.isNaN
  | .string s => s.content ≠ ""
  | _ => true

end Value

namespace Primitive

/-- The numeric value of a boolean. -/
def ofFlag (b : Bool) : Binary64 := if b then .ofNat 1 else .zero

/-- The numeric value of a primitive. -/
def toNumber : Primitive → Except Fault Binary64
  | undefined => .ok .nan
  | null => .ok .zero
  | boolean b => .ok (ofFlag b)
  | number n => .ok n
  | string s => Binary64.ofText s.content

/-- The string form of a primitive. -/
def text : Primitive → String
  | undefined => "undefined"
  | null => "null"
  | boolean b => if b then "true" else "false"
  | number n => n.text
  | string s => s.content

def isNullish : Primitive → Bool
  | undefined | null => true
  | _ => false

def isString : Primitive → Bool
  | string _ => true
  | _ => false

/-- Equality with coercion: `undefined` and `null` equal each other and nothing else, strings
    compare by content with strings, and everything else compares as numbers. -/
def looseEq : Primitive → Primitive → Except Fault Bool
  | string a, string b => .ok (a.content == b.content)
  | a, b =>
    if a.isNullish || b.isNullish then .ok (a.isNullish && b.isNullish)
    else do
      let x ← a.toNumber
      let y ← b.toNumber
      return x.eqv y

end Primitive

end ScriptSandbox
