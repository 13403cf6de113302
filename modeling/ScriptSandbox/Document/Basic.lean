import ScriptSandbox.Number.Binary64

/-
  Ordered documents.

  A document is a JSON value whose objects keep the order of their entries. An integer that fits
  64 bits stays exact; every other number is a double.
-/

namespace ScriptSandbox

/-- A number in a document. -/
inductive DocumentNumber where
  | integer (value : Int)
  | decimal (value : Binary64)
deriving DecidableEq, Repr

/-- An ordered JSON value. -/
inductive Document where
  | null
  | boolean (value : Bool)
  | number (value : DocumentNumber)
  | string (value : String)
  | array (items : List Document)
  | object (fields : List (String × Document))
deriving Inhabited, Repr

namespace Document

/-- The value of a key in a list of fields: the first one with that key. -/
def fieldValue? (key : String) : List (String × Document) → Option Document
  | [] => none
  | (k, v) :: rest => if k = key then some v else fieldValue? key rest

/-- The value of a key; only objects have any. -/
def get? (d : Document) (key : String) : Option Document :=
  match d with
  | .object fields => fieldValue? key fields
  | _ => none

def string? : Document → Option String
  | .string s => some s
  | _ => none

def array? : Document → Option (List Document)
  | .array items => some items
  | _ => none

/-- The string at a key. -/
def getString? (d : Document) (key : String) : Option String := (d.get? key).bind string?

def isNull : Document → Bool
  | .null => true
  | _ => false

def isObject : Document → Bool
  | .object _ => true
  | _ => false

end Document

end ScriptSandbox
