import ScriptSandbox.Document.Basic

/-
  Names bound by a pattern.

  A binding pattern stays a document: an identifier, a default, a rest element, or an array or
  object of patterns. `patternNames` lists the names it binds from left to right; what has none of
  these shapes binds nothing.
-/

namespace ScriptSandbox

mutual

/-- The number of values in a document, itself included. -/
def Document.weight : Document → Nat
  | .array items => 1 + Document.weightItems items
  | .object fields => 1 + Document.weightFields fields
  | _ => 1

def Document.weightItems : List Document → Nat
  | [] => 0
  | d :: rest => d.weight + Document.weightItems rest

def Document.weightFields : List (String × Document) → Nat
  | [] => 0
  | (_, d) :: rest => d.weight + Document.weightFields rest

end

namespace Scope

/-- The pattern behind an entry of an object pattern. -/
def entryPattern? (entry : Document) : Option Document :=
  match entry.getString? "type" with
  | some "RestElement" => entry.get? "argument"
  | _ => entry.get? "value"

/-- The patterns directly inside a pattern, from left to right. -/
def innerPatterns (p : Document) : List Document :=
  match p.getString? "type" with
  | some "AssignmentPattern" => (p.get? "left").toList
  | some "RestElement" => (p.get? "argument").toList
  | some "ArrayPattern" =>
    (((p.get? "elements").bind Document.array?).getD []).filter fun e => !e.isNull
  | some "ObjectPattern" =>
    (((p.get? "properties").bind Document.array?).getD []).filterMap entryPattern?
  | _ => []

/-- The name that a pattern binds itself. -/
def ownName? (p : Document) : Option String :=
  match p.getString? "type" with
  | some "Identifier" => p.getString? "name"
  | _ => none

/-- The names bound by the pending patterns, the leftmost first. -/
def pendingNames : (fuel : Nat) → List Document → List String
  | 0, _ => []
  | _ + 1, [] => []
  | fuel + 1, p :: rest => (ownName? p).toList ++ pendingNames fuel (innerPatterns p ++ rest)

/-- The names bound by a pattern, from left to right. -/
def patternNames (p : Document) : List String := pendingNames p.weight [p]

end Scope

end ScriptSandbox
