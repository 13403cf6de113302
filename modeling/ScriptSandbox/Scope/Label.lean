import ScriptSandbox.Document.Printer
import ScriptSandbox.Scope.Table

/-
  Labels of expressions.

  A label is a rough reconstruction of source text, built from the labels of the children. It is
  shown in messages only.
-/

namespace ScriptSandbox.Scope

open Syntax

/-- The label of a literal: a regular expression in slashes, `undefined` without a value, its raw
    text, or else its value as a document. -/
def literalLabel (n : Node) : String :=
  match (n.data? "regex").filter Document.isObject with
  | some regex =>
    let part (key : String) := (regex.getString? key).getD ""
    "/" ++ part "pattern" ++ "/" ++ part "flags"
  | none =>
    match n.data? "value", n.stringData? "raw" with
    | none, _ => "undefined"
    | some _, some raw => raw
    | some value, none => value.render

/-- The label of a function declaration. -/
def functionLabel (name : String) : String := "function " ++ name ++ " \x7b"

/-- The label of a node whose children are labelled in the table, if its kind has one. -/
def exitLabel? (t : ScopeTable) (n : Node) : Option String :=
  let labelOf (key : String) : Option String := (n.child? key).bind fun c => t.srcName? c.id
  match n.kind with
  | .identifier => n.stringData? "name"
  | .literal => some (literalLabel n)
  | .binaryExpression | .logicalExpression =>
    some ((labelOf "left").getD "??" ++ " " ++ (n.stringData? "operator").getD "?" ++ " " ++
      (labelOf "right").getD "??")
  | .memberExpression =>
    let base := (labelOf "object").getD "??"
    let property := (labelOf "property").getD "(intermediate value)"
    some (if n.isTrue "computed" then base ++ "[" ++ property ++ "]" else base ++ "." ++ property)
  | .callExpression => some ((labelOf "callee").getD "??" ++ "(...)")
  | .newExpression => some ("new " ++ (labelOf "callee").getD "??" ++ "(...)")
  | .arrayExpression =>
    let labels := ((n.list? "elements").getD []).map fun slot =>
      (slot.bind t.srcName?).getD ""
    some ("[" ++ ",".intercalate labels ++ "]")
  | _ => none

end ScriptSandbox.Scope
