import ScriptSandbox.Scope.Annotation
import ScriptSandbox.Syntax.Lowering
import ScriptSandbox.Syntax.Rebuilding

/-
  Annotated documents.

  The annotations of a node become fields of its object: written behind its own fields, or in the
  place of a field that has the same key already. Names are listed in order.
-/

namespace ScriptSandbox.Scope

open Syntax

/-- A table of declaring nodes as an object. -/
def idFields (t : Table NodeId) : Document :=
  .object (t.sorted.map fun (name, node) => (name, .number (.integer node)))

/-- A set of names as an object. -/
def flagFields (s : NameSet) : Document :=
  .object (s.sorted.map fun name => (name, .boolean true))

/-- The annotation fields of a node, in the order in which they are written. -/
def ScopeTable.annotations (t : ScopeTable) (id : NodeId) : List (String × Document) :=
  ("nodeId", .number (.integer id)) ::
    match t.info[id]? with
    | none => []
    | some info =>
      (info.srcName.toList.map fun s => ("srcName", .string s)) ++
      (if info.strict then [("strict", .boolean true)] else []) ++
      (info.label.toList.map fun s => ("label", .string s)) ++
      match info.scope.bind (t.scopes[·]?) with
      | none => []
      | some s =>
        [("vars", idFields s.vars), ("funcs", idFields s.funcs), ("lexicals", idFields s.lexicals),
          ("upvars", flagFields s.upvars), ("freevars", flagFields s.freevars)]

/-- Write the annotations of a node into the fields of its object. -/
def ScopeTable.decorate (t : ScopeTable) (id : NodeId) (fields : List (String × Document)) :
    List (String × Document) :=
  (t.annotations id).foldl (fun fields e => Table.write e.1 e.2 fields) fields

/-- A document with its annotations written in, and its table. -/
def annotateDocument (d : Document) : Except TreeError (Document × ScopeTable) := do
  let tree ← Tree.ofDocument d
  let table := annotate true tree
  return (tree.toDocumentWith table.decorate, table)

end ScriptSandbox.Scope
