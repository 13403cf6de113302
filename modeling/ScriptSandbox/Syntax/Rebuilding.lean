import ScriptSandbox.Table
import ScriptSandbox.Syntax.Tree

/-
  From a numbered tree back to a document.

  The fields of every node are written in the order they came in; a decoration may then add fields
  to the object or replace the value of one that is there.
-/

namespace ScriptSandbox.Syntax

/-- The document of a numbered child. -/
def builtChild (built : List (NodeId × Document)) (id : NodeId) : Document :=
  match built.find? fun b => b.1 == id with
  | some (_, d) => d
  | none => .null

/-- A field with its nodes replaced by their documents. -/
def Field.rebuild (built : List (NodeId × Document)) : Field → Document
  | .node id => builtChild built id
  | .list slots => .array (slots.map fun slot =>
      match slot with
      | some id => builtChild built id
      | none => .null)
  | .data value => value

namespace Node

mutual

/-- The document of a node, with `decorate` applied to the fields of every object. -/
def rebuildWith (decorate : NodeId → List (String × Document) → List (String × Document)) :
    Node → Document
  | ⟨id, _, _, fields, children⟩ =>
    let built := rebuildAllWith decorate children
    .object (decorate id (fields.map fun (key, f) => (key, f.rebuild built)))

def rebuildAllWith (decorate : NodeId → List (String × Document) → List (String × Document)) :
    List Node → List (NodeId × Document)
  | [] => []
  | c :: rest => (c.id, c.rebuildWith decorate) :: rebuildAllWith decorate rest

end

end Node

/-- The document of a tree. -/
def Tree.toDocument (t : Tree) : Document := t.root.rebuildWith fun _ fields => fields

/-- The document of a tree with decorated objects. -/
def Tree.toDocumentWith (decorate : NodeId → List (String × Document) → List (String × Document))
    (t : Tree) : Document := t.root.rebuildWith decorate

end ScriptSandbox.Syntax
