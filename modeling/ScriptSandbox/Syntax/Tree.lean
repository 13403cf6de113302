import ScriptSandbox.Document.Basic
import ScriptSandbox.Syntax.Kind

/-
  Numbered syntax trees.

  A node keeps the fields of its object in document order. A field that is visited refers to the
  numbers of the nodes in it; every other field is kept as it is. The child nodes themselves are
  listed in the order in which they are visited, which is also the order of their numbers.
-/

namespace ScriptSandbox.Syntax

/-- The number of a node: its position in a walk of the tree. -/
abbrev NodeId := Nat

/-- Whether an identifier in this place refers to a binding or merely names something: a property
    that is not computed, the key of an object entry, a label. -/
inductive Role where
  | reference
  | name
deriving DecidableEq, Repr, Inhabited

/-- A field of a node. -/
inductive Field where
  /-- One visited node. -/
  | node (id : NodeId)
  /-- A visited list of nodes with its holes. -/
  | list (slots : List (Option NodeId))
  /-- A value that is not visited. -/
  | data (value : Document)
deriving Repr, Inhabited

structure Node where
  id : NodeId
  kind : Kind
  role : Role
  fields : List (String × Field)
  children : List Node
deriving Repr, Inhabited

namespace Node

def fieldValue? (key : String) : List (String × Field) → Option Field
  | [] => none
  | (k, f) :: rest => if k = key then some f else fieldValue? key rest

def field? (n : Node) (key : String) : Option Field := fieldValue? key n.fields

/-- The child with a given number. -/
def childAt? (n : Node) (id : NodeId) : Option Node := n.children.find? fun c => c.id == id

/-- The node in a visited field of one node. -/
def child? (n : Node) (key : String) : Option Node :=
  match n.field? key with
  | some (.node id) => n.childAt? id
  | _ => none

/-- The slots of a visited list. -/
def list? (n : Node) (key : String) : Option (List (Option NodeId)) :=
  match n.field? key with
  | some (.list slots) => some slots
  | _ => none

/-- The nodes of a visited list, without its holes. -/
def listNodes (n : Node) (key : String) : List Node :=
  ((n.list? key).getD []).filterMap fun slot => slot.bind n.childAt?

/-- A field that is not visited. -/
def data? (n : Node) (key : String) : Option Document :=
  match n.field? key with
  | some (.data value) => some value
  | _ => none

def stringData? (n : Node) (key : String) : Option String := (n.data? key).bind Document.string?

/-- Whether a field that is not visited holds `true`. -/
def isTrue (n : Node) (key : String) : Bool :=
  match n.data? key with
  | some (.boolean b) => b
  | _ => false

mutual

/-- The node and all below it, each with the number of its parent, in order of their numbers. -/
def walk (parent : Option NodeId) (n : Node) : List (Node × Option NodeId) :=
  match n with
  | ⟨id, kind, role, fields, children⟩ =>
    (⟨id, kind, role, fields, children⟩, parent) :: walkAll id children

def walkAll (parent : NodeId) : List Node → List (Node × Option NodeId)
  | [] => []
  | c :: rest => walk (some parent) c ++ walkAll parent rest

end

end Node

/-- A syntax tree: its root, and the number of its nodes. -/
structure Tree where
  root : Node
  size : Nat
deriving Repr, Inhabited

namespace Tree

/-- Every node with the number of its parent, in order of their numbers. -/
def nodes (t : Tree) : List (Node × Option NodeId) := t.root.walk none

/-- The parent of each node, by number. -/
def parents (t : Tree) : List (Option NodeId) := t.nodes.map (·.2)

/-- The chain of parents above a node, nearest first, at most `steps` of them. -/
def ancestorsWithin (parents : List (Option NodeId)) : (steps : Nat) → NodeId → List NodeId
  | 0, _ => []
  | steps + 1, id =>
    match parents[id]?.join with
    | some p => p :: ancestorsWithin parents steps p
    | none => []

/-- The nodes above a node, nearest first. -/
def ancestors (t : Tree) (id : NodeId) : List NodeId := ancestorsWithin t.parents t.size id

end Tree

end ScriptSandbox.Syntax
