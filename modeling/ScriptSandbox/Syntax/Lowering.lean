import ScriptSandbox.Syntax.Tree

/-
  From a document to a numbered tree.

  An object with a string under `type` is a node. `visitPlan` says which fields of a node are
  visited and in which order; numbers are given out in this order, a node before its children. The
  document is read once from the inside out: what a value becomes when it is visited is a
  computation that still waits for the next free number, so the plan can run the fields in its own
  order.
-/

namespace ScriptSandbox.Syntax

/-- A computation that gives out node numbers. -/
abbrev Numbering (α : Type) := NodeId → α × NodeId

/-- A node that waits for its number; the role comes from the place where it stands. -/
abbrev Unnumbered := Role → Numbering Node

/-- What a value becomes when it is visited. -/
inductive Visit where
  | node (n : Unnumbered)
  | list (slots : List (Option Unnumbered))
  /-- Neither a node nor a list of nodes and nulls. -/
  | plain

/-- Fields that are never visited unless the plan of a kind names them. -/
def skippedKeys : List String :=
  ["type", "loc", "range", "parent", "nodeId", "vars", "funcs", "upvars", "freevars", "srcName",
    "strict", "label"]

/-- The fields visited for kinds with an order of their own. -/
def fixedPlan? : Kind → Option (List (String × Role))
  | .program | .blockStatement => some [("body", .reference)]
  | .callExpression | .newExpression => some [("arguments", .reference), ("callee", .reference)]
  | .whileStatement | .doWhileStatement => some [("test", .reference), ("body", .reference)]
  | .variableDeclaration => some [("declarations", .reference)]
  | .variableDeclarator => some [("init", .reference)]
  | .functionDeclaration | .functionExpression | .arrowFunctionExpression | .catchClause =>
    some [("body", .reference)]
  | .identifier | .literal | .thisExpression => some []
  | .arrayExpression => some [("elements", .reference)]
  | .labeledStatement => some [("label", .name), ("body", .reference)]
  | .breakStatement | .continueStatement => some [("label", .name)]
  | .classDeclaration => some [("superClass", .reference), ("body", .reference)]
  | _ => none

/-- Whether a field of a kind without an order of its own is visited. -/
def visitedAnyway (key : String) (v : Visit) : Bool :=
  !skippedKeys.contains key &&
    match v with
    | .node _ => true
    | .list slots => slots.any Option.isSome
    | .plain => false

/-- The role of a field of a kind without an order of its own. -/
def genericRole (fields : List (String × Document)) (key : String) : Role :=
  let computed := match Document.fieldValue? "computed" fields with
    | some (.boolean b) => b
    | _ => false
  if (key = "key" ∨ key = "property") ∧ !computed then .name else .reference

/-- The fields to visit, in order, with the roles of the nodes in them. -/
def visitPlan (kind : Kind) (fields : List (String × Document)) (visits : List (String × Visit)) :
    List (String × Role) :=
  match fixedPlan? kind with
  | some plan => plan
  | none =>
    visits.filterMap fun (key, v) =>
      if visitedAnyway key v then some (key, genericRole fields key) else none

def visitOf? (key : String) : List (String × Visit) → Option Visit
  | [] => none
  | (k, v) :: rest => if k = key then some v else visitOf? key rest

/-- Number the slots of a list from the left. -/
def numberSlots (role : Role) : List (Option Unnumbered) →
    Numbering (List (Option NodeId) × List Node)
  | [], next => (([], []), next)
  | none :: rest, next =>
    let ((slots, nodes), next) := numberSlots role rest next
    ((none :: slots, nodes), next)
  | some u :: rest, next =>
    let (n, next) := u role next
    let ((slots, nodes), next) := numberSlots role rest next
    ((some n.id :: slots, n :: nodes), next)

/-- Number one visited value: the field it becomes, if it is one, and the nodes in it. -/
def numberVisit (role : Role) : Visit → Numbering (Option Field × List Node)
  | .node u, next =>
    let (n, next) := u role next
    ((some (.node n.id), [n]), next)
  | .list slots, next =>
    let ((ids, nodes), next) := numberSlots role slots next
    ((some (.list ids), nodes), next)
  | .plain, next => ((none, []), next)

/-- Number the fields of a plan in its order: the fields they become, and all child nodes. -/
def numberPlan (visits : List (String × Visit)) : List (String × Role) →
    Numbering (List (String × Field) × List Node)
  | [], next => (([], []), next)
  | (key, role) :: rest, next =>
    match visitOf? key visits with
    | none => numberPlan visits rest next
    | some v =>
      let ((field?, nodes), next) := numberVisit role v next
      let ((fields, more), next) := numberPlan visits rest next
      match field? with
      | some f => (((key, f) :: fields, nodes ++ more), next)
      | none => ((fields, nodes ++ more), next)

/-- Number a node and everything below it. -/
def numberNode (kind : Kind) (fields : List (String × Document)) (visits : List (String × Visit)) :
    Unnumbered := fun role id =>
  let ((visited, children), next) := numberPlan visits (visitPlan kind fields visits) (id + 1)
  let fields := fields.map fun (key, value) =>
    (key, (Node.fieldValue? key visited).getD (.data value))
  (⟨id, kind, role, fields, children⟩, next)

mutual

/-- What a value becomes when it is visited. -/
def visitValue : Document → Visit
  | .object fields =>
    match Document.fieldValue? "type" fields with
    | some (.string tag) => .node (numberNode (.ofTag tag) fields (visitFields fields))
    | _ => .plain
  | .array items =>
    match visitItems items with
    | some slots => .list slots
    | none => .plain
  | _ => .plain

def visitFields : List (String × Document) → List (String × Visit)
  | [] => []
  | (key, value) :: rest => (key, visitValue value) :: visitFields rest

/-- The slots of a list in which every item is a node or null. -/
def visitItems : List Document → Option (List (Option Unnumbered))
  | [] => some []
  | item :: rest =>
    match item, visitValue item with
    | .null, _ => (visitItems rest).map (none :: ·)
    | _, .node u => (visitItems rest).map (some u :: ·)
    | _, _ => none

end

/-- Why a document is no syntax tree. -/
inductive TreeError where
  | rootNotANode
deriving DecidableEq, Repr

/-- The message of an error. -/
def TreeError.message : TreeError → String
  | .rootNotANode =>
    "syntax tree root is not a node (expected an object with a string \x60type\x60 field)"

/-- The numbered tree of a document. Only the root has to be a node; what is malformed below is kept
    as it is. -/
def Tree.ofDocument (d : Document) : Except TreeError Tree :=
  match visitValue d with
  | .node u =>
    let (root, size) := u .reference 0
    .ok ⟨root, size⟩
  | _ => .error .rootNotANode

end ScriptSandbox.Syntax
