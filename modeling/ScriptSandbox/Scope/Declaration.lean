import ScriptSandbox.Scope.Pattern
import ScriptSandbox.Syntax.Tree

/-
  Declarations.

  `declarations` lists what one node declares. `hoisted` collects what is visible from the top of a
  context, without entering nested functions; `blockNames` collects what a single block owns,
  without entering nested functions or blocks.
-/

namespace ScriptSandbox.Scope

open Syntax

/-- How far a declaration reaches. -/
inductive Binding where
  /-- The whole function context. -/
  | var
  /-- The enclosing block. -/
  | lexical
deriving DecidableEq, Repr

/-- A name, the node that declares it, and how far it reaches. -/
structure Declaration where
  name : String
  node : NodeId
  binding : Binding
deriving DecidableEq, Repr

/-- The name of a declaration or of a function expression. -/
def nameOf? (n : Node) : Option String := (n.data? "id").bind fun id => id.getString? "name"

/-- The binding of a declarator under its parent: `var` when the declaration says so, and also
    outside any declaration. -/
def declaratorBinding : (parent : Option Node) → Binding
  | some p =>
    if p.kind = .variableDeclaration ∧ p.stringData? "kind" ≠ some "var" then .lexical else .var
  | none => .var

/-- Declarations of one kind made by one node. -/
def declareAll (node : NodeId) (binding : Binding) (names : List String) : List Declaration :=
  names.map fun name => ⟨name, node, binding⟩

/-- The names that the pattern in a field binds. -/
def fieldNames (n : Node) (key : String) : List String :=
  ((n.data? key).map patternNames).getD []

/-- The declarations made by a node itself. -/
def declarations (parent : Option Node) (n : Node) : List Declaration :=
  match n.kind with
  | .variableDeclarator => declareAll n.id (declaratorBinding parent) (fieldNames n "id")
  | .functionDeclaration => declareAll n.id .var (nameOf? n).toList
  | .classDeclaration => declareAll n.id .lexical (nameOf? n).toList
  | .catchClause => declareAll n.id .lexical (fieldNames n "param")
  | _ => []

/-- The node that holds the statements of a context: a program itself, or the body of a function
    when it is a block. -/
def bodyBlock? (n : Node) : Option Node :=
  if n.kind = .program then some n
  else (n.child? "body").filter fun body => body.kind = .blockStatement

mutual

/-- The hoisted declarations below a node. A function declaration counts only as a direct statement,
    and no function is entered. -/
def hoistedIn (direct : Bool) (parent : Node) : Node → List Declaration
  | ⟨id, kind, role, fields, children⟩ =>
    let n : Node := ⟨id, kind, role, fields, children⟩
    match kind with
    | .functionDeclaration => if direct then declarations (some parent) n else []
    | .functionExpression | .arrowFunctionExpression => []
    | _ => declarations (some parent) n ++ hoistedBelow n children

def hoistedBelow (parent : Node) : List Node → List Declaration
  | [] => []
  | c :: rest => hoistedIn false parent c ++ hoistedBelow parent rest

end

/-- The declarations visible from the top of the context of a program or function. -/
def hoisted (n : Node) : List Declaration :=
  match bodyBlock? n with
  | some block => (block.listNodes "body").flatMap (hoistedIn true block)
  | none =>
    if n.kind = .program then []
    else ((n.child? "body").toList).flatMap (hoistedIn true n)

mutual

/-- The names of block-scoped declarations at or below a node, without entering functions or
    blocks. -/
def lexicalNamesIn (parent : Node) : Node → List String
  | ⟨id, kind, role, fields, children⟩ =>
    let n : Node := ⟨id, kind, role, fields, children⟩
    if kind.isFunction || kind.opensBlock then []
    else
      ((declarations (some parent) n).filter (·.binding = .lexical)).map (·.name) ++
        lexicalNamesBelow n children

def lexicalNamesBelow (parent : Node) : List Node → List String
  | [] => []
  | c :: rest => lexicalNamesIn parent c ++ lexicalNamesBelow parent rest

end

/-- The block-scoped names that a block owns. A catch clause owns its parameter. -/
def blockNames (n : Node) : List String :=
  let parameters := if n.kind = .catchClause then fieldNames n "param" else []
  parameters ++ lexicalNamesBelow n n.children

/-- Whether the body of a context starts with the bare string `"use strict"`. -/
def isStrict (n : Node) : Bool :=
  match bodyBlock? n with
  | none => false
  | some block =>
    match (block.list? "body").bind List.head? with
    | some (some first) =>
      match block.childAt? first with
      | some statement =>
        statement.kind = .expressionStatement &&
          match statement.child? "expression" with
          | some e => e.kind = .literal && e.stringData? "value" = some "use strict"
          | none => false
      | none => false
    | _ => false

end ScriptSandbox.Scope
