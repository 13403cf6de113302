import ScriptSandbox.Scope.Declaration
import ScriptSandbox.Scope.Label

/-
  Annotating a tree.

  One walk in the order of the numbers fills the table. A stack of frames holds the function
  contexts around the current node; each frame has the blocks open in it and the names referenced
  in it. A name bound by an open block is settled at the reference. Every other name waits until its
  context is left, when it is looked up among the bindings that hold throughout a context; what the
  context does not bind itself is handed to the enclosing one.
-/

namespace ScriptSandbox.Scope

open Syntax

/-- A function context that is being walked. -/
structure Frame where
  scope : ScopeId
  /-- The names owned by each block open in the context, innermost first. -/
  blocks : List NameSet
  /-- Names referenced in the context, those of nested functions included. -/
  refs : NameSet
  /-- Names bound by an open block of an enclosing context. -/
  captured : NameSet
deriving Repr

/-- The state of the walk: the contexts around the current node, innermost first, and the table. -/
structure Pass where
  frames : List Frame
  table : ScopeTable
deriving Repr

namespace Frame

/-- Whether an open block of the context owns a name. -/
def blockBinds (f : Frame) (name : String) : Bool := f.blocks.any (·.contains name)

def addRef (f : Frame) (name : String) : Frame := { f with refs := f.refs.insert name }

def capture (f : Frame) (name : String) : Frame := { f with captured := f.captured.insert name }

end Frame

/-- Apply a function to the innermost frame, if there is one. -/
def onInnermost (f : Frame → Frame) : List Frame → List Frame
  | [] => []
  | fr :: rest => f fr :: rest

namespace Pass

def setSrcName (p : Pass) (id : NodeId) (label : String) : Pass :=
  { p with table := p.table.modifyInfo id fun i => { i with srcName := some label } }

def addRef (p : Pass) (name : String) : Pass :=
  { p with frames := onInnermost (·.addRef name) p.frames }

/-! ## References -/

/-- The number of frames inside the one whose open block binds a name. The search goes outward and
    ends at the first context that binds the name throughout. -/
def blockOwner? (t : ScopeTable) (name : String) : List Frame → Option Nat
  | [] => none
  | f :: rest =>
    if f.blockBinds name then some 0
    else if (t.scopes[f.scope]?.map (·.binds name)).getD false then none
    else (blockOwner? t name rest).map (· + 1)

/-- Note a reference from the innermost context. A name of an open block is captured by every
    context between the block and the reference. -/
def reference (p : Pass) (name : String) : Pass :=
  match blockOwner? p.table name p.frames with
  | some inner =>
    { p with frames := (p.frames.take inner).map (·.capture name) ++ p.frames.drop inner }
  | none => p.addRef name

/-! ## Declarations -/

/-- Record a declaration in a scope; block-scoped ones only when they are tracked. -/
def record (tracking : Bool) (scope : ScopeId) (t : ScopeTable) (d : Declaration) : ScopeTable :=
  match d.binding with
  | .var => t.modifyScope scope fun s => { s with vars := s.vars.insert d.name d.node }
  | .lexical =>
    if tracking then
      t.modifyScope scope fun s => { s with lexicals := s.lexicals.insert d.name d.node }
    else t

/-- Record what a node declares in the innermost context. -/
def declare (p : Pass) (tracking : Bool) (parent : Option Node) (n : Node) : Pass :=
  match p.frames with
  | [] => p
  | f :: _ => { p with table := (declarations parent n).foldl (record tracking f.scope) p.table }

/-! ## Contexts -/

/-- The scope of a context before hoisting: its parameters, and the own name of a function
    expression unless a parameter has it. -/
def freshScope (parent : Option ScopeId) (n : Node) : FunctionScope :=
  let parameters := (((n.data? "params").bind Document.array?).getD []).flatMap patternNames
  let vars := parameters.foldl (fun t name => t.insert name n.id) Table.empty
  let vars :=
    if n.kind = .functionExpression then
      match nameOf? n with
      | some name => vars.insertNew name n.id
      | none => vars
    else vars
  { node := n.id
    parent := parent
    bindsArguments := n.kind = .functionDeclaration || n.kind = .functionExpression
    vars := vars
    funcs := ∅
    lexicals := ∅
    upvars := ∅
    freevars := ∅ }

/-- Enter the context of a program or function: its scope, hoisted declarations included, and its
    frame. -/
def enterContext (p : Pass) (tracking : Bool) (n : Node) : Pass :=
  let scope := p.table.scopes.size
  let table := p.table.pushScope (freshScope (p.frames.head?.map (·.scope)) n)
  let table := (hoisted n).foldl (record tracking scope) table
  let table :=
    if isStrict n then table.modifyInfo n.id fun i => { i with strict := true } else table
  { frames := ⟨scope, [], ∅, ∅⟩ :: p.frames, table := table }

/-- Sort the names referenced in a context into those of an enclosing context and those of none;
    names of the context itself are dropped. -/
def classify (t : ScopeTable) (scope : ScopeId) (names : List String) (captured : NameSet) :
    NameSet × NameSet :=
  names.foldl
    (fun (upvars, freevars) name =>
      match t.resolve scope name with
      | .own _ => (upvars, freevars)
      | .outer _ _ => (upvars.insert name, freevars)
      | .free => (upvars, freevars.insert name))
    (captured, ∅)

/-- The referenced names that a context hands to the enclosing one. -/
def handedOver (t : ScopeTable) (scope : ScopeId) (names : List String) : List String :=
  names.filter fun name =>
    match t.resolve scope name with
    | .own _ => false
    | _ => true

/-- Leave the innermost context. -/
def exitContext (p : Pass) : Pass :=
  match p.frames with
  | [] => p
  | f :: rest =>
    let (upvars, freevars) := classify p.table f.scope f.refs.names f.captured
    let outward := handedOver p.table f.scope f.refs.names
    { frames := outward.foldl (fun frames name => onInnermost (·.addRef name) frames) rest
      table := p.table.modifyScope f.scope fun s =>
        { s with upvars := upvars, freevars := freevars } }

/-! ## Blocks -/

/-- Open the block of a node in the innermost context, if the node has one. -/
def openBlock (p : Pass) (tracking : Bool) (n : Node) : Pass :=
  if tracking && n.kind.opensBlock then
    let names := NameSet.ofList (blockNames n)
    { p with frames := onInnermost (fun f => { f with blocks := names :: f.blocks }) p.frames }
  else p

/-- Close the block that `openBlock` opened. -/
def closeBlock (p : Pass) (tracking : Bool) (n : Node) : Pass :=
  if tracking && n.kind.opensBlock then
    { p with frames := onInnermost (fun f => { f with blocks := f.blocks.tail }) p.frames }
  else p

/-! ## The walk -/

/-- What happens when a node is reached, before anything below it. -/
def enter (p : Pass) (n : Node) : Pass :=
  match n.kind with
  | .identifier =>
    if n.role = .name then p
    else
      match n.stringData? "name" with
      | some name => p.reference name
      | none => p
  | .thisExpression => p.setSrcName n.id "this"
  | .labeledStatement =>
    match (n.child? "label").bind (·.stringData? "name"), n.child? "body" with
    | some label, some body =>
      { p with table := p.table.modifyInfo body.id fun i => { i with label := some label } }
    | _, _ => p
  | .functionDeclaration =>
    match nameOf? n with
    | some name =>
      let p := p.setSrcName n.id (functionLabel name)
      match p.frames with
      | [] => p
      | f :: _ =>
        { p with table := p.table.modifyScope f.scope fun s =>
            { s with funcs := s.funcs.insert name n.id } }
    | none => p
  | _ => p

/-- What happens when everything below a node is done. -/
def exit (p : Pass) (n : Node) : Pass :=
  match exitLabel? p.table n with
  | some label => p.setSrcName n.id label
  | none => p

/-- Whether a node declares names in the context around it. -/
def declares : Kind → Bool
  | .functionDeclaration | .variableDeclarator | .classDeclaration | .catchClause => true
  | _ => false

/-- The way into a node: its own hook, its declarations, its context, its block. -/
def begin (p : Pass) (tracking : Bool) (parent : Option Node) (n : Node) : Pass :=
  let p := p.enter n
  let p := if declares n.kind then p.declare tracking parent n else p
  let p := if n.kind.isContext then p.enterContext tracking n else p
  p.openBlock tracking n

/-- The way out of a node. -/
def finish (p : Pass) (tracking : Bool) (n : Node) : Pass :=
  let p := p.closeBlock tracking n
  let p := if n.kind.isContext then p.exitContext else p
  p.exit n

mutual

/-- Walk a node and everything below it. -/
def visit (tracking : Bool) (parent : Option Node) : Node → Pass → Pass
  | ⟨id, kind, role, fields, children⟩, p =>
    let n : Node := ⟨id, kind, role, fields, children⟩
    (visitAll tracking n children (p.begin tracking parent n)).finish tracking n

def visitAll (tracking : Bool) (parent : Node) : List Node → Pass → Pass
  | [], p => p
  | c :: rest, p => visitAll tracking parent rest (visit tracking (some parent) c p)

end

end Pass

/-- The annotations of a tree. Without `tracking`, blocks bind nothing. -/
def annotate (tracking : Bool) (t : Tree) : ScopeTable :=
  (Pass.visit tracking none t.root ⟨[], .blank t.size⟩).table

end ScriptSandbox.Scope
