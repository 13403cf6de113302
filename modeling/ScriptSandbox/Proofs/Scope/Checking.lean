import ScriptSandbox.Proofs.Syntax.Arena
import ScriptSandbox.Scope.Annotation

/-
  The annotation of an arena, with every index checked.

  This is the pass once more, over a flat arena instead of a tree. A node is known by its number
  only, and whatever the pass does with a number is a lookup that may fail: in the arena, in the
  table, among the scopes or among the frames. Scans keep a list of pending numbers and the walk has
  a depth, and both run out if they take more rounds than the arena has entries. The numbers that
  the walk reaches are logged. What is read off a single entry is left to the definitions for nodes,
  applied to the entry without its children (`Entry.bare`).
-/

namespace ScriptSandbox.Scope

open Syntax

/-- What a pass looks up and does not find. -/
inductive Stray where
  | node (id : NodeId)
  | info (id : NodeId)
  | scope (id : ScopeId)
  /-- The frames inside that of a block's owner. -/
  | frames (inner : Nat)
  /-- A loop takes more rounds than there are entries. -/
  | endless
deriving DecidableEq, Repr

namespace Checked

variable (a : Arena) (tracking : Bool)

/-! ## Lookups -/

def entry (id : NodeId) : Except Stray Entry :=
  match a[id]? with
  | some e => .ok e
  | none => .error (.node id)

def info (t : ScopeTable) (id : NodeId) : Except Stray NodeInfo :=
  match t.info[id]? with
  | some i => .ok i
  | none => .error (.info id)

def scope (t : ScopeTable) (id : ScopeId) : Except Stray FunctionScope :=
  match t.scopes[id]? with
  | some s => .ok s
  | none => .error (.scope id)

def modifyInfo (t : ScopeTable) (id : NodeId) (f : NodeInfo → NodeInfo) :
    Except Stray ScopeTable := do
  let _ ← info t id
  return t.modifyInfo id f

def modifyScope (t : ScopeTable) (id : ScopeId) (f : FunctionScope → FunctionScope) :
    Except Stray ScopeTable := do
  let _ ← scope t id
  return t.modifyScope id f

def pushScope (t : ScopeTable) (s : FunctionScope) : Except Stray ScopeTable := do
  let _ ← info t s.node
  return t.pushScope s

/-! ## Declarations -/

/-- The declarations made by an entry. A declarator looks at its parent. -/
def declarations (id : NodeId) : Except Stray (List Declaration) := do
  let e ← entry a id
  match e.kind, e.parent with
  | .variableDeclarator, some p =>
    let parent ← entry a p
    return Scope.declarations (some (parent.bare p)) (e.bare id)
  | _, _ => return Scope.declarations none (e.bare id)

/-- The entry that holds the statements of a context. -/
def bodyBlock? (e : Entry) : Except Stray (Option Entry) :=
  if e.kind = .program then .ok (some e)
  else
    match e.child? "body" with
    | none => .ok none
    | some id => do
      let body ← entry a id
      return if body.kind = .blockStatement then some body else none

/-- Collect what pending entries contribute, and what those below them do where `enters` lets the
    scan in. A number is pending together with whether it is a direct statement. -/
def scan {β : Type} (enters : Kind → Bool) (own : NodeId → Bool → Except Stray (List β)) :
    (rounds : Nat) → List (NodeId × Bool) → Except Stray (List β)
  | _, [] => .ok []
  | 0, _ :: _ => .error .endless
  | rounds + 1, (id, direct) :: pending => do
    let e ← entry a id
    let mine ← own id direct
    let below := if enters e.kind then e.children.map fun c => (c, false) else []
    let rest ← scan enters own rounds (below ++ pending)
    return mine ++ rest

/-- What a scan for hoisted declarations takes from an entry. -/
def ownDeclarations (id : NodeId) (direct : Bool) : Except Stray (List Declaration) := do
  let e ← entry a id
  if e.kind.isFunction && !direct then return [] else declarations a id

/-- The declarations visible from the top of a context. -/
def hoisted (id : NodeId) : Except Stray (List Declaration) := do
  let e ← entry a id
  let block? ← bodyBlock? a e
  let statements := match block? with
    | some block => ((block.list? "body").getD []).filterMap fun slot => slot
    | none => if e.kind = Kind.program then [] else (e.child? "body").toList
  scan a (fun k => !k.isFunction) (ownDeclarations a) a.length
    (statements.map fun id => (id, true))

/-- What a scan for the names of a block takes from an entry. -/
def ownNames (id : NodeId) (_ : Bool) : Except Stray (List String) := do
  let e ← entry a id
  if e.kind.isFunction || e.kind.opensBlock then return []
  else
    let made ← declarations a id
    return (made.filter (·.binding = .lexical)).map (·.name)

/-- The block-scoped names that a block owns. -/
def blockNames (id : NodeId) : Except Stray (List String) := do
  let e ← entry a id
  let parameters := if e.kind = .catchClause then fieldNames (e.bare id) "param" else []
  let below ← scan a (fun k => !(k.isFunction || k.opensBlock)) (ownNames a) a.length
    (e.children.map fun c => (c, false))
  return parameters ++ below

/-- Whether the body of a context starts with the bare string `"use strict"`. -/
def isStrict (id : NodeId) : Except Stray Bool := do
  let e ← entry a id
  match ← bodyBlock? a e with
  | none => return false
  | some block =>
    match (block.list? "body").bind List.head? with
    | some (some first) =>
      let statement ← entry a first
      if statement.kind = .expressionStatement then
        match statement.child? "expression" with
        | some id =>
          let e ← entry a id
          return e.kind = .literal && (e.bare id).stringData? "value" = some "use strict"
        | none => return false
      else return false
    | _ => return false

/-! ## Names -/

/-- The number of frames inside the one whose open block binds a name. -/
def blockOwner? (t : ScopeTable) (name : String) : List Frame → Except Stray (Option Nat)
  | [] => .ok none
  | f :: rest =>
    if f.blockBinds name then .ok (some 0)
    else do
      let s ← scope t f.scope
      if s.binds name then return none
      else
        let inner? ← blockOwner? t name rest
        return inner?.map (· + 1)

def reference (p : Pass) (name : String) : Except Stray Pass := do
  match ← blockOwner? p.table name p.frames with
  | some inner =>
    if inner < p.frames.length then
      return { p with frames := (p.frames.take inner).map (·.capture name) ++ p.frames.drop inner }
    else .error (.frames inner)
  | none => return p.addRef name

/-- The first scope on a chain of parents that binds a name. -/
def binderFrom (t : ScopeTable) (name : String) :
    (rounds : Nat) → Option ScopeId → Except Stray (Option (ScopeId × NodeId))
  | _, none => .ok none
  | 0, some _ => .error .endless
  | rounds + 1, some id => do
    let s ← scope t id
    match s.declaration? name with
    | some node => return some (id, node)
    | none => binderFrom t name rounds s.parent

def resolve (t : ScopeTable) (id : ScopeId) (name : String) : Except Stray Resolution := do
  match ← binderFrom t name t.scopes.size (some id) with
  | some (binder, node) => return if binder = id then .own node else .outer binder node
  | none => return .free

/-! ## Contexts and blocks -/

/-- Record a declaration in a scope. -/
def record (scope : ScopeId) (t : ScopeTable) (d : Declaration) : Except Stray ScopeTable :=
  match d.binding with
  | .var => modifyScope t scope fun s => { s with vars := s.vars.insert d.name d.node }
  | .lexical =>
    if tracking then
      modifyScope t scope fun s => { s with lexicals := s.lexicals.insert d.name d.node }
    else .ok t

/-- Record what an entry declares in the innermost context. -/
def declare (id : NodeId) (p : Pass) : Except Stray Pass :=
  match p.frames with
  | [] => .ok p
  | f :: _ => do
    let made ← declarations a id
    let table ← made.foldlM (record tracking f.scope) p.table
    return { p with table := table }

def enterContext (id : NodeId) (e : Entry) (p : Pass) : Except Stray Pass := do
  let scope := p.table.scopes.size
  let table ← pushScope p.table (Pass.freshScope (p.frames.head?.map (·.scope)) (e.bare id))
  let table ← (← hoisted a id).foldlM (record tracking scope) table
  let table ←
    if ← isStrict a id then modifyInfo table id fun i => { i with strict := true } else pure table
  return { frames := ⟨scope, [], ∅, ∅⟩ :: p.frames, table := table }

/-- Leave the innermost context: every name referenced in it is resolved and sorted. -/
def exitContext (p : Pass) : Except Stray Pass :=
  match p.frames with
  | [] => .ok p
  | f :: rest => do
    let found ← f.refs.names.mapM fun name => do return (name, ← resolve p.table f.scope name)
    let (upvars, freevars) := found.foldl
      (fun (upvars, freevars) (name, r) =>
        match r with
        | .own _ => (upvars, freevars)
        | .outer _ _ => (upvars.insert name, freevars)
        | .free => (upvars, freevars.insert name))
      (f.captured, ∅)
    let outward := found.filter fun (_, r) =>
      match r with
      | .own _ => false
      | _ => true
    let table ← modifyScope p.table f.scope fun s =>
      { s with upvars := upvars, freevars := freevars }
    return {
      frames := outward.foldl (fun frames (name, _) => onInnermost (·.addRef name) frames) rest
      table := table }

def openBlock (id : NodeId) (e : Entry) (p : Pass) : Except Stray Pass :=
  if tracking && e.kind.opensBlock then do
    let names ← blockNames a id
    let owned := NameSet.ofList names
    return { p with
      frames := onInnermost (fun f => { f with blocks := owned :: f.blocks }) p.frames }
  else .ok p

/-! ## Labels -/

def setSrcName (p : Pass) (id : NodeId) (label : String) : Except Stray Pass := do
  let table ← modifyInfo p.table id fun i => { i with srcName := some label }
  return { p with table := table }

def labelOf (t : ScopeTable) (e : Entry) (key : String) : Except Stray (Option String) :=
  match e.child? key with
  | none => .ok none
  | some id => do return (← info t id).srcName

/-- The label of an element; that of a hole is empty. -/
def elementLabel (t : ScopeTable) : Option NodeId → Except Stray String
  | none => .ok ""
  | some id => do return (← info t id).srcName.getD ""

/-- The label of an entry whose children are labelled in the table. -/
def exitLabel? (t : ScopeTable) (id : NodeId) (e : Entry) : Except Stray (Option String) := do
  let n := e.bare id
  match e.kind with
  | .identifier => return n.stringData? "name"
  | .literal => return some (literalLabel n)
  | .binaryExpression | .logicalExpression =>
    let left ← labelOf t e "left"
    let right ← labelOf t e "right"
    return some (left.getD "??" ++ " " ++ (n.stringData? "operator").getD "?" ++ " " ++
      right.getD "??")
  | .memberExpression =>
    let base := (← labelOf t e "object").getD "??"
    let property := (← labelOf t e "property").getD "(intermediate value)"
    return some
      (if n.isTrue "computed" then base ++ "[" ++ property ++ "]" else base ++ "." ++ property)
  | .callExpression => return some ((← labelOf t e "callee").getD "??" ++ "(...)")
  | .newExpression => return some ("new " ++ (← labelOf t e "callee").getD "??" ++ "(...)")
  | .arrayExpression =>
    let labels ← ((e.list? "elements").getD []).mapM (elementLabel t)
    return some ("[" ++ ",".intercalate labels ++ "]")
  | _ => return none

/-! ## The walk -/

/-- The name of the label of an entry. -/
def ownLabel? (e : Entry) : Except Stray (Option String) :=
  match e.child? "label" with
  | none => .ok none
  | some id => do
    let label ← entry a id
    return (label.bare id).stringData? "name"

/-- What happens when an entry is reached, before anything below it. -/
def enter (id : NodeId) (e : Entry) (p : Pass) : Except Stray Pass :=
  match e.kind with
  | .identifier =>
    if e.role = .name then .ok p
    else
      match (e.bare id).stringData? "name" with
      | some name => reference p name
      | none => .ok p
  | .thisExpression => setSrcName p id "this"
  | .labeledStatement => do
    match ← ownLabel? a e, e.child? "body" with
    | some label, some body =>
      let table ← modifyInfo p.table body fun i => { i with label := some label }
      return { p with table := table }
    | _, _ => return p
  | .functionDeclaration =>
    match nameOf? (e.bare id) with
    | some name => do
      let p ← setSrcName p id (functionLabel name)
      match p.frames with
      | [] => return p
      | f :: _ =>
        let table ← modifyScope p.table f.scope fun s =>
          { s with funcs := s.funcs.insert name id }
        return { p with table := table }
    | none => .ok p
  | _ => .ok p

def exit (id : NodeId) (e : Entry) (p : Pass) : Except Stray Pass := do
  match ← exitLabel? p.table id e with
  | some label => setSrcName p id label
  | none => return p

def onlyIf (applies : Bool) (step : Pass → Except Stray Pass) (p : Pass) : Except Stray Pass :=
  if applies then step p else .ok p

/-- The way into an entry. -/
def «begin» (id : NodeId) (e : Entry) (p : Pass) : Except Stray Pass := do
  let p ← enter a id e p
  let p ← onlyIf (Pass.declares e.kind) (declare a tracking id) p
  let p ← onlyIf e.kind.isContext (enterContext a tracking id e) p
  openBlock a tracking id e p

/-- The way out of an entry. -/
def finish (id : NodeId) (e : Entry) (p : Pass) : Except Stray Pass := do
  let p := p.closeBlock tracking (e.bare id)
  let p ← onlyIf e.kind.isContext exitContext p
  exit id e p

/-- Walk an entry and everything below it, logging the numbers that are reached. -/
def visit : (depth : Nat) → NodeId → Pass × List NodeId → Except Stray (Pass × List NodeId)
  | 0, _, _ => .error .endless
  | depth + 1, id, (p, reached) => do
    let e ← entry a id
    let p ← Checked.begin a tracking id e p
    let (p, reached) ← e.children.foldlM (fun s c => visit depth c s) (p, reached ++ [id])
    let p ← finish tracking id e p
    return (p, reached)

/-- The annotation of an arena: the pass when the walk has ended, and the numbers reached. -/
def annotate : Except Stray (Pass × List NodeId) :=
  visit a tracking a.length 0 (⟨[], .blank a.length⟩, [])

end Checked

end ScriptSandbox.Scope
