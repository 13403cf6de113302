import ScriptSandbox.Table
import ScriptSandbox.Syntax.Tree

/-
  Scope tables.

  A `ScopeTable` has an entry per node of a tree and a list of scopes, one per function context.
  `resolve` walks from a scope outward along the parents and stops at the first scope that binds
  the name throughout.
-/

namespace ScriptSandbox.Scope

open Syntax

/-- The position of a scope in its table. -/
abbrev ScopeId := Nat

/-- What is recorded about one node. -/
structure NodeInfo where
  /-- A reconstruction of source text for messages. -/
  srcName : Option String
  strict : Bool
  /-- The label of the statement that has this node as its body. -/
  label : Option String
  /-- The scope that the node owns. -/
  scope : Option ScopeId
deriving Repr

def NodeInfo.blank : NodeInfo := ⟨none, false, none, none⟩

instance : Inhabited NodeInfo := ⟨NodeInfo.blank⟩

/-- A function context. -/
structure FunctionScope where
  node : NodeId
  parent : Option ScopeId
  /-- Whether the name `arguments` is bound without a declaration. -/
  bindsArguments : Bool
  /-- Names bound throughout the context, each with its declaring node. -/
  vars : Table NodeId
  /-- Function declarations of the context. -/
  funcs : Table NodeId
  /-- Block-scoped declarations of the context. -/
  lexicals : Table NodeId
  /-- Names captured from an enclosing context. -/
  upvars : NameSet
  /-- Names that no enclosing context binds. -/
  freevars : NameSet
deriving Repr, Inhabited

namespace FunctionScope

/-- The node that declares a name throughout the context. Arguments are declared by the function
    itself unless a declaration takes their name. -/
def declaration? (s : FunctionScope) (name : String) : Option NodeId :=
  match s.vars.find? name with
  | some node => some node
  | none => if s.bindsArguments && name == "arguments" then some s.node else none

/-- Whether a name is bound throughout the context. -/
def binds (s : FunctionScope) (name : String) : Bool := (s.declaration? name).isSome

end FunctionScope

/-- Where a name leads from a scope. -/
inductive Resolution where
  /-- To a declaration of the scope itself. -/
  | own (declaration : NodeId)
  /-- To a declaration of an enclosing scope. -/
  | outer (scope : ScopeId) (declaration : NodeId)
  /-- Out of the document. -/
  | free
deriving DecidableEq, Repr

/-- The annotations of a tree. -/
structure ScopeTable where
  info : Array NodeInfo
  scopes : Array FunctionScope
deriving Repr, Inhabited

namespace ScopeTable

/-- A table without scopes for a tree of `size` nodes. -/
def blank (size : Nat) : ScopeTable := ⟨Array.replicate size .blank, #[]⟩

def srcName? (t : ScopeTable) (id : NodeId) : Option String := t.info[id]?.bind (·.srcName)

def modifyInfo (t : ScopeTable) (id : NodeId) (f : NodeInfo → NodeInfo) : ScopeTable :=
  { t with info := t.info.modify id f }

def modifyScope (t : ScopeTable) (id : ScopeId) (f : FunctionScope → FunctionScope) : ScopeTable :=
  { t with scopes := t.scopes.modify id f }

/-- Add a scope and link its node to it. -/
def pushScope (t : ScopeTable) (s : FunctionScope) : ScopeTable :=
  { t with scopes := t.scopes.push s }.modifyInfo s.node fun i =>
    { i with scope := some t.scopes.size }

/-- The first scope on the chain from `from?` outward that binds a name, among the first `steps`
    scopes of the chain. -/
def binderWithin (t : ScopeTable) (name : String) :
    (steps : Nat) → (from? : Option ScopeId) → Option (ScopeId × NodeId)
  | 0, _ => none
  | _ + 1, none => none
  | steps + 1, some id =>
    match t.scopes[id]? with
    | none => none
    | some s =>
      match s.declaration? name with
      | some node => some (id, node)
      | none => binderWithin t name steps s.parent

/-- Where a name leads from a scope, by the bindings that hold throughout a context. A chain of
    parents has at most as many scopes as the table. -/
def resolve (t : ScopeTable) (id : ScopeId) (name : String) : Resolution :=
  match t.binderWithin name t.scopes.size (some id) with
  | some (binder, node) => if binder = id then .own node else .outer binder node
  | none => .free

end ScopeTable

end ScriptSandbox.Scope
