import ScriptSandbox.Operation.Member

/-
  References.

  A reference is a handle on a property: a base, a name, and what the base granted when the handle
  was taken. It never grants more than the base does when it is used.
-/

namespace ScriptSandbox

/-- What a reference lets through. -/
inductive Access where
  | allowed
  /-- Writes are refused. -/
  | readOnly
  /-- Reads, writes and deletes are refused. -/
  | sealed
deriving DecidableEq, Repr

structure Reference where
  base : Value
  name : String
  access : Access
deriving DecidableEq, Repr

namespace World

variable {E : Type} [Embedding E]

/-- The access that a link grants to a property. -/
def linkAccess (w : World E) (l : Link) (name : String) : Access :=
  if !w.hasProperty l.native name then .allowed
  else if !w.allowsRead l name then .sealed
  else if !w.allowsWrite l name then .readOnly
  else .allowed

/-- A handle on a property of a value. -/
def reference (w : World E) (base : Value) (name : String) : Reference :=
  let access :=
    match base with
    | .link id => (w.links[id]?.map (w.linkAccess · name)).getD .allowed
    | _ => .allowed
  ⟨base, name, access⟩

end World

namespace Reference

open Evaluation

variable {E : Type} [Embedding E]

def get (r : Reference) (realm : RealmId) : Evaluation E Value :=
  if r.access = .sealed then fail realm (.protectedRead r.name) else r.base.member r.name realm

def set (r : Reference) (value : Value) (realm : RealmId) : Evaluation E Unit :=
  if r.access ≠ .allowed then fail realm (.protectedWrite r.name)
  else r.base.put r.name value realm

def delete (r : Reference) (realm : RealmId) : Evaluation E Bool :=
  if r.access = .sealed then fail realm (.protectedDelete r.name) else r.base.delete r.name realm

end Reference

end ScriptSandbox
