import ScriptSandbox.Host.Basic
import ScriptSandbox.Table

/-
  Records.

  A record is an embedding's object that keeps its properties in a table. A passive record can be
  read but not changed by anyone but the host, and it refuses calls even if it calls itself
  callable. An active record takes writes, deletes and calls, in so far as its conduct allows; the
  failures that it is told to report come before everything else.
-/

namespace ScriptSandbox

/-- What a record does when it is called. -/
inductive Reaction where
  | returns (v : HostValue)
  | echoReceiver
  | echoArguments
  /-- Keep the arguments as a property. -/
  | stores (name : String)
  | fails (e : HostError)
deriving Repr

/-- Failures to report, by the name of the property that is accessed. -/
structure Refusals where
  get : Table HostError
  set : Table HostError
  delete : Table HostError
deriving Repr

/-- How an active record behaves. -/
structure Conduct where
  /-- Writes fail. -/
  readOnly : Bool
  /-- Properties that are kept when they are to be deleted. -/
  stuck : List String
  refusals : Refusals
  primitive : Option HostValue
  /-- What a call does; without it there are no calls. -/
  reaction : Option Reaction
deriving Repr

inductive RecordKind where
  | passive (callable : Bool)
  | active (c : Conduct)
deriving Repr

structure Record where
  label : String
  properties : Table HostValue
  policy : Option Policy
  kind : RecordKind
deriving Repr

namespace Record

instance : Inhabited Record := ⟨⟨"", ∅, none, .passive false⟩⟩

/-- Write a property from the host side. -/
def define (name : String) (value : HostValue) (r : Record) : Record :=
  { r with properties := r.properties.insert name value }

def conduct? (r : Record) : Option Conduct :=
  match r.kind with
  | .passive _ => none
  | .active c => some c

/-- The failure to report for an access. -/
def refusal? (r : Record) (access : Refusals → Table HostError) (name : String) :
    Option HostError :=
  r.conduct?.bind fun c => (access c.refusals).find? name

def get (r : Record) (name : String) : Except HostError HostValue :=
  match r.refusal? (·.get) name with
  | some e => .error e
  | none => .ok ((r.properties.find? name).getD .undefined)

def set (name : String) (value : HostValue) (r : Record) : Except HostError Unit × Record :=
  match r.conduct?, r.refusal? (·.set) name with
  | none, _ => (.error (.readOnly name), r)
  | _, some e => (.error e, r)
  | some c, none =>
    if c.readOnly then (.error (.readOnly name), r) else (.ok (), r.define name value)

/-- Delete a property; the result tells whether it was there and is gone. -/
def delete (name : String) (r : Record) : Except HostError Bool × Record :=
  match r.conduct?, r.refusal? (·.delete) name with
  | none, _ => (.ok false, r)
  | _, some e => (.error e, r)
  | some c, none =>
    if c.stuck.contains name then (.ok false, r)
    else (.ok (r.properties.contains name), { r with properties := r.properties.erase name })

def callable (r : Record) : Bool :=
  match r.kind with
  | .passive callable => callable
  | .active c => c.reaction.isSome

def primitive? (r : Record) : Option HostValue := r.conduct?.bind (·.primitive)

def call (receiver : HostValue) (args : List HostValue) (r : Record) :
    Except HostError HostValue × Record :=
  match r.conduct?.bind (·.reaction) with
  | none => (.error (.notCallable r.label), r)
  | some (.returns v) => (.ok v, r)
  | some .echoReceiver => (.ok receiver, r)
  | some .echoArguments => (.ok (.array args), r)
  | some (.stores name) => (.ok .undefined, r.define name (.array args))
  | some (.fails e) => (.error e, r)

/-- The host values that a record keeps. -/
def held (r : Record) : List HostValue :=
  let own := r.properties.entries.map (·.2) ++ r.primitive?.toList
  match r.conduct?.bind (·.reaction) with
  | some (.returns v) => v :: own
  | _ => own

end Record

end ScriptSandbox
