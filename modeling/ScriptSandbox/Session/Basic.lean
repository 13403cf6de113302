import ScriptSandbox.Operation.Reference
import ScriptSandbox.Session.Program
import ScriptSandbox.Session.View

/-
  Sessions.

  A session is an embedding whose host objects are records and whose script functions behave as
  they were told. It knows its values, references, host objects and realms by name, and it keeps a
  trace of the requests of the operation that is running. Everything that a session can name stays
  alive; between operations nothing else does.
-/

namespace ScriptSandbox

/-- What a literal can refer to inside a call. -/
structure Frame where
  receiver : Value
  args : List Value

/-- What a frame holds. -/
def Frame.things (f : Frame) : List Thing := Thing.ofValues (f.receiver :: f.args)

/-- The frame outside of every call. -/
def Frame.outer : Frame := ⟨.undefined, []⟩

/-- The operation that is running. -/
structure Run where
  /-- The requests so far, the latest first. -/
  trace : List TraceEntry
  /-- The number of requests at which the run is cancelled. -/
  cancelAfter : Option Nat

/-- A run without requests. -/
def Run.fresh (cancelAfter : Option Nat) : Run := ⟨[], cancelAfter⟩

structure Session where
  records : Array Record
  hosts : Table Native
  slots : Table Value
  handles : Table Reference
  realms : Table RealmId
  /-- What script functions do, by node: one behaviour per call, the last one for all further
      calls. -/
  functions : List (Nat × List Behaviour)
  /-- The nodes of the calls so far. -/
  called : List Nat
  run : Run

namespace Session

/-- A session of records that knows nothing by name. -/
def ofRecords (records : Array Record) : Session :=
  ⟨records, ∅, ∅, ∅, ∅, [], [], .fresh none⟩

/-- The record behind a host object. -/
def record (s : Session) (id : HostId) : Record := s.records[id]?.getD default

/-- Run a method of a record that may change it. -/
def onRecord {α : Type} (id : HostId) (f : Record → α × Record) (s : Session) : α × Session :=
  let (a, r) := f (s.record id)
  (a, { s with records := s.records.setIfInBounds id r })

theorem record_onRecord {α : Type} (id host : HostId) (f : Record → α × Record) (s : Session) :
    (onRecord id f s).2.record host =
      if id = host ∧ id < s.records.size then (f (s.record host)).2 else s.record host := by
  simp only [onRecord, record, Array.getElem?_setIfInBounds]
  by_cases h : id = host
  · subst h
    by_cases hlt : id < s.records.size
    · simp [hlt]
    · simp [hlt]
  · simp [h]

/-- What the session can name. -/
def named (s : Session) : List Thing :=
  s.slots.entries.map (fun e => .value e.2) ++ s.handles.entries.map (fun e => .value e.2.base) ++
    s.hosts.entries.map fun e => .native e.2

instance : Embedding Session where
  display s id := (s.record id).label
  has s id name := (s.record id).properties.contains name
  get id name s := ((s.record id).get name, s)
  set id name value := onRecord id (Record.set name value)
  delete id name := onRecord id (Record.delete name)
  callable s id := (s.record id).callable
  call id receiver args := onRecord id (Record.call receiver args)
  policy s id := (s.record id).policy
  primitive id s := ((s.record id).primitive?, s)
  roots := named
  contents s := s.records.map Record.held

/-- The behaviour for the next call of a function node. -/
def nextBehaviour (s : Session) (node : Nat) : Behaviour :=
  let script := (s.functions.lookup node).getD []
  (script[s.called.count node]?.or script.getLast?).getD default

/-- Whether the running operation was cancelled. -/
def cancelled (s : Session) : Bool :=
  match s.run.cancelAfter with
  | some limit => limit ≤ s.run.trace.length
  | none => false

/-- The name of a realm. -/
def realmName (s : Session) (realm : RealmId) : String :=
  ((s.realms.sorted.find? fun e => e.2 == realm).map (·.1)).getD ""

end Session

namespace World

/-- The realm of a name; the first realm stands in for unknown ones. -/
def realmNamed (w : World Session) (name : String) : RealmId :=
  (w.embedding.realms.find? name).getD 0

/-- Change the running operation. -/
def modifyRun (f : Run → Run) (w : World Session) : World Session :=
  w.modifyEmbedding fun s => { s with run := f s.run }

end World

end ScriptSandbox
