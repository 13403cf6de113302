import ScriptSandbox.Session.Basic

/-
  Making what literals describe.

  Literals are read from the left. Every array and every string that is not empty is new; a slot
  that is empty gives `undefined`, and so does an argument that is missing. An action changes the
  world and gives a result unless a fault ends everything.
-/

namespace ScriptSandbox

/-- A change of a session's world with a result. -/
abbrev Action (α : Type) := StateT (World Session) (Except Fault) α

namespace Action

/-- An action that cannot fail. -/
def compute {α : Type} (f : World Session → α × World Session) : Action α := fun w => .ok (f w)

/-- A result read from the world. -/
def read {α : Type} (f : World Session → α) : Action α := fun w => .ok (f w, w)

/-- A change of the session. -/
def change (f : Session → Session) : Action Unit := fun w => .ok ((), w.modifyEmbedding f)

/-- An action as a step. -/
def step {α : Type} (a : Action α) : Evaluation Session α := .inspect fun w =>
  match a w with
  | .ok (r, w') => .modify (fun _ => w') (.ready r)
  | .error e => .fault e

end Action

/-! ## Values -/

mutual

/-- The value that a literal describes in a frame. -/
def Literal.make (f : Frame) : Literal → Action Value
  | .undefined => return .undefined
  | .null => return .null
  | .boolean b => return .boolean b
  | .number n => return .number n
  | .string s => Action.compute (World.newString s)
  | .array items => do
    let vs ← Literal.makeAll f items
    Action.compute (World.newArray vs.toArray)
  | .slot name => Action.read fun w => (w.embedding.slots.find? name).getD .undefined
  | .receiver => return f.receiver
  | .argument index => return f.args[index]?.getD .undefined

def Literal.makeAll (f : Frame) : List Literal → Action (List Value)
  | [] => return []
  | l :: rest => do
    let v ← Literal.make f l
    let vs ← Literal.makeAll f rest
    return v :: vs

end

/-! ## Host values -/

/-- The host form of a value; a value without one is a fault. -/
def Action.cross (v : Value) : Action HostValue := do
  match ← Action.compute (World.toHost v) with
  | some h => return h
  | none => throw .endlessArray

/-- A new object of the session. -/
def Session.newRecord (r : Record) (s : Session) : Native × Session :=
  (.hosted s.records.size, { s with records := s.records.push r })

mutual

/-- The host value that a literal describes. -/
def HostLiteral.make (f : Frame) : HostLiteral → Action HostValue
  | .undefined => return .undefined
  | .null => return .null
  | .boolean b => return .boolean b
  | .number n => return .number n
  | .string s => return .string s
  | .array items => return .array (← HostLiteral.makeAll f items)
  | .named host => Action.read fun w =>
    ((w.embedding.hosts.find? host).map HostValue.object).getD .undefined
  | .fresh spec => return .object (← HostSpec.make f spec)
  | .bookmark target => do
    let v ← target.make f
    return .object (← Action.compute (World.newBookmark v))
  | .crossed v => do
    let v ← v.make f
    Action.cross v

def HostLiteral.makeAll (f : Frame) : List HostLiteral → Action (List HostValue)
  | [] => return []
  | l :: rest => do
    let h ← HostLiteral.make f l
    let hs ← HostLiteral.makeAll f rest
    return h :: hs

/-- The properties of a record that literals describe. -/
def HostLiteral.makeEntries (f : Frame) :
    List (String × HostLiteral) → Action (List (String × HostValue))
  | [] => return []
  | (name, l) :: rest => do
    let h ← HostLiteral.make f l
    let hs ← HostLiteral.makeEntries f rest
    return (name, h) :: hs

/-- The host object that a description gives. -/
def HostSpec.make (f : Frame) : HostSpec → Action Native
  | .bookmark target => do
    let v ← target.make f
    Action.compute (World.newBookmark v)
  | .error name message => Action.compute (World.newError name message)
  | .record label properties policy kind => do
    let properties ← HostLiteral.makeEntries f properties
    let kind ← RecordSpec.make f kind
    Action.compute (World.hosted (Session.newRecord ⟨label, .ofList properties, policy, kind⟩))

def RecordSpec.make (f : Frame) : RecordSpec → Action RecordKind
  | .passive callable => return .passive callable
  | .active readOnly stuck refusals none reaction => do
    let reaction ← ReactionSpec.makeOption f reaction
    return .active ⟨readOnly, stuck, refusals, none, reaction⟩
  | .active readOnly stuck refusals (some primitive) reaction => do
    let primitive ← HostLiteral.make f primitive
    let reaction ← ReactionSpec.makeOption f reaction
    return .active ⟨readOnly, stuck, refusals, some primitive, reaction⟩

def ReactionSpec.makeOption (f : Frame) : Option ReactionSpec → Action (Option Reaction)
  | none => return none
  | some (.returns v) => return some (.returns (← HostLiteral.make f v))
  | some .echoReceiver => return some .echoReceiver
  | some .echoArguments => return some .echoArguments
  | some (.stores name) => return some (.stores name)
  | some (.fails e) => return some (.fails e)

end

/-! ## Completions -/

/-- The completion that a description gives in a realm. -/
def CompletionSpec.make (f : Frame) (realm : RealmId) : CompletionSpec → Action Completion
  | .ofKind kind value target => return .ofKind kind (← value.make f) target
  | .typeError message => Action.compute (World.typeError realm message)
  | .hostError e => Action.compute (World.hostError realm e)

end ScriptSandbox
