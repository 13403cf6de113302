import ScriptSandbox.Diagnostic.Tagged
import ScriptSandbox.Session.Command
import ScriptSandbox.Session.Script

/-
  Conversations.

  A conversation is a list of commands to a session. Each command is answered from what it leaves
  behind; after it, everything that the session does not hold is let go. A fault ends the
  conversation.
-/

namespace ScriptSandbox

namespace Session

/-! ## Opening -/

/-- The world of a session with the given realms besides the main one, and script functions. -/
def start (realms : List (String × NewProperties)) (functions : List (Nat × List Behaviour)) :
    World Session :=
  let s : Session :=
    { records := #[]
      hosts := ∅
      slots := ∅
      handles := ∅
      realms := ∅
      functions := functions
      called := []
      run := .fresh none }
  ((mainRealm, .allow) :: realms).foldl
    (fun w r =>
      let (id, w) := w.newRealm r.2
      w.modifyEmbedding fun s => { s with realms := s.realms.insert r.1 id })
    (World.empty s)

/-! ## Storing -/

/-- Put a value into a slot, if one is given. -/
def storeValue (slot : Option String) (v : Value) : Action Unit :=
  match slot with
  | some name => Action.change fun s => { s with slots := s.slots.insert name v }
  | none => return ()

/-- Store a value and look at it. -/
def keepValue (slot : Option String) (v : Value) : Action Answer := do
  storeValue slot v
  return .value (← Action.read (·.view v))

/-! ## Running operations -/

def completionView (w : World Session) (c : Completion) : CompletionView :=
  { kind := c.kind
    abrupt := c.isAbrupt
    thrown := c.isThrow
    value := w.view c.value
    target := c.target?
    text := Diagnostic.completionText w c }

def resultView (w : World Session) : Result → ResultView
  | .value v => .value (w.view v)
  | .flag b => .flag b
  | .integer n => .integer n
  | .number n => .number n
  | .text s => .text s
  | .done => .done

/-- Store and show a result; in a slot it becomes a value. -/
def keepResult (slot : Option String) (r : Result) : Action ResultView := do
  if slot.isSome then
    let v ← Action.compute r.toValue
    storeValue slot v
    Action.read fun w => resultView w (.value v)
  else
    Action.read fun w => resultView w r

/-- The requests of the run, the first one in front. -/
def trace (w : World Session) : List TraceEntry := w.embedding.run.trace.reverse

/-- The answer to a run that came to an outcome. -/
def conclude (settings : RunSettings) : Outcome Result → Action Answer
  | .finished (.ok r) => do
    let r ← keepResult settings.resultSlot r
    return .finished r (← Action.read trace)
  | .finished (.error c) => do
    storeValue settings.catchSlot c.value
    Action.read fun w => .abrupt (completionView w c) (trace w)
  | .stopped s => Action.read fun w => .stopped (Diagnostic.taggedStop s) s.message (trace w)
  | .faulted e => throw e
  | .unfinished => throw .endlessRun

/-- Follow a step to its first request, and abandon it there. -/
def peek (s : Evaluation Session Result) : Action Answer := do
  let front ← Action.compute s.settle
  let text ← Action.read fun w => Diagnostic.taggedFront w front
  match front with
  | .finished _ => return .peeked text true
  | .faulted e => throw e
  | .waiting _ release _ => do
    Action.compute fun w => ((), release w)
    return .peeked text false

/-- Run an operation. -/
def runOperation (op : Operation) (settings : RunSettings) : Action Answer := do
  Action.change fun s => { s with run := .fresh settings.cancelAfter }
  let realm ← Action.read (·.realmNamed settings.realm)
  let step := op.step .outer realm
  if settings.peek then
    peek step
  else
    let limits : Limits (World Session) := ⟨settings.budget, fun w => w.embedding.cancelled⟩
    let outcome ← Action.compute (Driver.run limits respond step)
    conclude settings outcome

/-! ## Making values -/

/-- The host object that a literal describes, if it describes one. -/
def makeNative (h : HostLiteral) : Action (Option Native) := do
  match ← h.make .outer with
  | .object n => return some n
  | _ => return none

/-- Make a value, or say why not. -/
def makeValue : Making → Action (Except Refusal Value)
  | .value v => return .ok (← v.make .outer)
  | .object none => return .ok (← Action.compute (World.newObject default))
  | .object (some prototype) => do
    let prototype ← prototype.make .outer
    return .ok (← Action.compute
      (World.newObject { (default : ScriptObject) with prototype := some prototype }))
  | .array items => do
    let vs ← Literal.makeAll .outer items
    return .ok (← Action.compute (World.newArray vs.toArray))
  | .function node name => return .ok (← Action.compute (World.newFunction ⟨node, name⟩))
  | .fromHost h realm => do
    let h ← h.make .outer
    let realm ← Action.read fun w => realm.map w.realmNamed
    match ← Action.compute (World.fromHostIn realm h) with
    | .ok v => return .ok v
    | .error e => return .error (.missingRealm e)
  | .linked h realm => do
    let h ← h.make .outer
    let realm ← Action.read (·.realmNamed realm)
    return .ok (← Action.compute (World.link realm h))
  | .bridged h realm => do
    match ← makeNative h with
    | some n =>
      let realm ← Action.read (·.realmNamed realm)
      return .ok (← Action.compute (World.bridge realm n))
    | none => return .error .notAnObject
  | .wellKnown h realm => do
    match ← makeNative h with
    | some n =>
      match ← Action.read fun w => w.wellKnown? (w.realmNamed realm) n with
      | some v => return .ok v
      | none => return .error .notRegistered
    | none => return .error .notAnObject

/-! ## Looking -/

def valueInfo (w : World Session) (v : Value) : ValueInfo :=
  { truthy := v.truthy
    typeName := w.typeName v
    callable := w.isCallable v
    primitive := v.isPrimitive
    nullish := v.isNullish
    text := w.debugText v
    number := v.asNumber?
    string := v.asString?
    boolean := v.asBoolean? }

/-- What a script object holds. -/
def inspect (w : World Session) (v : Value) (name : Option String) : Answer :=
  match v with
  | .object id =>
    let o := w.object id
    .inspected (o.properties.sorted.map fun e => (e.1, w.view e.2)) (o.prototype.map w.view)
      (o.function.map fun f => (f.node, f.name)) (name.map o.properties.contains)
  | _ => .refused .notAnObject

/-- What a wrapper lets through. -/
def inspectWrapper (w : World Session) (v : Value) (names : List String) : Answer :=
  match v with
  | .bridge id => .bridge (((w.bridges[id]?).map fun b => w.embedding.realmName b.realm).getD "")
  | .link id =>
    match w.links[id]? with
    | some l =>
      .link (w.embedding.realmName l.realm) (w.policy? l.native).isSome
        (names.map fun n => (n, w.allowsRead l n, w.allowsWrite l n))
    | none => .refused .notAWrapper
  | _ => .refused .notAWrapper

/-- The values that are the same everywhere. -/
def constants : List Value :=
  [.undefined, .null, .boolean true, .boolean false, .number .nan, .number .zero, .emptyString,
    default]

/-! ## Host objects -/

/-- The outcome of a method of a host object. -/
def methodResult {α : Type} (view : α → MethodView) : Except HostError α → MethodView
  | .ok a => view a
  | .error e => .failed e

/-- Call a method of a host object directly. -/
def callMethod (n : Native) : NativeMethod → Action MethodView
  | .display => Action.read fun w => .text (w.display n)
  | .has name => Action.read fun w => .flag (w.hasProperty n name)
  | .callable => Action.read fun w => .flag (w.isNativeCallable n)
  | .primitive => do
    let h ← Action.compute (World.primitiveForm n)
    Action.read fun w => .hostValue (h.map w.hostView)
  | .bookmarked => Action.read fun w => .value (n.bookmarked?.map w.view)
  | .policy => Action.read fun w => .names ((w.policy? n).bind (·.readList?))
  | .get name => do
    let r ← Action.compute (World.getProperty n name)
    Action.read fun w => methodResult (fun h => .hostValue (some (w.hostView h))) r
  | .set name value => do
    let value ← value.make .outer
    return methodResult (fun _ => .done) (← Action.compute (World.setProperty n name value))
  | .delete name => do
    return methodResult .flag (← Action.compute (World.deleteProperty n name))
  | .call self args => do
    let self ← self.make .outer
    let args ← HostLiteral.makeAll .outer args
    let r ← Action.compute (World.callNative n self args)
    Action.read fun w => methodResult (fun h => .hostValue (some (w.hostView h))) r

/-- The number of the record under a name. -/
def recordNamed? (s : Session) (name : String) : Option HostId :=
  match s.hosts.find? name with
  | some (.hosted id) => some id
  | _ => none

/-! ## Commands -/

/-- Change an array. -/
def push (base value : Value) : Action Answer :=
  match base with
  | .array id => do
    Action.compute fun w =>
      ((), w.modifyArray id fun a => { a with elements := a.elements.push value })
    Action.read fun w => .length (w.array id).elements.size
  | _ => return .refused .notAnArray

/-- Point an object at a prototype; only objects have one. -/
def changePrototype (v : Value) (prototype : Option Value) : Action Answer :=
  match v with
  | .object id => return .prototypeSet (← Action.compute (World.setPrototype id prototype))
  | _ => return .prototypeSet false

/-- A literal that may be missing. -/
def makeOption : Option Literal → Action (Option Value)
  | some l => return some (← l.make .outer)
  | none => return none

/-- Answer a single command. -/
def answerOne : Command → Action Answer
  | .run op settings => runOperation op settings
  | .make m slot => do
    match ← makeValue m with
    | .ok v => keepValue slot v
    | .error r => return .refused r
  | .push base value => do
    let base ← base.make .outer
    push base (← value.make .outer)
  | .constants => Action.read fun w => .values (constants.map w.view)
  | .drop slot => do
    let there ← Action.read fun w => w.embedding.slots.contains slot
    Action.change fun s => { s with slots := s.slots.erase slot }
    return .dropped there
  | .info v => do
    let v ← v.make .outer
    Action.read fun w => .info (valueInfo w v)
  | .tagged v => do
    let v ← v.make .outer
    Action.read fun w => .tagged (Diagnostic.taggedValue w v)
  | .compare a b => do
    let a ← a.make .outer
    let b ← b.make .outer
    return .compared (a.sameRef b) (a.strictEq b)
  | .inspect v name => do
    let v ← v.make .outer
    Action.read fun w => inspect w v name
  | .setPrototype v prototype => do
    let v ← v.make .outer
    changePrototype v (← makeOption prototype)
  | .complete c => do
    let realm ← Action.read (·.realmNamed mainRealm)
    let c ← c.make .outer realm
    Action.read fun w => .completion (completionView w c)
  | .refer base name handle => do
    let base ← base.make .outer
    let r ← Action.read (·.reference base name)
    if let some handle := handle then
      Action.change fun s => { s with handles := s.handles.insert handle r }
    Action.read fun w => .reference r.access r.name (w.view r.base)
  | .host name spec => do
    let n ← spec.make .outer
    Action.change fun s => { s with hosts := s.hosts.insert name n }
    Action.read fun w => .host (w.display n)
  | .dropHost name => do
    let there ← Action.read fun w => w.embedding.hosts.contains name
    Action.change fun s => { s with hosts := s.hosts.erase name }
    return .dropped there
  | .defineProperty host name value => do
    let value ← value.make .outer
    match ← Action.read fun w => w.embedding.recordNamed? host with
    | some id =>
      Action.change fun s => (s.onRecord id fun r => ((), r.define name value)).2
      return .done
    | none => return .refused .notAHost
  | .properties host => Action.read fun w =>
    match w.embedding.recordNamed? host with
    | some id =>
      .properties ((w.embedding.record id).properties.sorted.map fun e => (e.1, w.hostView e.2))
    | none => .refused .notAHost
  | .native target method => do
    match ← makeNative target with
    | some n => return .native (← callMethod n method)
    | none => return .refused .notAnObject
  | .crossed v => do
    let v ← v.make .outer
    let h ← Action.cross v
    Action.read fun w => .crossed (w.hostView h)
  | .register h value realm => do
    match ← makeNative h with
    | some n =>
      let v ← value.make .outer
      Action.compute fun w => ((), w.registerWellKnown (w.realmNamed realm) n v)
      return .done
    | none => return .refused .notAnObject
  | .realm name => Action.read fun w =>
    let realm := w.realmNamed name
    .realm (w.realm realm).newProperties (w.cachedBridges realm) (w.cachedLinks realm)
      (Diagnostic.taggedRealm w realm)
  | .purge realm => do
    let realm ← Action.read (·.realmNamed realm)
    return .removed (← Action.compute (World.purge realm))
  | .wrapper v names => do
    let v ← v.make .outer
    Action.read fun w => inspectWrapper w v names
  | .repeated _ _ => return .done

/-- Answer a command and let go of what it made in passing. -/
def answerSettled (c : Command) : Action Answer := do
  let a ← answerOne c
  Action.compute fun w => ((), w.collect [])
  return a

/-- The result of the last of several rounds. -/
def rounds (round : Action (List Answer)) : Nat → List Answer → Action (List Answer)
  | 0, last => return last
  | times + 1, _ => do
    let last ← round
    rounds round times last

mutual

/-- Answer a command. -/
def answer : Command → Action Answer
  | .repeated times commands => return .repeated (← rounds (answerAll commands) times [])
  | c => answerSettled c

def answerAll : List Command → Action (List Answer)
  | [] => return []
  | c :: rest => do
    let a ← answer c
    let as ← answerAll rest
    return a :: as

end

/-- Answer the commands of a conversation, up to the first fault. -/
def converse : List Command → World Session → List Answer
  | [], _ => []
  | c :: rest, w =>
    match answer c w with
    | .ok (a, w) => a :: converse rest w
    | .error _ => [.faulted]

/-- The fault that ends a conversation, if one does. -/
def fault? : List Command → World Session → Option Fault
  | [], _ => none
  | c :: rest, w =>
    match answer c w with
    | .ok (_, w) => fault? rest w
    | .error e => some e

end Session

end ScriptSandbox
