import ScriptSandbox.Operation.Failure

/-
  Access to host objects.

  Every access to the host comes right behind a checkpoint of its own. A bridge passes everything
  through. A link asks the policy of its host object first: a property that exists can be read when
  it is on the read list and written or deleted when it is on the write list; a property that the
  script created through the link is accessible too where the realm tracks those. Reading what
  does not exist gives `undefined`, and writing it creates it. The host object is held until the
  access is over.
-/

namespace ScriptSandbox

variable {E α : Type} [Embedding E]

/-- How a host value enters the script. -/
abbrev Wrapper (E : Type) := RealmId → HostValue → World E → Value × World E

namespace Evaluation

/-- The result of a host method: a failure is thrown in the realm. -/
def hostResult (realm : RealmId)
    (method : World E → Except HostError α × World E) : Evaluation E α :=
  (Step.compute method).andThen fun
    | .ok a => .ready a
    | .error e => throwing (World.hostError realm e)

/-- Bring a host value into the script. Its host objects may have wrappers already, so it matters
    which wrappers are alive. -/
def enter (wrap : Wrapper E) (realm : RealmId) (h : HostValue) : Evaluation E Value := do
  Step.write (World.collect h.things)
  Step.compute (wrap realm h)

/-- Read a property of a host object. -/
def hostGet (wrap : Wrapper E) (realm : RealmId) (n : Native) (name : String) :
    Evaluation E Value := do
  Step.checkpoint
  holding [.native n] do
    let h ← hostResult realm (World.getProperty n name)
    enter wrap realm h

/-- Write a property of a host object. -/
def hostSet (realm : RealmId) (n : Native) (name : String) (value : HostValue) :
    Evaluation E Unit := do
  Step.checkpoint
  holding [.native n] (hostResult realm (World.setProperty n name value))

/-- Delete a property of a host object. -/
def hostDelete (realm : RealmId) (n : Native) (name : String) : Evaluation E Bool := do
  Step.checkpoint
  holding [.native n] (hostResult realm (World.deleteProperty n name))

/-- Call a host object. The receiver and the arguments cross before the checkpoint. -/
def hostCall (wrap : Wrapper E) (realm : RealmId) (n : Native) (receiver : Value)
    (args : List Value) : Evaluation E Value := do
  if ← Step.read (·.isNativeCallable n) then
    let receiver ← toHost receiver
    let args ← toHostList args
    Step.checkpoint
    holding [.native n] do
      let h ← hostResult realm (World.callNative n receiver args)
      enter wrap realm h
  else
    let text ← Step.read (·.display n)
    fail realm (.notCallable text)

/-- The primitive form of a host object. -/
def hostToPrimitive (n : Native) : Evaluation E Primitive := do
  Step.checkpoint
  Step.compute (World.hostPrimitive n)

end Evaluation

/-! ## Bridges -/

namespace Bridge

open Evaluation

def member (b : Bridge) (name : String) : Evaluation E Value := do
  if ← Step.read (·.hasProperty b.native name) then
    hostGet World.fromHost b.realm b.native name
  else
    return .undefined

def put (b : Bridge) (name : String) (value : Value) : Evaluation E Unit := do
  let value ← toHost value
  hostSet b.realm b.native name value

def delete (b : Bridge) (name : String) : Evaluation E Bool :=
  hostDelete b.realm b.native name

def call (b : Bridge) (receiver : Value) (args : List Value) : Evaluation E Value :=
  hostCall World.fromHost b.realm b.native receiver args

end Bridge

/-! ## Links -/

namespace World

/-- Whether a property of the link's host object is tracked as created by the script. -/
def createdByScript (w : World E) (l : Link) (name : String) : Bool :=
  (w.realm l.realm).newProperties = .trackCreated && l.created.contains name

/-- Whether a script may read an existing property through a link. -/
def allowsRead (w : World E) (l : Link) (name : String) : Bool :=
  ((w.policy? l.native).map (·.allowsRead name)).getD false || w.createdByScript l name

/-- Whether a script may write or delete an existing property through a link. -/
def allowsWrite (w : World E) (l : Link) (name : String) : Bool :=
  ((w.policy? l.native).map (·.allowsWrite name)).getD false || w.createdByScript l name

/-- Remember that a property was created through a link. -/
def addCreated (id : LinkId) (name : String) (w : World E) : World E :=
  w.modifyLink id fun l => { l with created := l.created.insert name }

def removeCreated (id : LinkId) (name : String) (w : World E) : World E :=
  w.modifyLink id fun l => { l with created := l.created.erase name }

end World

namespace Link

open Evaluation

def member (l : Link) (name : String) : Evaluation E Value := do
  if !(← Step.read (·.hasProperty l.native name)) then
    return .undefined
  else if !(← Step.read (·.allowsRead l name)) then
    fail l.realm (.protectedRead name)
  else
    hostGet World.link l.realm l.native name

/-- Write a property through the link `id`. Whether the write creates the property is decided
    before the checkpoint; the property is remembered once the host has accepted the write. -/
def put (id : LinkId) (l : Link) (name : String) (value : Value) : Evaluation E Unit := do
  let creates := !(← Step.read (·.hasProperty l.native name))
  if !creates && !(← Step.read (·.allowsWrite l name)) then
    fail l.realm (.protectedWrite name)
  else
    let value ← toHost value
    let tracks ← Step.read fun w => (w.realm l.realm).newProperties == .trackCreated
    hostSet l.realm l.native name value
    if creates && tracks then
      Step.write (World.addCreated id name)

/-- Delete a property through the link `id`; a property that the host deleted is forgotten. -/
def delete (id : LinkId) (l : Link) (name : String) : Evaluation E Bool := do
  if !(← Step.read (·.hasProperty l.native name)) then
    return true
  else if !(← Step.read (·.allowsWrite l name)) then
    fail l.realm (.protectedDelete name)
  else
    let deleted ← hostDelete l.realm l.native name
    if deleted then
      Step.write (World.removeCreated id name)
    return deleted

def call (l : Link) (receiver : Value) (args : List Value) : Evaluation E Value :=
  hostCall World.link l.realm l.native receiver args

end Link

end ScriptSandbox
