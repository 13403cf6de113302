import ScriptSandbox.Session.Making
import ScriptSandbox.Session.Rendering
import ScriptSandbox.Step.Driver

/-
  Operations and behaviours as steps.

  `Operation.step` makes the operands, from the left, and applies the operation. `Behaviour.step`
  follows a behaviour inside the frame of its call. `Session.respond` answers requests: it notes a
  request on arrival, resumes from a checkpoint at once, and runs the behaviour of a script
  function. A call holds its function and its frame up to the first request that it makes itself;
  from there on a frame is held where the rest of the behaviour needs it.
-/

namespace ScriptSandbox

/-- The result of an operation. -/
inductive Result where
  | value (v : Value)
  | flag (b : Bool)
  | integer (n : Int)
  | number (n : Binary64)
  | text (s : String)
  | done
deriving DecidableEq

/-- A result as a value. -/
def Result.toValue : Result → World Session → Value × World Session
  | .value v, w => (v, w)
  | .flag b, w => (.boolean b, w)
  | .integer n, w => (.number (.ofInt n), w)
  | .number n, w => (.number n, w)
  | .text s, w => w.newString s
  | .done, w => (.undefined, w)

/-- The realm of what behaviours throw. -/
def mainRealm : String := "main"

namespace World

/-- Note a request. -/
def arrive (request : Request) (w : World Session) : World Session :=
  w.modifyRun fun r => { r with trace := w.requestView request :: r.trace }

/-- The behaviour for this call of a function. -/
def takeBehaviour (callee : Value) (w : World Session) : Behaviour × World Session :=
  let function? : Option FunctionData :=
    match callee with
    | .object id => (w.object id).function
    | _ => none
  match function? with
  | some f =>
    (w.embedding.nextBehaviour f.node,
      w.modifyEmbedding fun s => { s with called := f.node :: s.called })
  | none => (default, w)

end World

/-- Yield a number of times. -/
def Evaluation.checkpoints : Nat → Evaluation Session Unit
  | 0 => .ready ()
  | count + 1 => Step.checkpoint.andThen fun _ => checkpoints count

def UnaryOperation.step {E : Type} [Embedding E] (realm : RealmId) (v : Value) :
    UnaryOperation → Evaluation E Result
  | .toNumber => return .number (← v.toNumber realm)
  | .toNumberValue => return .number (← v.toNumber realm)
  | .toText => return .text (← v.toText realm)
  | .toBoolean => return .flag v.truthy
  | .toInt32 => return .integer (← v.toInt32 realm).toInt
  | .toUInt32 => return .integer (← v.toUInt32 realm).toNat
  | .toInteger => return .number (← v.toInteger realm)
  | .negate => return .value (← v.negate realm)
  | .unaryPlus => return .value (← v.unaryPlus realm)
  | .bitNot => return .value (← v.bitNot realm)
  | .not => return .value (← v.not)
  | .typeOf => return .value (← v.typeOf)
  | .makeThisForNew => return .value (← v.makeThisForNew realm)

def BinaryOperation.step {E : Type} [Embedding E] (realm : RealmId) (a b : Value) :
    BinaryOperation → Evaluation E Result
  | .numeric op => return .value (← a.binary op b realm)
  | .add => return .value (← a.add b realm)
  | .strictEq => return .flag (a.strictEq b)
  | .strictNe => return .flag !(a.strictEq b)
  | .looseEq => return .flag (← a.looseEq b realm)
  | .looseNe => return .flag (← a.looseNe b realm)

/-- The reference under a handle. -/
def Session.reference (s : Session) (handle : String) : Reference :=
  (s.handles.find? handle).getD ⟨.undefined, "", .allowed⟩

open Evaluation

mutual

/-- An operation on what its operands describe in a frame. -/
def Operation.step (f : Frame) (realm : RealmId) : Operation → Evaluation Session Result
  | .member base name => do
    let base ← (base.make f).step
    return .value (← base.member name realm)
  | .put base name value => do
    let base ← (base.make f).step
    let value ← (value.make f).step
    base.put name value realm
    return .done
  | .delete base name => do
    let base ← (base.make f).step
    return .flag (← base.delete name realm)
  | .call callee self args => do
    let callee ← (callee.make f).step
    let self ← (self.make f).step
    let args ← (Literal.makeAll f args).step
    return .value (← callee.call self args realm)
  | .getReference handle => do
    let r ← Step.read (·.embedding.reference handle)
    return .value (← r.get realm)
  | .setReference handle value => do
    let r ← Step.read (·.embedding.reference handle)
    let value ← (value.make f).step
    r.set value realm
    return .done
  | .deleteReference handle => do
    let r ← Step.read (·.embedding.reference handle)
    return .flag (← r.delete realm)
  | .toPrimitive v hint => do
    let v ← (v.make f).step
    return .value (.primitive (← v.toPrimitive hint realm))
  | .unary op v => do
    let v ← (v.make f).step
    op.step realm v
  | .binary op a b => do
    let a ← (a.make f).step
    let b ← (b.make f).step
    op.step realm a b
  | .checkpoints count => do
    Evaluation.checkpoints count
    return .integer count
  | .behave body => do
    return .value (← body.step .outer)

/-- A behaviour in the frame of its call. What follows a part of a behaviour needs the frame, so the
    frame is held until then; a handler runs on the thrown value with the arguments of the call, so
    of its frame only the arguments are held. -/
def Behaviour.step (f : Frame) : Behaviour → Evaluation Session Value
  | .returns v => (v.make f).step
  | .completes c => do
    let realm ← Step.read (·.realmNamed mainRealm)
    Step.throw (← (c.make f realm).step)
  | .performs realm op => do
    let realm ← Step.read (·.realmNamed realm)
    let result ← op.step f realm
    Step.compute result.toValue
  | .yields rest => do
    Step.checkpoint
    holdingAtFirst f.things (rest.step f)
  | .sequence first second => do
    let v ← holding f.things (first.step f)
    holdingAtFirst (.value v :: f.things) (second.step f)
  | .recovers body handler =>
    (holding (Thing.ofValues f.args) (body.step f)).onFlow fun
      | .ok v => .ready v
      | .error c =>
        let g : Frame := ⟨c.value, f.args⟩
        holdingAtFirst g.things (handler.step g)

end

/-- The answer to a request. -/
def Session.respond : Handler (World Session) := fun request => do
  Step.write (World.arrive request)
  match request with
  | .checkpoint => return .undefined
  | .call callee receiver args =>
    let f : Frame := ⟨receiver, args⟩
    let behaviour ← Step.compute (World.takeBehaviour callee)
    holdingAtFirst (.value callee :: f.things) (behaviour.step f)

end ScriptSandbox
