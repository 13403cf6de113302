import ScriptSandbox.World.Wrapping
import ScriptSandbox.World.Crossing
import ScriptSandbox.World.Liveness
import ScriptSandbox.Step.Basic

/-
  Evaluations and their failures.

  An evaluation is a step over a world. Values that it goes on to use are held while something else
  runs, so that they stay alive. What goes wrong in it is thrown as a bridge over a new error of the
  realm at hand; all texts that a script can see in such an error are here.
-/

namespace ScriptSandbox

/-- A step over the world of an embedding. -/
abbrev Evaluation (E α : Type) := Step (World E) α

/-- Why an operation refuses. -/
inductive Failure where
  | protectedRead (name : String)
  | protectedWrite (name : String)
  | protectedDelete (name : String)
  /-- Member access on a value without members. -/
  | noMembers (name target : String)
  | notCallable (target : String)
  | notConstructor (target : String)
  | noPrimitive
deriving DecidableEq, Repr

/-- The text of a failure. -/
def Failure.message : Failure → String
  | protectedRead name => "Can't read protected property: " ++ name
  | protectedWrite name => "Can't write to protected property: " ++ name
  | protectedDelete name => "Can't delete protected property: " ++ name
  | noMembers name target => "Can't access member " ++ name ++ " of that type: " ++ target
  | notCallable target => target ++ " is not a function"
  | notConstructor target => target ++ " is not a constructor"
  | noPrimitive => "Cannot convert object to primitive value"

namespace World

variable {E : Type} [Embedding E]

/-- A thrown error of a realm. Its bridge may be one too many for the cache, which then keeps only
    what is alive. -/
def scriptError (realm : RealmId) (name message : String) (w : World E) : Completion × World E :=
  let (n, w) := (w.collect []).newError name message
  let (v, w) := w.bridge realm n
  (.thrown v, w)

/-- A thrown type error of a realm. -/
def typeError (realm : RealmId) (message : String) (w : World E) : Completion × World E :=
  w.scriptError realm "TypeError" message

/-- The completion for a failure that a host object reported. -/
def hostError (realm : RealmId) (e : HostError) (w : World E) : Completion × World E :=
  match e with
  | .thrown name message => w.scriptError realm name message
  | e => w.typeError realm e.message

end World

namespace Evaluation

variable {E α : Type}

/-- Hold things while an evaluation runs. -/
def holding (things : List Thing) (s : Evaluation E α) : Evaluation E α :=
  .modify (World.hold things) (s.releasing (World.letGo things))

/-- Hold things until an evaluation first waits for an answer. -/
def holdingAtFirst (things : List Thing) (s : Evaluation E α) : Evaluation E α :=
  .modify (World.hold things) (s.untilRequest (World.letGo things))

/-- End with a completion that is made on the spot. -/
def throwing (make : World E → Completion × World E) : Evaluation E α :=
  Step.andThen Step.throw (Step.compute make)

/-- Refuse. -/
def fail [Embedding E] (realm : RealmId) (f : Failure) : Evaluation E α :=
  throwing (World.typeError realm f.message)

/-- The host forms of values; a value without one ends the evaluation outright. -/
def toHost (v : Value) : Evaluation E HostValue :=
  (Step.compute (World.toHost v)).andThen fun
    | some h => .ready h
    | none => .fault .endlessArray

def toHostList (vs : List Value) : Evaluation E (List HostValue) :=
  (Step.compute (World.toHostList vs)).andThen fun
    | some hs => .ready hs
    | none => .fault .endlessArray

end Evaluation

end ScriptSandbox
