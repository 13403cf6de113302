import ScriptSandbox.Guard.Policy
import ScriptSandbox.Value.Basic

/-
  The host side of the boundary.

  Host values are trees of host primitives, arrays and host objects. A host object is made by the
  runtime, as an error or as a bookmark that stands for a script value, or it belongs to the
  embedding. What the embedding's objects do is given by the class `Embedding`, whose state every
  call may change. An embedding also says what it keeps alive, as far as that can be observed.
-/

namespace ScriptSandbox

/-- The number of a host object of the embedding. -/
abbrev HostId := Nat

/-- A host object. Those that the runtime makes carry a serial number, so that two of them are
    different objects even with equal contents. -/
inductive Native where
  /-- An error with a name and a message. -/
  | error (serial : Nat) (name message : String)
  /-- The stand-in for a script value on the host side. -/
  | bookmark (serial : Nat) (target : Value)
  /-- An object of the embedding. -/
  | hosted (id : HostId)
deriving DecidableEq, Repr

/-- The identity of a host object. -/
inductive NativeKey where
  | made (serial : Nat)
  | hosted (id : HostId)
deriving DecidableEq, Repr

def Native.key : Native → NativeKey
  | .error serial _ _ => .made serial
  | .bookmark serial _ => .made serial
  | .hosted id => .hosted id

/-- The script value that a bookmark stands for. -/
def Native.bookmarked? : Native → Option Value
  | .bookmark _ target => some target
  | _ => none

/-- A value as the host sees it. -/
inductive HostValue where
  | undefined
  | null
  | boolean (b : Bool)
  | number (n : Binary64)
  | string (s : String)
  | array (items : List HostValue)
  | object (n : Native)
deriving Repr, Inhabited

mutual

/-- The host objects in a host value. -/
def HostValue.natives : HostValue → List Native
  | .object n => [n]
  | .array items => nativesOfAll items
  | _ => []

def HostValue.nativesOfAll : List HostValue → List Native
  | [] => []
  | h :: rest => h.natives ++ nativesOfAll rest

end

/-- A thing that can hold others, or be held. -/
inductive Thing where
  | value (v : Value)
  | native (n : Native)
deriving DecidableEq, Repr

/-- The things among values: primitives hold nothing. -/
def Thing.ofValues (vs : List Value) : List Thing :=
  (vs.filter fun v => !v.isPrimitive).map .value

/-- The things in a host value. -/
def HostValue.things (h : HostValue) : List Thing := h.natives.map .native

/-- A failure reported by a host object. -/
inductive HostError where
  | readOnly (name : String)
  | notCallable (display : String)
  | bookmarkInvoked (display : String)
  /-- An error that the host raises under a name of its own. -/
  | thrown (name message : String)
deriving DecidableEq, Repr

def HostError.message : HostError → String
  | .readOnly name => "property " ++ name ++ " is read-only"
  | .notCallable display => display ++ " is not a function"
  | .bookmarkInvoked display => "Attempted to invoke bookmark for " ++ display
  | .thrown name message => name ++ ": " ++ message

/-- A mistake of the embedding: a host object was to enter a script without a realm. -/
structure MissingRealm where
  display : String
deriving DecidableEq, Repr

def MissingRealm.message (f : MissingRealm) : String :=
  "bridging " ++ f.display ++ " requires a realm, but none was supplied"

/-- What the objects of an embedding with state `E` do. Only the display, the look-up of a property
    and its value are required; an object that does not say otherwise is read-only, keeps its
    properties when asked to delete them, cannot be called, declares no policy and has no primitive
    form. An embedding that does not say otherwise holds nothing. -/
class Embedding (E : Type) where
  display : E → HostId → String
  has : E → HostId → String → Bool
  get : HostId → String → E → Except HostError HostValue × E
  set : HostId → String → HostValue → E → Except HostError Unit × E :=
    fun _ name _ e => (.error (.readOnly name), e)
  delete : HostId → String → E → Except HostError Bool × E := fun _ _ e => (.ok false, e)
  callable : E → HostId → Bool := fun _ _ => false
  call : HostId → (receiver : HostValue) → (args : List HostValue) → E →
      Except HostError HostValue × E :=
    fun id _ _ e => (.error (.notCallable (display e id)), e)
  policy : E → HostId → Option Policy := fun _ _ => none
  primitive : HostId → E → Option HostValue × E := fun _ e => (none, e)
  /-- What the embedding itself holds. -/
  roots : E → List Thing := fun _ => []
  /-- What the embedding's objects hold, by their numbers. -/
  contents : E → Array (List HostValue) := fun _ => #[]

end ScriptSandbox
