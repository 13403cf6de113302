import ScriptSandbox.World.Basic

/-
  Host objects and texts about values.

  The operations of a host object by its kind: an error has a name and a message that can only be
  read, a bookmark has no properties and must not be called, and every other object is asked from
  the embedding. `debugText` renders a value for messages.
-/

namespace ScriptSandbox.World

variable {E : Type} [Embedding E]

/-! ## Texts -/

/-- The text of an error. -/
def errorText (name message : String) : String :=
  if message = "" then name else name ++ ": " ++ message

/-- Depth of nesting at which arrays are no longer shown. -/
def debugDepth : Nat := 3

/-- The text of a host object, given the text of script values. -/
def nativeText (w : World E) (valueText : Value → String) : Native → String
  | .error _ name message => errorText name message
  | .bookmark _ target => valueText target
  | .hosted id => Embedding.display w.embedding id

def errorPolicy : Policy :=
  { (Policy.undeclared : Policy) with properties := some ["name", "message"] }

/-- The policy that a host object declares. -/
def policy? (w : World E) : Native → Option Policy
  | .error _ _ _ => some errorPolicy
  | .bookmark _ _ => none
  | .hosted id => Embedding.policy w.embedding id

/-- The text of a script object. -/
def objectText (o : ScriptObject) : String :=
  match o.function with
  | some ⟨_, some name⟩ => "[Function: " ++ name ++ "]"
  | some ⟨_, none⟩ => "[Function]"
  | none => "[object Object]"

/-- The text of a value at a depth of nesting, following at most `fuel` handles in a row. -/
def debugAt (w : World E) : (fuel depth : Nat) → Value → String
  | _, _, .primitive p => p.text
  | _, _, .object id => objectText (w.object id)
  | 0, _, _ => "[...]"
  | fuel + 1, depth, .array id =>
    if debugDepth ≤ depth then "[...]"
    else
      "[" ++ ",".intercalate ((w.array id).elements.toList.map (debugAt w fuel (depth + 1))) ++ "]"
  | fuel + 1, _, .bridge id =>
    match w.bridgeNative? id with
    | some n => w.nativeText (debugAt w fuel 0) n
    | none => ""
  | fuel + 1, _, .link id =>
    match w.linkNative? id with
    | some n =>
      let names := ((w.policy? n).bind (·.readList?)).getD []
      "[SmartLink: " ++ w.nativeText (debugAt w fuel 0) n ++ ", props: " ++
        ",".intercalate names ++ "]"
    | none => ""

/-- Between two wrappers on a path of handles lie at most a few arrays, and no wrapper comes twice
    unless the path is a cycle. -/
def debugFuel (w : World E) : Nat := (debugDepth + 2) * (w.bridges.size + w.links.size + 1)

/-- A short text of a value for messages: nested arrays are cut, objects show only what they are,
    and a guarded host object shows only its readable names. -/
def debugText (w : World E) (v : Value) : String := w.debugAt w.debugFuel 0 v

/-- The text of a host object. -/
def display (w : World E) (n : Native) : String := w.nativeText w.debugText n

/-! ## Questions to a host object -/

def hasProperty (w : World E) (n : Native) (name : String) : Bool :=
  match n with
  | .error _ _ _ => name == "name" || name == "message"
  | .bookmark _ _ => false
  | .hosted id => Embedding.has w.embedding id name

def isNativeCallable (w : World E) : Native → Bool
  | .error _ _ _ => false
  | .bookmark _ _ => true
  | .hosted id => Embedding.callable w.embedding id

/-- Whether a value can be called. -/
def isCallable (w : World E) : Value → Bool
  | .object id => (w.object id).function.isSome
  | .bridge id => ((w.bridgeNative? id).map w.isNativeCallable).getD false
  | .link id => ((w.linkNative? id).map w.isNativeCallable).getD false
  | _ => false

/-- The kind of a value as scripts name it. -/
def typeName (w : World E) (v : Value) : String :=
  match v with
  | .undefined => "undefined"
  | .boolean _ => "boolean"
  | .number _ => "number"
  | .string _ => "string"
  | _ => if w.isCallable v then "function" else "object"

/-! ## Access to a host object -/

/-- Run a method of the embedding on its state. -/
def hosted {α : Type} (f : E → α × E) (w : World E) : α × World E :=
  let (a, e) := f w.embedding
  (a, { w with embedding := e })

def getProperty (n : Native) (name : String) (w : World E) :
    Except HostError HostValue × World E :=
  match n with
  | .error _ errorName message =>
    if name = "name" then (.ok (.string errorName), w)
    else if name = "message" then (.ok (.string message), w)
    else (.ok .undefined, w)
  | .bookmark _ _ => (.ok .undefined, w)
  | .hosted id => w.hosted (Embedding.get id name)

/-- An error answers with one of its texts or with nothing, and stays as it is. -/
theorem getProperty_error (serial : Nat) (errorName message name : String) :
    ∃ v : HostValue, (v = .undefined ∨ ∃ s, v = .string s) ∧
      ∀ w : World E, w.getProperty (.error serial errorName message) name = (.ok v, w) := by
  by_cases hname : name = "name"
  · exact ⟨.string errorName, .inr ⟨_, rfl⟩, fun w => by simp only [getProperty, if_pos hname]⟩
  · by_cases hmessage : name = "message"
    · refine ⟨.string message, .inr ⟨_, rfl⟩, fun w => ?_⟩
      simp only [getProperty, if_neg hname, if_pos hmessage]
    · refine ⟨.undefined, .inl rfl, fun w => ?_⟩
      simp only [getProperty, if_neg hname, if_neg hmessage]

def setProperty (n : Native) (name : String) (value : HostValue) (w : World E) :
    Except HostError Unit × World E :=
  match n with
  | .hosted id => w.hosted (Embedding.set id name value)
  | _ => (.error (.readOnly name), w)

def deleteProperty (n : Native) (name : String) (w : World E) : Except HostError Bool × World E :=
  match n with
  | .hosted id => w.hosted (Embedding.delete id name)
  | _ => (.ok false, w)

def callNative (n : Native) (receiver : HostValue) (args : List HostValue) (w : World E) :
    Except HostError HostValue × World E :=
  match n with
  | .error _ name message => (.error (.notCallable (errorText name message)), w)
  | .bookmark _ target => (.error (.bookmarkInvoked (w.debugText target)), w)
  | .hosted id => w.hosted (Embedding.call id receiver args)

/-- The primitive form that a host object declares. -/
def primitiveForm (n : Native) (w : World E) : Option HostValue × World E :=
  match n with
  | .hosted id => w.hosted (Embedding.primitive id)
  | _ => (none, w)

end ScriptSandbox.World
