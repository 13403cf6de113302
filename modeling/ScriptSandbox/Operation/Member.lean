import ScriptSandbox.Operation.HostAccess

/-
  Members and calls.

  Reading, writing and deleting a property of any value, and calling it. Objects look along their
  prototype chain; arrays have a length and elements; strings can be read by UTF-16 unit; wrappers
  go to the host. Everything else refuses.
-/

namespace ScriptSandbox

/-! ## Prototype chains -/

namespace World

variable {E : Type}

/-- The next object on a prototype chain. -/
def parent? (w : World E) (id : ObjectId) : Option ObjectId :=
  match (w.object id).prototype with
  | some (.object parent) => some parent
  | _ => none

/-- The chain of script objects from an object outward, with at most `steps` of them. -/
def chainWithin (w : World E) : (steps : Nat) → ObjectId → List ObjectId
  | 0, _ => []
  | steps + 1, id =>
    id ::
      match w.parent? id with
      | some parent => chainWithin w steps parent
      | none => []

/-- The chain of script objects from an object outward. A chain without repetition is no longer
    than the heap. -/
def chain (w : World E) (id : ObjectId) : List ObjectId := w.chainWithin w.objects.size id

/-- The value of a property on an object or along its chain. -/
def lookup? (w : World E) (id : ObjectId) (name : String) : Option Value :=
  (w.chain id).findSome? fun o => (w.object o).properties.find? name

/-- Point an object at a new prototype. Refused when the object is on the chain of the new
    prototype already. -/
def setPrototype (id : ObjectId) (prototype : Option Value) (w : World E) : Bool × World E :=
  let accept := (true, w.modifyObject id fun o => { o with prototype := prototype })
  match prototype with
  | some (.object parent) => if (w.chain parent).contains id then (false, w) else accept
  | _ => accept

/-- Either the object gets the prototype or nothing happens. -/
theorem setPrototype_eq (id : ObjectId) (prototype : Option Value) (w : World E) :
    (w.setPrototype id prototype).2 = w ∨
      (w.setPrototype id prototype).2 =
        w.modifyObject id fun o => { o with prototype := prototype } := by
  unfold setPrototype
  split
  · split
    · exact .inl rfl
    · exact .inr rfl
  · exact .inr rfl

end World

/-! ## Arrays -/

/-- The number that a property name denotes as an index: a decimal numeral without leading zeros,
    below `2 ^ 64`. -/
def arrayIndex? (name : String) : Option Nat :=
  let cs := name.toList
  if cs.isEmpty || !cs.all Char.isDigit then none
  else if cs.length > 1 && cs.head? = some '0' then none
  else
    let n := Number.natOfDigits cs
    if n < Nat.pow 2 64 then some n else none

namespace ScriptArray

/-- Writes beyond this length are ignored. -/
def maxLength : Nat := Nat.pow 2 24

/-- A number as a length: a non-negative integer up to `maxLength`. -/
def exactLength? (n : Binary64) : Option Nat :=
  if !n.isFinite then none
  else
    let t := n.truncate
    if (Binary64.ofInt t).eqv n && 0 ≤ t && t ≤ maxLength then some t.toNat else none

/-- The elements cut or filled with `undefined` to a length. -/
def resize (elements : Array Value) (length : Nat) : Array Value :=
  if length ≤ elements.size then elements.take length
  else elements ++ Array.replicate (length - elements.size) Value.undefined

def member (a : ScriptArray) (name : String) : Value :=
  if name = "length" then .number (.ofNat a.elements.size)
  else
    match arrayIndex? name with
    | some i => a.elements[i]?.getD .undefined
    | none => .undefined

def put (name : String) (value : Value) (a : ScriptArray) : ScriptArray :=
  if name = "length" then
    match value.asNumber?.bind exactLength? with
    | some length => { a with elements := resize a.elements length }
    | none => a
  else
    match arrayIndex? name with
    | some i =>
      if i < maxLength then
        let elements :=
          if a.elements.size ≤ i then resize a.elements (i + 1) else a.elements
        { a with elements := elements.set! i value }
      else a
    | none => a

/-- Deleting an element leaves `undefined` in its place. -/
def delete (name : String) (a : ScriptArray) : ScriptArray :=
  match arrayIndex? name with
  | some i =>
    if i < a.elements.size then { a with elements := a.elements.set! i .undefined } else a
  | none => a

end ScriptArray

/-! ## Strings -/

namespace Text

/-- The UTF-16 units of a character, each as the character that it reads as alone: a half of a pair
    reads as the replacement character. -/
def unitsOf (c : Char) : List Char :=
  if c.toNat < 0x10000 then [c] else ['\uFFFD', '\uFFFD']

/-- The UTF-16 units of a string. -/
def units (s : String) : List Char := s.toList.flatMap unitsOf

/-- The property of a string: its length, or the text of one unit. -/
def member? (s : String) (name : String) : Option (Nat ⊕ Char) :=
  if name = "length" then some (.inl (units s).length)
  else
    match arrayIndex? name with
    | some i => (units s)[i]?.map .inr
    | none => none

end Text

/-! ## Members of values -/

namespace Value

open Evaluation

variable {E : Type} [Embedding E]

/-- Refuse access to a member of a value without members. -/
def noMembers {α : Type} (v : Value) (name : String) (realm : RealmId) : Evaluation E α := do
  let text ← Step.read (·.debugText v)
  fail realm (.noMembers name text)

/-- Read a property. -/
def member (v : Value) (name : String) (realm : RealmId) : Evaluation E Value :=
  match v with
  | .object id => Step.read fun w => (w.lookup? id name).getD .undefined
  | .array id => Step.read fun w => (w.array id).member name
  | .string s =>
    match Text.member? s.content name with
    | some (.inl length) => .ready (.number (.ofNat length))
    | some (.inr c) => Step.compute (World.newString (String.singleton c))
    | none => .ready .undefined
  | .bridge id => .inspect fun w =>
    match w.bridges[id]? with
    | some b => b.member name
    | none => .ready .undefined
  | .link id => .inspect fun w =>
    match w.links[id]? with
    | some l => l.member name
    | none => .ready .undefined
  | v => v.noMembers name realm

/-- Write a property. -/
def put (v : Value) (name : String) (value : Value) (realm : RealmId) : Evaluation E Unit :=
  match v with
  | .object id => Step.write (World.modifyObject id fun o =>
      { o with properties := o.properties.insert name value })
  | .array id => Step.write (World.modifyArray id (ScriptArray.put name value))
  | .bridge id => .inspect fun w =>
    match w.bridges[id]? with
    | some b => b.put name value
    | none => .ready ()
  | .link id => .inspect fun w =>
    match w.links[id]? with
    | some l => l.put id name value
    | none => .ready ()
  | v => v.noMembers name realm

/-- Delete a property; the result tells whether it is gone. -/
def delete (v : Value) (name : String) (realm : RealmId) : Evaluation E Bool :=
  match v with
  | .object id => .modify
      (World.modifyObject id fun o => { o with properties := o.properties.erase name })
      (.ready true)
  | .array id => .modify (World.modifyArray id (ScriptArray.delete name)) (.ready (name ≠ "length"))
  | .bridge id => .inspect fun w =>
    match w.bridges[id]? with
    | some b => b.delete name
    | none => .ready true
  | .link id => .inspect fun w =>
    match w.links[id]? with
    | some l => l.delete id name
    | none => .ready true
  | v => v.noMembers name realm

/-- Call a value. A script function is a request; a host function is called through its wrapper. -/
def call (v receiver : Value) (args : List Value) (realm : RealmId) : Evaluation E Value :=
  let refuse : Evaluation E Value := do
    let text ← Step.read (·.debugText v)
    fail realm (.notCallable text)
  match v with
  | .object id => .inspect fun w =>
    if (w.object id).function.isSome then Step.request (.call v receiver args) else refuse
  | .bridge id => .inspect fun w =>
    match w.bridges[id]? with
    | some b => b.call receiver args
    | none => refuse
  | .link id => .inspect fun w =>
    match w.links[id]? with
    | some l => l.call receiver args
    | none => refuse
  | _ => refuse

/-- The receiver for a construction: a new object that inherits from the `prototype` of a script
    function when that is an object, and a plain one for a host function. -/
def makeThisForNew (v : Value) (realm : RealmId) : Evaluation E Value :=
  let refuse : Evaluation E Value := do
    let text ← Step.read (·.debugText v)
    fail realm (.notConstructor text)
  match v with
  | .object id => .inspect fun w =>
    if (w.object id).function.isSome then
      let prototype := (w.lookup? id "prototype").filter fun p => !p.isPrimitive
      Step.compute (World.newObject { (default : ScriptObject) with prototype := prototype })
    else refuse
  | .bridge _ | .link _ => .inspect fun w =>
    if w.isCallable v then Step.compute (World.newObject default) else refuse
  | _ => refuse

end Value

end ScriptSandbox
