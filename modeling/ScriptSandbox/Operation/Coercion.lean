import ScriptSandbox.Number.Word
import ScriptSandbox.Operation.Member

/-
  Coercions.

  A primitive converts at once. A script object is asked through its conversion methods, found on
  itself or its chain, in the order that the hint gives; a missing `toString` is built in, and for
  an array it joins the elements. A wrapper asks its host object behind a checkpoint. So every
  conversion ends in a primitive or not at all.
-/

namespace ScriptSandbox

/-- What a conversion to a primitive is for. -/
inductive Hint where
  | default
  | number
  | string
deriving DecidableEq, Repr

/-- The conversion methods of objects. -/
inductive ConversionMethod where
  | valueOf
  | toString
deriving DecidableEq, Repr

namespace ConversionMethod

/-- The property that holds the method. -/
def property : ConversionMethod → String
  | valueOf => "valueOf"
  | toString => "toString"

end ConversionMethod

/-- The order in which the methods are tried. -/
def Hint.methods : Hint → List ConversionMethod
  | .string => [.toString, .valueOf]
  | _ => [.valueOf, .toString]

namespace World

variable {E : Type} [Embedding E]

/-- The callable conversion method of a script object. -/
def conversionMethod? (w : World E) (v : Value) (m : ConversionMethod) : Option Value :=
  match v with
  | .object id => (w.lookup? id m.property).filter w.isCallable
  | _ => none

/-- Mark or unmark an array as being joined. -/
def markJoining (id : ArrayId) (joining : Bool) (w : World E) : World E :=
  w.modifyArray id fun a => { a with joining := joining }

end World

namespace Evaluation

variable {E : Type} [Embedding E]

/-! ## Joining -/

/-- The texts of the elements of an array; `undefined` and `null` read as nothing. `done` holds the
    texts so far in reverse. The elements to come are held, whatever happens to the array. -/
def elementTexts (toText : Value → Evaluation E String) :
    List Value → (done : List String) → Evaluation E (List String)
  | [], done => .ready done.reverse
  | .primitive p :: rest, done =>
    elementTexts toText rest ((if p.isNullish then "" else p.text) :: done)
  | v :: rest, done =>
    (holding (Thing.ofValues rest) (toText v)).andThen fun s =>
      elementTexts toText rest (s :: done)

/-- The texts of the elements of an array with commas between them. An array that is being joined
    already reads as nothing. The mark is taken back when the join ends or is abandoned; until then
    the array is held. -/
def join (toText : Value → Evaluation E String) (id : ArrayId) : Evaluation E Primitive :=
  .inspect fun w =>
    let a := w.array id
    if a.joining then .ready (.string .empty)
    else
      .modify (World.markJoining id true) <|
        Step.releasing (World.markJoining id false) do
          let texts ←
            holding [.value (.array id)] (elementTexts toText a.elements.toList [])
          let t ← Step.compute (World.newText (",".intercalate texts))
          return .string t

/-! ## Conversion to a primitive -/

/-- The built-in text of an object. -/
def intrinsicText (joinArray : ArrayId → Evaluation E Primitive) (v : Value) :
    Evaluation E Primitive :=
  match v with
  | .array id => joinArray id
  | v => .inspect fun w =>
    (Step.compute (World.newText
      (if w.isCallable v then "function () \x7b [code] \x7d" else "[object Object]"))).andThen
      fun t => .ready (.string t)

/-- Convert an object by the given methods in turn. A method that returns an object is passed over,
    and so is a missing `valueOf`. The object is held while a method runs. -/
def convertBy (joinArray : ArrayId → Evaluation E Primitive) (realm : RealmId) (v : Value) :
    List ConversionMethod → Evaluation E Primitive
  | [] => fail realm .noPrimitive
  | m :: rest => .inspect fun w =>
    match w.conversionMethod? v m with
    | some method =>
      (holding [.value v] (method.call v [] realm)).andThen fun
        | .primitive p => .ready p
        | result => holdingAtFirst [.value v, .value result] (convertBy joinArray realm v rest)
    | none =>
      match m with
      | .toString => intrinsicText joinArray v
      | .valueOf => convertBy joinArray realm v rest

/-- Convert a value to a primitive, given how to join an array. -/
def toPrimitiveBy (joinArray : ArrayId → Evaluation E Primitive) (realm : RealmId) (hint : Hint)
    (v : Value) : Evaluation E Primitive :=
  match v with
  | .primitive p => .ready p
  | .object _ | .array _ => convertBy joinArray realm v hint.methods
  | .bridge _ | .link _ => .inspect fun w =>
    match w.native? v with
    | some n => hostToPrimitive n
    | none => .ready .undefined

/-- Join an array whose arrays nest at most `depth` deep. -/
def joinWithin (realm : RealmId) : (depth : Nat) → ArrayId → Evaluation E Primitive
  | 0, _ => .fault .endlessJoin
  | depth + 1, id =>
    join (fun v => (toPrimitiveBy (joinWithin realm depth) realm .string v).andThen fun p =>
      .ready p.text) id

/-- Arrays that scripts may make while an array is being joined. -/
def arrayReserve : Nat := Nat.pow 2 64

end Evaluation

namespace Value

open Evaluation

variable {E : Type} [Embedding E]

/-- Convert to a primitive. Every array joined inside another one carries a mark of its own, so the
    joins nest no deeper than there are arrays. -/
def toPrimitive (v : Value) (hint : Hint) (realm : RealmId) : Evaluation E Primitive :=
  .inspect fun w => toPrimitiveBy (joinWithin realm (w.arrays.size + arrayReserve)) realm hint v

/-- The numeric value. -/
def toNumber (v : Value) (realm : RealmId) : Evaluation E Binary64 :=
  (v.toPrimitive .number realm).andThen fun p => Step.orFault p.toNumber

/-- The string form. -/
def toText (v : Value) (realm : RealmId) : Evaluation E String :=
  (v.toPrimitive .string realm).andThen fun p => .ready p.text

def toInt32 (v : Value) (realm : RealmId) : Evaluation E Int32 :=
  (v.toNumber realm).andThen fun n => .ready n.toInt32

def toUInt32 (v : Value) (realm : RealmId) : Evaluation E UInt32 :=
  (v.toNumber realm).andThen fun n => .ready n.toUInt32

def toInteger (v : Value) (realm : RealmId) : Evaluation E Binary64 :=
  (v.toNumber realm).andThen fun n => .ready n.toInteger

end Value

end ScriptSandbox
