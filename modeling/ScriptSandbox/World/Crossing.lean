import ScriptSandbox.World.Wrapping

/-
  Script values leaving for the host.

  A wrapper leaves as its host object, a script object as a new bookmark, an array element by
  element. An array that contains itself has no form as a host value. Nested arrays on a path
  without repetition are at most as many as there are arrays, so that number bounds the depth.
-/

namespace ScriptSandbox.World

variable {E : Type}

/-- Convert a list from the left, giving up at the first value without a form. -/
def toHostAll (convert : Value → World E → Option HostValue × World E) :
    List Value → World E → Option (List HostValue) × World E
  | [], w => (some [], w)
  | v :: rest, w =>
    match convert v w with
    | (none, w) => (none, w)
    | (some h, w) =>
      match toHostAll convert rest w with
      | (none, w) => (none, w)
      | (some hs, w) => (some (h :: hs), w)

/-- The host object behind a wrapper as a host value. -/
def nativeValue (n? : Option Native) : HostValue := (n?.map .object).getD .undefined

/-- The host form of a value with at most `depth` arrays inside each other. -/
def toHostWithin : (depth : Nat) → Value → World E → Option HostValue × World E
  | _, .undefined, w => (some .undefined, w)
  | _, .null, w => (some .null, w)
  | _, .boolean b, w => (some (.boolean b), w)
  | _, .number n, w => (some (.number n), w)
  | _, .string s, w => (some (.string s.content), w)
  | _, .bridge id, w => (some (nativeValue (w.bridgeNative? id)), w)
  | _, .link id, w => (some (nativeValue (w.linkNative? id)), w)
  | _, .object id, w =>
    let (n, w) := w.newBookmark (.object id)
    (some (.object n), w)
  | 0, .array _, w => (none, w)
  | depth + 1, .array id, w =>
    match toHostAll (toHostWithin depth) (w.array id).elements.toList w with
    | (none, w) => (none, w)
    | (some items, w) => (some (.array items), w)

/-- The host form of a value, if it has one. -/
def toHost (v : Value) (w : World E) : Option HostValue × World E :=
  toHostWithin w.arrays.size v w

/-- The host forms of several values. -/
def toHostList (vs : List Value) (w : World E) : Option (List HostValue) × World E :=
  toHostAll toHost vs w

end ScriptSandbox.World
