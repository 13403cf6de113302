/-
  Allow-lists.

  A host object may declare which of its properties a script may read and write. Reading is allowed
  for the names of every list, provided that properties or methods are declared at all; writing only
  for the user properties.
-/

namespace ScriptSandbox

/-- The lists that a host object declares. A list that is not declared differs from an empty one:
    without properties and methods nothing is readable. -/
structure Policy where
  properties : Option (List String)
  userProperties : Option (List String)
  methods : Option (List String)
  ownMethods : Option (List String)
  programmable : Option (List String)
deriving DecidableEq, Repr, Inhabited

namespace Policy

/-- A policy that declares nothing. -/
def undeclared : Policy := ⟨none, none, none, none, none⟩

/-- Every readable name in the order of declaration, or nothing when no reading is declared. -/
def readList? (p : Policy) : Option (List String) :=
  if p.properties.isNone && p.methods.isNone then none
  else
    some ([p.properties, p.userProperties, p.methods, p.ownMethods, p.programmable].flatMap
      fun list => list.getD [])

def writeList (p : Policy) : List String := p.userProperties.getD []

def allowsRead (p : Policy) (name : String) : Bool :=
  match p.readList? with
  | some names => names.contains name
  | none => false

def allowsWrite (p : Policy) (name : String) : Bool := p.writeList.contains name

end Policy

end ScriptSandbox
