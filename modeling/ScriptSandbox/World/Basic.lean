import ScriptSandbox.Table
import ScriptSandbox.World.Cache

/-
  The world of a script.

  The heap holds objects, arrays and the wrappers of host objects; realms register wrappers and
  well-known values; the embedding has a state of its own. Nothing is ever removed from the heap. A
  wrapper that nothing holds any more is marked as dead, which is final. Besides what the heap and
  the embedding hold, the world knows what the running computation holds.
-/

namespace ScriptSandbox

/-- What makes an object a function: the syntax node of its body, and its name. -/
structure FunctionData where
  node : Nat
  name : Option String
deriving DecidableEq, Repr

/-- A script object. Only script objects take part in a prototype chain. -/
structure ScriptObject where
  properties : Table Value
  prototype : Option Value
  function : Option FunctionData
deriving Repr

instance : Inhabited ScriptObject := ⟨⟨∅, none, none⟩⟩

/-- A dense array. It is marked while it is being joined, so that a cycle is cut. -/
structure ScriptArray where
  elements : Array Value
  joining : Bool
deriving Repr, Inhabited

/-- An unrestricted wrapper of a host object. -/
structure Bridge where
  realm : RealmId
  native : Native
  live : Bool
deriving Repr

/-- A guarded wrapper of a host object, with the names of the properties that scripts created
    through it. -/
structure Link where
  realm : RealmId
  native : Native
  created : NameSet
  live : Bool
deriving Repr

/-- What happens to properties that a script creates on a guarded host object. -/
inductive NewProperties where
  /-- They are subject to the allow-lists like any other. -/
  | allow
  /-- The script keeps access to them. -/
  | trackCreated
deriving DecidableEq, Repr, Inhabited

/-- A realm: how it treats new properties, the canonical values of some host objects, and the
    wrappers it made. -/
structure Realm where
  newProperties : NewProperties
  wellKnown : List (NativeKey × Value)
  bridges : IdentityCache
  links : IdentityCache
deriving Repr, Inhabited

/-- A realm that has made no wrappers. -/
def Realm.fresh (newProperties : NewProperties) : Realm := ⟨newProperties, [], .empty, .empty⟩

structure World (E : Type) where
  objects : Array ScriptObject
  arrays : Array ScriptArray
  bridges : Array Bridge
  links : Array Link
  realms : Array Realm
  /-- The next free number of a string. -/
  nextText : Nat
  /-- The next free number of a host object made by the runtime. -/
  nextNative : Nat
  /-- What the running computation holds, each thing as often as it is held. -/
  held : List Thing
  /-- Host objects with well-known values that nothing holds any more. -/
  lostNatives : List NativeKey
  embedding : E

namespace World

variable {E : Type}

/-- A world with an empty heap and no realms. -/
def empty (e : E) : World E := ⟨#[], #[], #[], #[], #[], 1, 0, [], [], e⟩

/-! ## Looking things up -/

def object (w : World E) (id : ObjectId) : ScriptObject := w.objects[id]?.getD default

def array (w : World E) (id : ArrayId) : ScriptArray := w.arrays[id]?.getD default

def realm (w : World E) (id : RealmId) : Realm := w.realms[id]?.getD default

def bridgeNative? (w : World E) (id : BridgeId) : Option Native := w.bridges[id]?.map (·.native)

def linkNative? (w : World E) (id : LinkId) : Option Native := w.links[id]?.map (·.native)

/-- The host object behind a wrapper. -/
def native? (w : World E) : Value → Option Native
  | .bridge id => w.bridgeNative? id
  | .link id => w.linkNative? id
  | _ => none

def bridgeLive (w : World E) (id : BridgeId) : Bool :=
  match w.bridges[id]? with
  | some b => b.live
  | none => false

def linkLive (w : World E) (id : LinkId) : Bool :=
  match w.links[id]? with
  | some l => l.live
  | none => false

theorem linkLive_iff {w : World E} {id : LinkId} :
    w.linkLive id = true ↔ ∃ l, w.links[id]? = some l ∧ l.live = true := by
  unfold linkLive
  split <;> simp_all

/-! ## Allocating -/

def newObject (o : ScriptObject) (w : World E) : Value × World E :=
  (.object w.objects.size, { w with objects := w.objects.push o })

def newArray (elements : Array Value) (w : World E) : Value × World E :=
  (.array w.arrays.size, { w with arrays := w.arrays.push ⟨elements, false⟩ })

/-- A new string; the empty string is always the same one. -/
def newText (s : String) (w : World E) : Text × World E :=
  if s = "" then (.empty, w) else (⟨w.nextText, s⟩, { w with nextText := w.nextText + 1 })

def newString (s : String) (w : World E) : Value × World E :=
  let (t, w) := w.newText s
  (.string t, w)

/-- A function with a fresh `prototype` object. -/
def newFunction (f : FunctionData) (w : World E) : Value × World E :=
  let (prototype, w) := w.newObject default
  w.newObject { (default : ScriptObject) with
    properties := Table.empty.insert "prototype" prototype
    function := some f }

def newError (name message : String) (w : World E) : Native × World E :=
  (.error w.nextNative name message, { w with nextNative := w.nextNative + 1 })

def newBookmark (target : Value) (w : World E) : Native × World E :=
  (.bookmark w.nextNative target, { w with nextNative := w.nextNative + 1 })

def newRealm (newProperties : NewProperties) (w : World E) : RealmId × World E :=
  (w.realms.size, { w with realms := w.realms.push (.fresh newProperties) })

/-! ## Changing -/

def modifyObject (id : ObjectId) (f : ScriptObject → ScriptObject) (w : World E) : World E :=
  { w with objects := w.objects.modify id f }

def modifyArray (id : ArrayId) (f : ScriptArray → ScriptArray) (w : World E) : World E :=
  { w with arrays := w.arrays.modify id f }

def modifyLink (id : LinkId) (f : Link → Link) (w : World E) : World E :=
  { w with links := w.links.modify id f }

theorem links_modifyLink {id j : LinkId} {f : Link → Link} {w : World E} {l' : Link}
    (h : (w.modifyLink id f).links[j]? = some l') :
    ∃ l, w.links[j]? = some l ∧ (l' = l ∨ j = id ∧ l' = f l) := by
  simp only [modifyLink, Array.getElem?_modify] at h
  split at h
  · next hj =>
    obtain ⟨l, hl, rfl⟩ := Option.map_eq_some_iff.mp h
    exact ⟨l, hl, .inr ⟨hj.symm, rfl⟩⟩
  · exact ⟨l', h, .inl rfl⟩

theorem linkNative?_modifyLink {f : Link → Link} (hf : ∀ l, (f l).native = l.native)
    (id j : LinkId) (w : World E) : (w.modifyLink id f).linkNative? j = w.linkNative? j := by
  simp only [linkNative?, modifyLink, Array.getElem?_modify]
  split
  · next hj =>
    subst hj
    rw [Option.map_map]
    exact congrArg (Option.map · _) (funext hf)
  · rfl

def modifyRealm (id : RealmId) (f : Realm → Realm) (w : World E) : World E :=
  { w with realms := w.realms.modify id f }

/-- What a realm has and keeps when it changes, it has afterwards. -/
theorem realm_modifyRealm {P : Realm → Prop} {id j : RealmId} {f : Realm → Realm} {w : World E}
    (h : P (w.realm j)) (hf : P (w.realm j) → P (f (w.realm j))) :
    P ((w.modifyRealm id f).realm j) := by
  simp only [realm, modifyRealm, Array.getElem?_modify] at h hf ⊢
  split
  · cases hr : w.realms[j]? with
    | none =>
      rw [hr] at h
      exact h
    | some r =>
      rw [hr] at h hf
      exact hf h
  · exact h

/-- Hold things. -/
def hold (things : List Thing) (w : World E) : World E := { w with held := things ++ w.held }

/-- Let go of things, each once. -/
def letGo (things : List Thing) (w : World E) : World E :=
  { w with held := things.foldl List.erase w.held }

theorem foldl_erase_append (things held : List Thing) :
    things.foldl List.erase (things ++ held) = held := by
  induction things with
  | nil => rfl
  | cons t rest ih => simpa using ih

@[simp] theorem letGo_hold (things : List Thing) (w : World E) :
    (w.hold things).letGo things = w := by
  simp only [hold, letGo, foldl_erase_append]

def modifyEmbedding (f : E → E) (w : World E) : World E :=
  { w with embedding := f w.embedding }

end World

end ScriptSandbox
