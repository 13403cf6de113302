import ScriptSandbox.World.Native

/-
  Host values entering a script.

  A realm makes at most one live wrapper of each kind per host object. `fromHost` brings a value in
  unrestricted, `link` guarded: a bookmark comes back as the value it stands for, and for a guarded
  value the well-known values of the realm come first. `fromHostIn` brings a value in unrestricted
  also when there is no realm, and then fails at the first host object that would need one.
-/

namespace ScriptSandbox.World

variable {E : Type}

/-! ## Wrappers -/

/-- The bridge of a host object in a realm: the live one, or a new one. -/
def bridge (realm : RealmId) (n : Native) (w : World E) : Value × World E :=
  match (w.realm realm).bridges.find? w.bridgeLive n.key with
  | some id => (.bridge id, w)
  | none =>
    let id := w.bridges.size
    let w := w.modifyRealm realm fun r =>
      { r with bridges := r.bridges.insert w.bridgeLive n.key id }
    (.bridge id, { w with bridges := w.bridges.push ⟨realm, n, true⟩ })

/-- The link of a host object in a realm: the live one, or a new one without created
    properties. -/
def newestLink (realm : RealmId) (n : Native) (w : World E) : Value × World E :=
  match (w.realm realm).links.find? w.linkLive n.key with
  | some id => (.link id, w)
  | none =>
    let id := w.links.size
    let w := w.modifyRealm realm fun r => { r with links := r.links.insert w.linkLive n.key id }
    (.link id, { w with links := w.links.push ⟨realm, n, ∅, true⟩ })

/-! ## Well-known values -/

def lookupKey (key : NativeKey) : List (NativeKey × Value) → Option Value
  | [] => none
  | (k, v) :: rest => if k = key then some v else lookupKey key rest

theorem mem_of_lookupKey {key : NativeKey} {v : Value} {entries : List (NativeKey × Value)}
    (h : lookupKey key entries = some v) : (key, v) ∈ entries := by
  induction entries with
  | nil => cases h
  | cons e rest ih =>
    obtain ⟨k, x⟩ := e
    simp only [lookupKey] at h
    split at h
    · next hk =>
      cases h
      exact hk ▸ List.mem_cons_self
    · exact List.mem_cons_of_mem _ (ih h)

/-- The canonical value of a host object in a realm. A host object at hand is not lost. -/
def wellKnown? (realm : RealmId) (n : Native) (w : World E) : Option Value :=
  lookupKey n.key (w.realm realm).wellKnown

/-- Make a value the canonical one for a host object. -/
def registerWellKnown (realm : RealmId) (n : Native) (v : Value) (w : World E) : World E :=
  w.modifyRealm realm fun r =>
    { r with wellKnown := (n.key, v) :: r.wellKnown.filter fun e => e.1 ≠ n.key }

/-! ## Host values -/

mutual

/-- A host value as an unrestricted script value. -/
def fromHost (realm : RealmId) : HostValue → World E → Value × World E
  | .undefined, w => (.undefined, w)
  | .null, w => (.null, w)
  | .boolean b, w => (.boolean b, w)
  | .number n, w => (.number n, w)
  | .string s, w => w.newString s
  | .array items, w =>
    let (vs, w) := fromHostAll realm items w
    w.newArray vs.toArray
  | .object n, w =>
    match n.bookmarked? with
    | some v => (v, w)
    | none => w.bridge realm n

def fromHostAll (realm : RealmId) : List HostValue → World E → List Value × World E
  | [], w => ([], w)
  | h :: rest, w =>
    let (v, w) := fromHost realm h w
    let (vs, w) := fromHostAll realm rest w
    (v :: vs, w)

end

mutual

/-- A host value as a guarded script value. -/
def link (realm : RealmId) : HostValue → World E → Value × World E
  | .undefined, w => (.undefined, w)
  | .null, w => (.null, w)
  | .boolean b, w => (.boolean b, w)
  | .number n, w => (.number n, w)
  | .string s, w => w.newString s
  | .array items, w =>
    let (vs, w) := linkAll realm items w
    w.newArray vs.toArray
  | .object n, w =>
    match w.wellKnown? realm n with
    | some v => (v, w)
    | none =>
      match n.bookmarked? with
      | some v => (v, w)
      | none => w.newestLink realm n

def linkAll (realm : RealmId) : List HostValue → World E → List Value × World E
  | [], w => ([], w)
  | h :: rest, w =>
    let (v, w) := link realm h w
    let (vs, w) := linkAll realm rest w
    (v :: vs, w)

end

variable [Embedding E]

mutual

/-- A host value as a script value, with a realm for its host objects if there is one. Without a
    realm no host object may be in it, apart from bookmarks. -/
def fromHostIn (realm? : Option RealmId) :
    HostValue → World E → Except MissingRealm Value × World E
  | .undefined, w => (.ok .undefined, w)
  | .null, w => (.ok .null, w)
  | .boolean b, w => (.ok (.boolean b), w)
  | .number n, w => (.ok (.number n), w)
  | .string s, w =>
    let (v, w) := w.newString s
    (.ok v, w)
  | .array items, w =>
    match fromHostAllIn realm? items w with
    | (.ok vs, w) =>
      let (v, w) := w.newArray vs.toArray
      (.ok v, w)
    | (.error e, w) => (.error e, w)
  | .object n, w =>
    match n.bookmarked?, realm? with
    | some v, _ => (.ok v, w)
    | none, some realm =>
      let (v, w) := w.bridge realm n
      (.ok v, w)
    | none, none => (.error ⟨w.display n⟩, w)

def fromHostAllIn (realm? : Option RealmId) :
    List HostValue → World E → Except MissingRealm (List Value) × World E
  | [], w => (.ok [], w)
  | h :: rest, w =>
    match fromHostIn realm? h w with
    | (.error e, w) => (.error e, w)
    | (.ok v, w) =>
      match fromHostAllIn realm? rest w with
      | (.error e, w) => (.error e, w)
      | (.ok vs, w) => (.ok (v :: vs), w)

end

/-- The primitive that a host object coerces to: the primitive form it declares, or its text. -/
def hostPrimitive (n : Native) (w : World E) : Primitive × World E :=
  let byText (w : World E) : Primitive × World E :=
    let (t, w) := w.newText (w.display n)
    (.string t, w)
  match w.primitiveForm n with
  | (none, w) => byText w
  | (some h, w) =>
    match w.fromHostIn none h with
    | (.ok (.primitive p), w) => (p, w)
    | (_, w) => byText w

/-! ## Purging -/

/-- Drop the dead entries of a realm's caches and the well-known values of lost host objects. The
    count is that of the cache entries. -/
def purge (realm : RealmId) (w : World E) : Nat × World E :=
  let r := w.realm realm
  let (bridges, b) := r.bridges.purge w.bridgeLive
  let (links, l) := r.links.purge w.linkLive
  let wellKnown := r.wellKnown.filter fun e => !w.lostNatives.contains e.1
  (b + l, w.modifyRealm realm fun r =>
    { r with bridges := bridges, links := links, wellKnown := wellKnown })

/-- The number of live bridges of a realm. -/
def cachedBridges (realm : RealmId) (w : World E) : Nat :=
  (w.realm realm).bridges.liveCount w.bridgeLive

/-- The number of live links of a realm. -/
def cachedLinks (realm : RealmId) (w : World E) : Nat :=
  (w.realm realm).links.liveCount w.linkLive

end ScriptSandbox.World
