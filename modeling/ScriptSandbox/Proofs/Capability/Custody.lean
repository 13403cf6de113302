import ScriptSandbox.Operation.Failure
import ScriptSandbox.Proofs.Capability.Sealing

/-
  Who holds which values.

  Host code gets hold of script values only as bookmarks that crossing the boundary mints, so it can
  hand back no bookmark that it was not given (`Custody`). A world is confined when everything that
  can come back to the script is sealed: the values behind the bookmarks that the hosts keep, those
  behind links, and the well-known values. Trusted are the errors that were raised before, as far as
  they are named, and all that the runtime has raised since: their serial numbers are new, so the
  cache of a realm has no bridge for them yet. Every change of the world by which a value operation
  gets on keeps a world confined and what is sealed sealed (`Ward.Later`).
-/

namespace ScriptSandbox

variable {E : Type}

/-- The script values that a host value gives away. -/
def HostValue.targets (h : HostValue) : List Value := h.natives.filterMap Native.bookmarked?

@[simp] theorem HostValue.targets_object (n : Native) :
    (HostValue.object n).targets = n.bookmarked?.toList := by
  cases h : n.bookmarked? <;> simp [targets, natives, h]

/-- An embedding whose host objects have no bookmarks but those that they were given. `keeps` says
    which values stand behind the bookmarks that it has. -/
structure Custody (E : Type) [Embedding E] where
  keeps : E → Value → Prop
  get : ∀ {e} id name t, keeps (Embedding.get id name e).2 t → keeps e t
  got : ∀ {e} id name {h t}, (Embedding.get id name e).1 = .ok h → t ∈ h.targets → keeps e t
  set : ∀ {e} id name value t, keeps (Embedding.set id name value e).2 t →
    keeps e t ∨ t ∈ value.targets
  delete : ∀ {e} id name t, keeps (Embedding.delete id name e).2 t → keeps e t
  call : ∀ {e} id receiver args t, keeps (Embedding.call id receiver args e).2 t →
    keeps e t ∨ t ∈ receiver.targets ∨ ∃ a ∈ args, t ∈ a.targets
  returned : ∀ {e} id receiver args {h t}, (Embedding.call id receiver args e).1 = .ok h →
    t ∈ h.targets → keeps e t ∨ t ∈ receiver.targets ∨ ∃ a ∈ args, t ∈ a.targets
  primitive : ∀ {e} id t, keeps (Embedding.primitive id e).2 t → keeps e t
  formed : ∀ {e} id {h t}, (Embedding.primitive id e).1 = some h → t ∈ h.targets → keeps e t

/-- The custody of an embedding from some moment on. -/
structure Ward (E : Type) [Embedding E] extends Custody E where
  /-- The errors that had been raised. -/
  before : Native → Prop
  /-- The next free number of a host object. -/
  start : Nat

namespace Ward

variable [Embedding E] (k : Ward E)

/-- An error that the runtime had raised or has raised since. -/
def Raised (n : Native) : Prop :=
  ∃ serial name message, n = .error serial name message ∧ (k.before n ∨ k.start ≤ serial)

/-- Every bridge that the value reaches wraps an error that the runtime raised. -/
abbrev Safe (v : Value) (w : World E) : Prop := w.Sealed k.Raised v

/-- What a host value gives away is safe. -/
def SafeHost (h : HostValue) (w : World E) : Prop := ∀ t ∈ h.targets, k.Safe t w

/-- All that can come back to the script is safe. -/
structure Confined (w : World E) : Prop where
  kept : ∀ {t}, k.keeps w.embedding t → k.Safe t w
  wellKnown : ∀ {realm entry}, entry ∈ (w.realm realm).wellKnown → k.Safe entry.2 w
  linked : ∀ {id n t}, w.linkNative? id = some n → n.bookmarked? = some t → k.Safe t w
  /-- Caches know no host object that is yet to be made. -/
  fresh : ∀ realm {serial id}, (NativeKey.made serial, id) ∈ (w.realm realm).bridges.entries →
    serial < w.nextNative
  started : k.start ≤ w.nextNative

/-- The world is still confined, and what was safe is safe. -/
structure Later (w w' : World E) : Prop where
  confined : k.Confined w'
  safe : ∀ {v}, k.Safe v w → k.Safe v w'

variable {k} {w w' : World E}

theorem Later.trans {w'' : World E} (h : k.Later w w') (h' : k.Later w' w'') : k.Later w w'' :=
  ⟨h'.confined, fun hv => h'.safe (h.safe hv)⟩

theorem Confined.refl (h : k.Confined w) : k.Later w w := ⟨h, id⟩

theorem SafeHost.later {h : HostValue} (hs : k.SafeHost h w) (hl : k.Later w w') :
    k.SafeHost h w' := fun t ht => hl.safe (hs t ht)

/-- A change that adds nothing unsafe anywhere. -/
theorem Confined.later (h : k.Confined w) (hg : World.Grows k.Raised w w')
    (kept : ∀ {t}, k.keeps w'.embedding t → k.Safe t w)
    (wellKnown : ∀ realm, (w'.realm realm).wellKnown = (w.realm realm).wellKnown)
    (linked : ∀ {id n t}, w'.linkNative? id = some n → n.bookmarked? = some t → k.Safe t w)
    (fresh : ∀ realm {serial id}, (NativeKey.made serial, id) ∈ (w'.realm realm).bridges.entries →
      serial < w'.nextNative)
    (next : w.nextNative ≤ w'.nextNative) : k.Later w w' := by
  have safe : ∀ {v}, k.Safe v w → k.Safe v w' := fun hv => hv.grow hg
  refine ⟨⟨fun ht => safe (kept ht), fun {realm entry} he => ?_, fun hn ht => safe (linked hn ht),
    fresh, Nat.le_trans h.started next⟩, safe⟩
  rw [wellKnown] at he
  exact safe (h.wellKnown he)

/-- A change of the heap and the counters only. -/
theorem Confined.later_heap (h : k.Confined w) (hg : World.Grows k.Raised w w')
    (embedding : w'.embedding = w.embedding) (realms : w'.realms = w.realms)
    (links : ∀ id, w'.linkNative? id = w.linkNative? id)
    (next : w.nextNative ≤ w'.nextNative) : k.Later w w' := by
  have realm (id : RealmId) : w'.realm id = w.realm id := by
    simp only [World.realm, realms]
  refine h.later hg (fun ht => h.kept (embedding ▸ ht)) (fun id => by rw [realm])
    (fun hn ht => h.linked (links _ ▸ hn) ht) (fun id {serial j} he => ?_) next
  rw [realm] at he
  exact Nat.lt_of_lt_of_le (h.fresh id he) next

/-! ## Allocating and holding -/

theorem Confined.hold (h : k.Confined w) (things : List Thing) : k.Later w (w.hold things) :=
  h.later_heap (.of_eq rfl rfl fun _ => rfl) rfl rfl (fun _ => rfl) (Nat.le_refl _)

theorem Confined.letGo (h : k.Confined w) (things : List Thing) : k.Later w (w.letGo things) :=
  h.later_heap (.of_eq rfl rfl fun _ => rfl) rfl rfl (fun _ => rfl) (Nat.le_refl _)

theorem Confined.newText (h : k.Confined w) (s : String) : k.Later w (w.newText s).2 := by
  unfold World.newText
  split <;> exact h.later_heap (.of_eq rfl rfl fun _ => rfl) rfl rfl (fun _ => rfl) (Nat.le_refl _)

theorem Confined.newString (h : k.Confined w) (s : String) : k.Later w (w.newString s).2 :=
  h.newText s

theorem Confined.newObject (h : k.Confined w) {o : ScriptObject} (ho : ∀ u ∈ o.parts, k.Safe u w) :
    k.Later w (w.newObject o).2 :=
  h.later_heap (World.grows_newObject ho) rfl rfl (fun _ => rfl) (Nat.le_refl _)

theorem Confined.newArray (h : k.Confined w) {elements : Array Value}
    (he : ∀ u ∈ elements, k.Safe u w) : k.Later w (w.newArray elements).2 :=
  h.later_heap (World.grows_newArray he) rfl rfl (fun _ => rfl) (Nat.le_refl _)

theorem Confined.newBookmark (h : k.Confined w) (v : Value) : k.Later w (w.newBookmark v).2 :=
  h.later_heap (.of_eq rfl rfl fun _ => rfl) rfl rfl (fun _ => rfl) (Nat.le_succ _)

theorem Confined.modifyObject (h : k.Confined w) {id : ObjectId} {f : ScriptObject → ScriptObject}
    (hf : ∀ o u, u ∈ (f o).parts → u ∈ o.parts ∨ k.Safe u w) : k.Later w (w.modifyObject id f) :=
  h.later_heap (World.grows_modifyObject hf) rfl rfl (fun _ => rfl) (Nat.le_refl _)

theorem Confined.modifyArray (h : k.Confined w) {id : ArrayId} {f : ScriptArray → ScriptArray}
    (hf : ∀ a u, u ∈ (f a).elements → u ∈ a.elements ∨ k.Safe u w) :
    k.Later w (w.modifyArray id f) :=
  h.later_heap (World.grows_modifyArray hf) rfl rfl (fun _ => rfl) (Nat.le_refl _)

theorem Confined.modifyCreated (h : k.Confined w) (id : LinkId) (f : NameSet → NameSet) :
    k.Later w (w.modifyLink id fun l => { l with created := f l.created }) :=
  h.later_heap (.of_eq rfl rfl fun _ => rfl) rfl rfl
    (fun j => World.linkNative?_modifyLink (f := fun l => { l with created := f l.created })
      (fun _ => rfl) id j w) (Nat.le_refl _)

theorem Confined.collect (h : k.Confined w) (hand : List Thing) : k.Later w (w.collect hand) := by
  unfold World.collect
  split
  · exact h.refl
  · refine h.later_heap (.of_eq rfl rfl fun id => ?_) rfl rfl (fun id => ?_) (Nat.le_refl _)
    · simp only [World.bridgeNative?, Array.getElem?_mapIdx, Option.map_map]
      rfl
    · simp only [World.linkNative?, Array.getElem?_mapIdx, Option.map_map]
      rfl

/-! ## Wrappers -/

omit [Embedding E] in
/-- The world with a new bridge for a host object that its realm did not know. -/
theorem bridge_of_unknown {realm : RealmId} {n : Native}
    (h : IdentityCache.lookup n.key (w.realm realm).bridges.entries = none) :
    w.bridge realm n = (.bridge w.bridges.size,
      { w.modifyRealm realm fun r =>
          { r with bridges := r.bridges.insert w.bridgeLive n.key w.bridges.size } with
        bridges := w.bridges.push ⟨realm, n, true⟩ }) := by
  have hfind : (w.realm realm).bridges.find? w.bridgeLive n.key = none := by
    rw [IdentityCache.find?, h]
    rfl
  simp only [World.bridge, hfind]
  rfl

/-- A bridge of an error that the runtime raises. -/
theorem Confined.raise (h : k.Confined w) (realm : RealmId) (name message : String) :
    k.Later w ((w.newError name message).2.bridge realm (w.newError name message).1).2 ∧
      k.Safe ((w.newError name message).2.bridge realm (w.newError name message).1).1
        ((w.newError name message).2.bridge realm (w.newError name message).1).2 := by
  -- no cache has an entry with the serial number of the new error
  have hunknown : IdentityCache.lookup (w.newError name message).1.key
      ((w.newError name message).2.realm realm).bridges.entries = none := by
    have hkey : (w.newError name message).1.key = .made w.nextNative := rfl
    rw [hkey]
    cases hl : IdentityCache.lookup (.made w.nextNative)
        ((w.newError name message).2.realm realm).bridges.entries with
    | none => rfl
    | some id => exact absurd (h.fresh realm (IdentityCache.mem_of_lookup hl)) (Nat.lt_irrefl _)
  rw [bridge_of_unknown hunknown]
  refine ⟨h.later (World.grows_pushBridge rfl rfl rfl) h.kept (fun j => ?_) h.linked
    (fun j => ?_) (Nat.le_succ _), ?_⟩
  · exact World.realm_modifyRealm (P := fun r => r.wellKnown = (w.realm j).wellKnown) rfl id
  · refine World.realm_modifyRealm (P := fun r => ∀ {serial id},
      (NativeKey.made serial, id) ∈ r.bridges.entries → serial < w.nextNative + 1)
      (fun he => Nat.lt_succ_of_lt (h.fresh j he)) ?_
    intro hold _ _ he
    rcases IdentityCache.mem_insert he with hk | hk
    · cases hk
      exact Nat.lt_succ_self _
    · exact hold hk
  · refine World.sealed_bridge (n := (w.newError name message).1) ?_
      ⟨w.nextNative, name, message, rfl, .inr h.started⟩
    simp only [World.bridgeNative?, Array.getElem?_push_size, Option.map_some]

theorem Confined.scriptError (h : k.Confined w) (realm : RealmId) (name message : String) :
    k.Later w (w.scriptError realm name message).2 ∧
      k.Safe (w.scriptError realm name message).1.value (w.scriptError realm name message).2 := by
  have hc := h.collect []
  obtain ⟨hl, hs⟩ := hc.confined.raise realm name message
  exact ⟨hc.trans hl, hs⟩

theorem Confined.hostError (h : k.Confined w) (realm : RealmId) (e : HostError) :
    k.Later w (w.hostError realm e).2 ∧
      k.Safe (w.hostError realm e).1.value (w.hostError realm e).2 := by
  cases e <;> exact h.scriptError realm _ _

/-- A link is safe whatever it wraps; only links of bookmarks give values away. -/
theorem Confined.newestLink (h : k.Confined w) (realm : RealmId) {n : Native}
    (hn : n.bookmarked? = none) :
    k.Later w (w.newestLink realm n).2 ∧
      k.Safe (w.newestLink realm n).1 (w.newestLink realm n).2 := by
  unfold World.newestLink
  split
  · exact ⟨h.refl, World.sealed_link _⟩
  · refine ⟨h.later (.of_eq rfl rfl fun _ => rfl) h.kept (fun j => ?_) (fun {id m t} hm ht => ?_)
      (fun j => ?_) (Nat.le_refl _), World.sealed_link _⟩
    · exact World.realm_modifyRealm (P := fun r => r.wellKnown = (w.realm j).wellKnown) rfl id
    · simp only [World.linkNative?, Array.getElem?_push] at hm
      split at hm
      · cases hm
        rw [hn] at ht
        cases ht
      · exact h.linked hm ht
    · exact World.realm_modifyRealm (P := fun r => ∀ {serial id},
        (NativeKey.made serial, id) ∈ r.bridges.entries → serial < w.nextNative) (h.fresh j) id

/-! ## Crossing the boundary -/

mutual

/-- A guarded value is safe when the host value gives away nothing unsafe. -/
theorem Confined.link (realm : RealmId) : ∀ (v : HostValue) {w : World E}, k.Confined w →
    k.SafeHost v w →
    k.Later w (w.link realm v).2 ∧ k.Safe (w.link realm v).1 (w.link realm v).2
  | .undefined, _, h, _ | .null, _, h, _ | .boolean _, _, h, _ | .number _, _, h, _ =>
    ⟨h.refl, World.sealed_primitive _⟩
  | .string s, _, h, _ => ⟨h.newString s, World.sealed_primitive _⟩
  | .array items, w, h, hv => by
    obtain ⟨hl, hs⟩ := Confined.linkAll realm items h hv
    have hs' : ∀ u ∈ (World.linkAll realm items w).1.toArray,
        k.Safe u (World.linkAll realm items w).2 := fun u hu => hs u (List.mem_toArray.mp hu)
    exact ⟨hl.trans (hl.confined.newArray hs'), World.sealed_newArray hs'⟩
  | .object n, w, h, hv => by
    unfold World.link
    split
    · next v hw => exact ⟨h.refl, h.wellKnown (World.mem_of_lookupKey hw)⟩
    · split
      · next v hb => exact ⟨h.refl, hv v (by simp [hb])⟩
      · next hb => exact h.newestLink realm hb

theorem Confined.linkAll (realm : RealmId) : ∀ (vs : List HostValue) {w : World E}, k.Confined w →
    (∀ t ∈ (HostValue.nativesOfAll vs).filterMap Native.bookmarked?, k.Safe t w) →
    k.Later w (World.linkAll realm vs w).2 ∧
      ∀ u ∈ (World.linkAll realm vs w).1, k.Safe u (World.linkAll realm vs w).2
  | [], _, h, _ => ⟨h.refl, fun _ hu => by cases hu⟩
  | v :: rest, w, h, hv => by
    simp only [HostValue.nativesOfAll, List.filterMap_append, List.mem_append] at hv
    obtain ⟨hl, hs⟩ := Confined.link realm v h fun t ht => hv t (.inl ht)
    obtain ⟨hl', hs'⟩ := Confined.linkAll realm rest hl.confined fun t ht =>
      hl.safe (hv t (.inr ht))
    refine ⟨hl.trans hl', fun u hu => ?_⟩
    rcases List.mem_cons.mp hu with rfl | hu
    · exact hl'.safe hs
    · exact hs' u hu

end

/-- What crosses to the host gives away nothing unsafe. -/
theorem Confined.toHostAll {convert : Value → World E → Option HostValue × World E}
    (hc : ∀ {v w}, k.Confined w → k.Safe v w → k.Later w (convert v w).2 ∧
      ∀ {h}, (convert v w).1 = some h → k.SafeHost h (convert v w).2)
    (vs : List Value) {w : World E} (h : k.Confined w) (hv : ∀ v ∈ vs, k.Safe v w) :
    k.Later w (World.toHostAll convert vs w).2 ∧
      ∀ {hs}, (World.toHostAll convert vs w).1 = some hs →
        ∀ a ∈ hs, k.SafeHost a (World.toHostAll convert vs w).2 := by
  induction vs generalizing w with
  | nil =>
    refine ⟨h.refl, fun {hs} he a ha => ?_⟩
    cases he
    cases ha
  | cons v rest ih =>
    obtain ⟨hl, hs⟩ := hc h (hv v List.mem_cons_self)
    unfold World.toHostAll
    split
    · next w' hw =>
      rw [hw] at hl
      exact ⟨hl, fun he => by cases he⟩
    · next a w' hw =>
      rw [hw] at hl hs
      obtain ⟨hl', hs'⟩ := ih hl.confined fun v hv' => hl.safe (hv v (List.mem_cons_of_mem _ hv'))
      split
      · next w'' hr =>
        rw [hr] at hl'
        exact ⟨hl.trans hl', fun he => by cases he⟩
      · next as w'' hr =>
        rw [hr] at hl' hs'
        refine ⟨hl.trans hl', fun {hs} he b hb => ?_⟩
        cases he
        rcases List.mem_cons.mp hb with rfl | hb
        · exact (hs rfl).later hl'
        · exact hs' rfl b hb

theorem safeHost_nativeValue {n? : Option Native}
    (h : ∀ {n t}, n? = some n → n.bookmarked? = some t → k.Safe t w) :
    k.SafeHost (World.nativeValue n?) w := by
  cases n? with
  | none => exact fun t ht => by cases ht
  | some n =>
    intro t ht
    rw [World.nativeValue, Option.map_some, Option.getD_some, HostValue.targets_object,
      Option.mem_toList] at ht
    exact h rfl ht

theorem safeHost_array {items : List HostValue} (h : ∀ a ∈ items, k.SafeHost a w) :
    k.SafeHost (.array items) w := by
  show ∀ t ∈ (HostValue.nativesOfAll items).filterMap Native.bookmarked?, k.Safe t w
  induction items with
  | nil => exact fun t ht => by cases ht
  | cons a rest ih =>
    intro t ht
    simp only [HostValue.nativesOfAll, List.filterMap_append, List.mem_append] at ht
    rcases ht with ht | ht
    · exact h a List.mem_cons_self t ht
    · exact ih (fun b hb => h b (List.mem_cons_of_mem _ hb)) t ht

theorem safeHost_plain {a : HostValue} (h : a.targets = []) : k.SafeHost a w := by
  intro t ht
  rw [h] at ht
  cases ht

/-- A value that is no array crosses at any depth. -/
theorem Confined.toHost_single (h : k.Confined w) {v : Value} (hv : k.Safe v w)
    (ha : ∀ id, v ≠ .array id) (depth : Nat) : k.Later w (World.toHostWithin depth v w).2 ∧
      ∀ {a}, (World.toHostWithin depth v w).1 = some a →
        k.SafeHost a (World.toHostWithin depth v w).2 := by
  cases v with
  | primitive p =>
    cases p <;> simp only [World.toHostWithin] <;> refine ⟨h.refl, fun he => ?_⟩ <;> cases he <;>
      exact safeHost_plain rfl
  | object id =>
    simp only [World.toHostWithin]
    refine ⟨h.newBookmark _, fun he => ?_⟩
    cases he
    intro t ht
    rw [HostValue.targets_object] at ht
    cases List.mem_singleton.mp ht
    exact (h.newBookmark (.object id)).safe hv
  | array id => exact absurd rfl (ha id)
  | bridge id =>
    simp only [World.toHostWithin]
    refine ⟨h.refl, fun he => ?_⟩
    cases he
    obtain ⟨n, hn, serial, name, message, rfl, -⟩ := hv.bridge
    rw [hn]
    exact safeHost_plain rfl
  | link id =>
    simp only [World.toHostWithin]
    refine ⟨h.refl, fun he => ?_⟩
    cases he
    exact safeHost_nativeValue fun hn ht => h.linked hn ht

theorem Confined.toHostWithin (depth : Nat) {v : Value} {w : World E} (h : k.Confined w)
    (hv : k.Safe v w) : k.Later w (World.toHostWithin depth v w).2 ∧
      ∀ {a}, (World.toHostWithin depth v w).1 = some a →
        k.SafeHost a (World.toHostWithin depth v w).2 := by
  induction depth generalizing v w with
  | zero =>
    cases v with
    | array id => exact ⟨h.refl, fun he => by cases he⟩
    | _ => exact h.toHost_single hv (fun _ he => by cases he) 0
  | succ depth ih =>
    cases v with
    | array id =>
      obtain ⟨hl, hs⟩ := Confined.toHostAll ih (w.array id).elements.toList h fun u hu =>
        hv.leadsTo (Array.mem_toList_iff.mp hu)
      unfold World.toHostWithin
      split
      · next w' hr =>
        rw [hr] at hl
        exact ⟨hl, fun he => by cases he⟩
      · next items w' hr =>
        rw [hr] at hl hs
        refine ⟨hl, fun he => ?_⟩
        cases he
        exact safeHost_array (hs rfl)
    | _ => exact h.toHost_single hv (fun _ he => by cases he) (depth + 1)

theorem Confined.toHost (h : k.Confined w) {v : Value} (hv : k.Safe v w) :
    k.Later w (World.toHost v w).2 ∧
      ∀ {a}, (World.toHost v w).1 = some a → k.SafeHost a (World.toHost v w).2 :=
  h.toHostWithin w.arrays.size hv

/-! ## Host objects -/

/-- A method of the embedding after which the hosts keep nothing unsafe. -/
theorem Confined.hosted {α : Type} {f : E → α × E} (h : k.Confined w)
    (hf : ∀ {t}, k.keeps (f w.embedding).2 t → k.Safe t w) : k.Later w (w.hosted f).2 :=
  h.later (.of_eq rfl rfl fun _ => rfl) hf (fun _ => rfl) h.linked h.fresh (Nat.le_refl _)

theorem Confined.getProperty (h : k.Confined w) (n : Native) (name : String) :
    k.Later w (w.getProperty n name).2 ∧
      ∀ {v}, (w.getProperty n name).1 = .ok v → k.SafeHost v (w.getProperty n name).2 := by
  cases n with
  | error serial errorName message =>
    obtain ⟨v, hplain, hv⟩ := World.getProperty_error (E := E) serial errorName message name
    rw [hv]
    refine ⟨h.refl, fun he => ?_⟩
    cases he
    rcases hplain with rfl | ⟨s, rfl⟩ <;> exact safeHost_plain rfl
  | bookmark serial target =>
    refine ⟨h.refl, fun he => ?_⟩
    cases he
    exact safeHost_plain rfl
  | hosted id =>
    have hl : k.Later w (w.getProperty (.hosted id) name).2 :=
      h.hosted fun ht => h.kept (k.get id name _ ht)
    exact ⟨hl, fun he t ht => hl.safe (h.kept (k.got id name he ht))⟩

theorem Confined.setProperty (h : k.Confined w) (n : Native) (name : String) {value : HostValue}
    (hv : k.SafeHost value w) : k.Later w (w.setProperty n name value).2 := by
  cases n with
  | error serial errorName message => exact h.refl
  | bookmark serial target => exact h.refl
  | hosted id => exact h.hosted fun ht => (k.set id name value _ ht).elim h.kept (hv _)

theorem Confined.deleteProperty (h : k.Confined w) (n : Native) (name : String) :
    k.Later w (w.deleteProperty n name).2 := by
  cases n with
  | error serial errorName message => exact h.refl
  | bookmark serial target => exact h.refl
  | hosted id => exact h.hosted fun ht => h.kept (k.delete id name _ ht)

theorem Confined.callNative (h : k.Confined w) (n : Native) {receiver : HostValue}
    {args : List HostValue} (hr : k.SafeHost receiver w) (ha : ∀ a ∈ args, k.SafeHost a w) :
    k.Later w (w.callNative n receiver args).2 ∧
      ∀ {v}, (w.callNative n receiver args).1 = .ok v →
        k.SafeHost v (w.callNative n receiver args).2 := by
  cases n with
  | error serial name message => exact ⟨h.refl, fun he => by cases he⟩
  | bookmark serial target => exact ⟨h.refl, fun he => by cases he⟩
  | hosted id =>
    have given {t : Value} (ht : k.keeps w.embedding t ∨ t ∈ receiver.targets ∨
        ∃ a ∈ args, t ∈ a.targets) : k.Safe t w := by
      rcases ht with ht | ht | ⟨a, hmem, ht⟩
      · exact h.kept ht
      · exact hr t ht
      · exact ha a hmem t ht
    have hl : k.Later w (w.callNative (.hosted id) receiver args).2 :=
      h.hosted fun ht => given (k.call id receiver args _ ht)
    exact ⟨hl, fun he t ht => hl.safe (given (k.returned id receiver args he ht))⟩

theorem Confined.primitiveForm (h : k.Confined w) (n : Native) :
    k.Later w (w.primitiveForm n).2 ∧
      ∀ {v}, (w.primitiveForm n).1 = some v → k.SafeHost v (w.primitiveForm n).2 := by
  cases n with
  | error serial name message => exact ⟨h.refl, fun he => by cases he⟩
  | bookmark serial target => exact ⟨h.refl, fun he => by cases he⟩
  | hosted id =>
    have hl : k.Later w (w.primitiveForm (.hosted id)).2 :=
      h.hosted fun ht => h.kept (k.primitive id _ ht)
    exact ⟨hl, fun he t ht => hl.safe (h.kept (k.formed id he ht))⟩

mutual

theorem Confined.fromHostIn_none : ∀ (a : HostValue) {w : World E}, k.Confined w →
    k.SafeHost a w →
    k.Later w (World.fromHostIn none a w).2 ∧
      ∀ {v}, (World.fromHostIn none a w).1 = .ok v → k.Safe v (World.fromHostIn none a w).2
  | .undefined, _, h, _ | .null, _, h, _ | .boolean _, _, h, _ | .number _, _, h, _ =>
    ⟨h.refl, fun he => by cases he; exact World.sealed_primitive _⟩
  | .string s, _, h, _ => ⟨h.newString s, fun he => by cases he; exact World.sealed_primitive _⟩
  | .array items, w, h, ha => by
    obtain ⟨hl, hs⟩ := Confined.fromHostAllIn_none items h ha
    unfold World.fromHostIn
    split
    · next vs w' hr =>
      rw [hr] at hl hs
      have hs' : ∀ u ∈ vs.toArray, k.Safe u w' := fun u hu => hs rfl u (List.mem_toArray.mp hu)
      refine ⟨hl.trans (hl.confined.newArray hs'), fun he => ?_⟩
      cases he
      exact World.sealed_newArray hs'
    · next e w' hr =>
      rw [hr] at hl
      exact ⟨hl, fun he => by cases he⟩
  | .object n, w, h, ha => by
    unfold World.fromHostIn
    cases hb : n.bookmarked? with
    | some v =>
      refine ⟨h.refl, fun he => ?_⟩
      cases he
      exact ha v (by simp [hb])
    | none => exact ⟨h.refl, fun he => by cases he⟩

theorem Confined.fromHostAllIn_none : ∀ (as : List HostValue) {w : World E}, k.Confined w →
    (∀ t ∈ (HostValue.nativesOfAll as).filterMap Native.bookmarked?, k.Safe t w) →
    k.Later w (World.fromHostAllIn none as w).2 ∧
      ∀ {vs}, (World.fromHostAllIn none as w).1 = .ok vs →
        ∀ u ∈ vs, k.Safe u (World.fromHostAllIn none as w).2
  | [], _, h, _ => ⟨h.refl, fun he u hu => by cases he; cases hu⟩
  | a :: rest, w, h, ha => by
    simp only [HostValue.nativesOfAll, List.filterMap_append, List.mem_append] at ha
    obtain ⟨hl, hs⟩ := Confined.fromHostIn_none a h fun t ht => ha t (.inl ht)
    unfold World.fromHostAllIn
    split
    · next e w' hr =>
      rw [hr] at hl
      exact ⟨hl, fun he => by cases he⟩
    · next v w' hr =>
      rw [hr] at hl hs
      obtain ⟨hl', hs'⟩ := Confined.fromHostAllIn_none rest hl.confined fun t ht =>
        hl.safe (ha t (.inr ht))
      split
      · next e w'' hr' =>
        rw [hr'] at hl'
        exact ⟨hl.trans hl', fun he => by cases he⟩
      · next vs w'' hr' =>
        rw [hr'] at hl' hs'
        refine ⟨hl.trans hl', fun he u hu => ?_⟩
        cases he
        rcases List.mem_cons.mp hu with rfl | hu
        · exact hl'.safe (hs rfl)
        · exact hs' rfl u hu

end

/-- The primitive of a host object comes from what the object declares or displays. -/
theorem Confined.hostPrimitive (h : k.Confined w) (n : Native) :
    k.Later w (w.hostPrimitive n).2 := by
  obtain ⟨hl, hs⟩ := h.primitiveForm n
  unfold World.hostPrimitive
  split
  · next w' hr =>
    rw [hr] at hl
    exact hl.trans (hl.confined.newText _)
  · next a w' hr =>
    rw [hr] at hl hs
    obtain ⟨hl', -⟩ := Confined.fromHostIn_none a hl.confined (hs rfl)
    split
    · next p w'' hr' =>
      rw [hr'] at hl'
      exact hl.trans hl'
    · next w'' _ hr' =>
      rw [hr'] at hl'
      exact (hl.trans hl').trans (hl'.confined.newText _)

/-- What an error gives when it is read is a text or nothing, so no new bridge comes of it. -/
theorem Confined.fromHost_error (h : k.Confined w) (realm : RealmId) {serial : Nat}
    {errorName message name : String} {v : HostValue} {w' : World E}
    (hv : (w'.getProperty (.error serial errorName message) name).1 = .ok v) :
    k.Later w (w.fromHost realm v).2 ∧ k.Safe (w.fromHost realm v).1 (w.fromHost realm v).2 := by
  obtain ⟨u, hplain, hu⟩ := World.getProperty_error (E := E) serial errorName message name
  rw [hu] at hv
  cases hv
  rcases hplain with rfl | ⟨s, rfl⟩
  · exact ⟨h.refl, World.sealed_primitive _⟩
  · exact ⟨h.newString s, World.sealed_primitive _⟩

end Ward

end ScriptSandbox
