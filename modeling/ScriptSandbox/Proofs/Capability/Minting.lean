import ScriptSandbox.Proofs.Capability.Custody
import ScriptSandbox.Proofs.Capability.Record
import ScriptSandbox.Proofs.World.Entry
import ScriptSandbox.Proofs.World.Nesting

/-
  Host objects that the runtime makes.

  Errors and bookmarks carry serial numbers, given out one after the other. A host has no such
  object but those that it was given (`Provenance`), so whatever there is of them, behind wrappers,
  with the hosts and in the caches of bridges, was made before the next number: the world is minted
  (`Minted`). In a minted world a new error is unknown to every cache. So what is thrown for it is a
  bridge over the error itself and not over something else that goes by its number
  (`Minted.scriptError`). Every change by which an operation gets on keeps a world minted
  (`Provenance.Later`).
-/

namespace ScriptSandbox

/-! ## Made before a number -/

/-- If the runtime made the host object, it did before it gave out the number. -/
def Native.Before (n : Native) (next : Nat) : Prop := ∀ serial, n.key = .made serial → serial < next

/-- Whatever the runtime made in the host value, it made before it gave out the number. -/
def HostValue.Before (h : HostValue) (next : Nat) : Prop := ∀ n ∈ h.natives, n.Before next

variable {next next' : Nat}

theorem Native.Before.mono {n : Native} (h : n.Before next) (hle : next ≤ next') :
    n.Before next' := fun serial hk => Nat.lt_of_lt_of_le (h serial hk) hle

namespace HostValue

theorem Before.mono {h : HostValue} (hh : h.Before next) (hle : next ≤ next') : h.Before next' :=
  fun n hn => (hh n hn).mono hle

/-- A value without host objects. -/
theorem before_plain {h : HostValue} (hh : h.natives = []) : h.Before next := by
  intro n hn
  rw [hh] at hn
  cases hn

theorem before_object {n : Native} : (HostValue.object n).Before next ↔ n.Before next :=
  List.forall_mem_singleton

theorem before_array {items : List HostValue} :
    (HostValue.array items).Before next ↔ ∀ h ∈ items, h.Before next := by
  show (∀ n ∈ nativesOfAll items, n.Before next) ↔ _
  induction items with
  | nil => exact iff_of_true (fun _ hn => by cases hn) (fun _ hh => by cases hh)
  | cons h rest ih =>
    rw [nativesOfAll, List.forall_mem_append, ih, List.forall_mem_cons]
    rfl

end HostValue

/-- An embedding whose host objects have nothing that the runtime made but what they were given.
    `knows` says of a state of it that it has nothing that was made from the number on. -/
structure Provenance (E : Type) [Embedding E] where
  knows : E → Nat → Prop
  mono : ∀ {e next next'}, next ≤ next' → knows e next → knows e next'
  get : ∀ {e next} id name, knows e next → knows (Embedding.get id name e).2 next ∧
    ∀ {h}, (Embedding.get id name e).1 = .ok h → h.Before next
  set : ∀ {e next} id name value, knows e next → value.Before next →
    knows (Embedding.set id name value e).2 next
  delete : ∀ {e next} id name, knows e next → knows (Embedding.delete id name e).2 next
  call : ∀ {e next} id receiver args, knows e next → receiver.Before next →
    (∀ a ∈ args, a.Before next) → knows (Embedding.call id receiver args e).2 next ∧
      ∀ {h}, (Embedding.call id receiver args e).1 = .ok h → h.Before next
  primitive : ∀ {e next} id, knows e next → knows (Embedding.primitive id e).2 next

variable {E : Type}

namespace World

/-- No number is taken back, and bridges keep their host objects. -/
structure Extends (w w' : World E) : Prop where
  next : w.nextNative ≤ w'.nextNative
  bridges : ∀ {id n}, w.bridgeNative? id = some n → w'.bridgeNative? id = some n

variable {w w' : World E}

theorem Extends.refl (w : World E) : Extends w w := ⟨Nat.le_refl _, id⟩

theorem Extends.trans {w'' : World E} (h : Extends w w') (h' : Extends w' w'') : Extends w w'' :=
  ⟨Nat.le_trans h.next h'.next, fun hn => h'.bridges (h.bridges hn)⟩

theorem Extends.of_eq (hb : w'.bridges = w.bridges) (hn : w.nextNative ≤ w'.nextNative) :
    Extends w w' := by
  refine ⟨hn, fun {id n} h => ?_⟩
  rw [bridgeNative?, hb]
  exact h

theorem bridgeNative?_collect [Embedding E] (hand : List Thing) (w : World E) (id : BridgeId) :
    (w.collect hand).bridgeNative? id = w.bridgeNative? id := by
  unfold collect
  split
  · rfl
  · simp only [bridgeNative?, Array.getElem?_mapIdx, Option.map_map]
    rfl

theorem linkNative?_collect [Embedding E] (hand : List Thing) (w : World E) (id : LinkId) :
    (w.collect hand).linkNative? id = w.linkNative? id := by
  unfold collect
  split
  · rfl
  · simp only [linkNative?, Array.getElem?_mapIdx, Option.map_map]
    rfl

/-- A bridge of a list that takes up one more is an old one or the new one. -/
theorem bridgeNative?_push {b : Bridge} {id : BridgeId} {n : Native}
    (h : ({ w with bridges := w.bridges.push b } : World E).bridgeNative? id = some n) :
    w.bridgeNative? id = some n ∨ n = b.native := by
  simp only [bridgeNative?, Array.getElem?_push] at h ⊢
  split at h
  · exact .inr (Option.some.inj h).symm
  · exact .inl h

theorem extends_bridge (realm : RealmId) (n : Native) (w : World E) :
    Extends w (w.bridge realm n).2 := by
  unfold bridge
  split
  · exact .refl w
  · refine ⟨Nat.le_refl _, fun {id m} h => ?_⟩
    obtain ⟨b, hb, rfl⟩ := Option.map_eq_some_iff.mp h
    have hlt : id < w.bridges.size := (Array.getElem?_eq_some_iff.mp hb).1
    simp only [bridgeNative?, Array.getElem?_push, Nat.ne_of_lt hlt, if_false, modifyRealm, hb,
      Option.map_some]

theorem extends_newestLink (realm : RealmId) (n : Native) (w : World E) :
    Extends w (w.newestLink realm n).2 := by
  unfold newestLink
  split <;> exact .of_eq rfl (Nat.le_refl _)

end World

namespace Provenance

variable [Embedding E] (k : Provenance E)

/-- Whatever there is of what the runtime makes was made before the next number. -/
structure Minted (w : World E) : Prop where
  hosts : k.knows w.embedding w.nextNative
  bridged : ∀ {id n}, w.bridgeNative? id = some n → n.Before w.nextNative
  linked : ∀ {id n}, w.linkNative? id = some n → n.Before w.nextNative
  cached : ∀ realm {serial id}, (NativeKey.made serial, id) ∈ (w.realm realm).bridges.entries →
    serial < w.nextNative

/-- A later moment of a world, which is minted if the world was. -/
structure Later (w w' : World E) : Prop where
  extension : World.Extends w w'
  minted : k.Minted w → k.Minted w'

variable {k} {w w' : World E}

theorem Later.refl (w : World E) : k.Later w w := ⟨.refl w, id⟩

theorem Later.trans {w'' : World E} (h : k.Later w w') (h' : k.Later w' w'') : k.Later w w'' :=
  ⟨h.extension.trans h'.extension, fun hm => h'.minted (h.minted hm)⟩

theorem Later.before {h : HostValue} (hl : k.Later w w') (hh : h.Before w.nextNative) :
    h.Before w'.nextNative := hh.mono hl.extension.next

/-! ## Changes -/

/-- A change that leaves wrappers, caches and hosts alone. -/
theorem later_of_same (embedding : w'.embedding = w.embedding) (realms : w'.realms = w.realms)
    (bridges : ∀ id, w'.bridgeNative? id = w.bridgeNative? id)
    (links : ∀ id, w'.linkNative? id = w.linkNative? id)
    (next : w.nextNative ≤ w'.nextNative) : k.Later w w' := by
  refine ⟨⟨next, fun hn => (bridges _).trans hn⟩, fun hm => ⟨?_, fun hn => ?_, fun hn => ?_, ?_⟩⟩
  · rw [embedding]
    exact k.mono next hm.hosts
  · exact (hm.bridged ((bridges _).symm.trans hn)).mono next
  · exact (hm.linked ((links _).symm.trans hn)).mono next
  · intro realm serial id he
    rw [World.realm, realms] at he
    exact Nat.lt_of_lt_of_le (hm.cached realm he) next

theorem later_hold (things : List Thing) (w : World E) : k.Later w (w.hold things) :=
  later_of_same rfl rfl (fun _ => rfl) (fun _ => rfl) (Nat.le_refl _)

theorem later_letGo (things : List Thing) (w : World E) : k.Later w (w.letGo things) :=
  later_of_same rfl rfl (fun _ => rfl) (fun _ => rfl) (Nat.le_refl _)

theorem later_newText (s : String) (w : World E) : k.Later w (w.newText s).2 := by
  unfold World.newText
  split <;> exact later_of_same rfl rfl (fun _ => rfl) (fun _ => rfl) (Nat.le_refl _)

theorem later_newObject (o : ScriptObject) (w : World E) : k.Later w (w.newObject o).2 :=
  later_of_same rfl rfl (fun _ => rfl) (fun _ => rfl) (Nat.le_refl _)

theorem later_newArray (elements : Array Value) (w : World E) : k.Later w (w.newArray elements).2 :=
  later_of_same rfl rfl (fun _ => rfl) (fun _ => rfl) (Nat.le_refl _)

theorem later_newBookmark (v : Value) (w : World E) : k.Later w (w.newBookmark v).2 :=
  later_of_same rfl rfl (fun _ => rfl) (fun _ => rfl) (Nat.le_succ _)

theorem later_modifyObject (id : ObjectId) (f : ScriptObject → ScriptObject) (w : World E) :
    k.Later w (w.modifyObject id f) :=
  later_of_same rfl rfl (fun _ => rfl) (fun _ => rfl) (Nat.le_refl _)

theorem later_modifyArray (id : ArrayId) (f : ScriptArray → ScriptArray) (w : World E) :
    k.Later w (w.modifyArray id f) :=
  later_of_same rfl rfl (fun _ => rfl) (fun _ => rfl) (Nat.le_refl _)

theorem later_modifyCreated (id : LinkId) (f : NameSet → NameSet) (w : World E) :
    k.Later w (w.modifyLink id fun l => { l with created := f l.created }) :=
  later_of_same rfl rfl (fun _ => rfl)
    (fun j => World.linkNative?_modifyLink (f := fun l => { l with created := f l.created })
      (fun _ => rfl) id j w) (Nat.le_refl _)

theorem later_collect (hand : List Thing) (w : World E) : k.Later w (w.collect hand) := by
  refine later_of_same ?_ ?_ (World.bridgeNative?_collect hand w)
    (World.linkNative?_collect hand w) (Nat.le_of_eq ?_) <;>
  · unfold World.collect
    split <;> rfl

/-- A new bridge of what was made before enters the cache of its realm only. -/
theorem later_bridge (realm : RealmId) {n : Native} (hn : n.Before w.nextNative) :
    k.Later w (w.bridge realm n).2 := by
  refine ⟨World.extends_bridge realm n w, fun hm => ?_⟩
  unfold World.bridge
  split
  · exact hm
  · refine ⟨hm.hosts, fun h => ?_, hm.linked, fun j => ?_⟩
    · rcases World.bridgeNative?_push (w := w.modifyRealm realm _) h with h | rfl
      · exact hm.bridged h
      · exact hn
    · refine World.realm_modifyRealm (P := fun r => ∀ {serial id},
        (NativeKey.made serial, id) ∈ r.bridges.entries → serial < w.nextNative) (hm.cached j) ?_
      intro hold serial _ he
      rcases IdentityCache.mem_insert he with hk | hk
      · exact hn serial (congrArg Prod.fst hk).symm
      · exact hold hk

theorem later_newestLink (realm : RealmId) {n : Native} (hn : n.Before w.nextNative) :
    k.Later w (w.newestLink realm n).2 := by
  refine ⟨World.extends_newestLink realm n w, fun hm => ?_⟩
  unfold World.newestLink
  split
  · exact hm
  · refine ⟨hm.hosts, hm.bridged, fun h => ?_, fun j => ?_⟩
    · simp only [World.linkNative?, Array.getElem?_push] at h
      split at h
      · cases h
        exact hn
      · exact hm.linked h
    · exact World.realm_modifyRealm (P := fun r => ∀ {serial id},
        (NativeKey.made serial, id) ∈ r.bridges.entries → serial < w.nextNative) (hm.cached j) id

/-! ## Throwing -/

/-- What is thrown is a bridge over an error that the runtime has made since. -/
def Raised (start : Nat) (c : Completion) (w : World E) : Prop :=
  ∃ id serial name message, c = .thrown (.bridge id) ∧
    w.bridgeNative? id = some (.error serial name message) ∧
    start ≤ serial ∧ serial < w.nextNative

omit [Embedding E] in
theorem Raised.mono {start start' : Nat} {c : Completion} (h : Raised start' c w)
    (hle : start ≤ start') : Raised start c w := by
  obtain ⟨id, serial, name, message, hc, hn, hstart, hnext⟩ := h
  exact ⟨id, serial, name, message, hc, hn, Nat.le_trans hle hstart, hnext⟩

omit [Embedding E] in
theorem Raised.extend {start : Nat} {c : Completion} (h : Raised start c w)
    (hw : World.Extends w w') : Raised start c w' := by
  obtain ⟨id, serial, name, message, rfl, hn, hstart, hnext⟩ := h
  exact ⟨id, serial, name, message, rfl, hw.bridges hn, hstart, Nat.lt_of_lt_of_le hnext hw.next⟩

theorem later_scriptError (realm : RealmId) (name message : String) (w : World E) :
    k.Later w (w.scriptError realm name message).2 := by
  have herror : k.Later (w.collect []) ((w.collect []).newError name message).2 :=
    later_of_same rfl rfl (fun _ => rfl) (fun _ => rfl) (Nat.le_succ _)
  refine (later_collect [] w).trans (herror.trans (later_bridge realm ?_))
  intro serial hk
  cases hk
  exact Nat.lt_succ_self _

theorem Minted.scriptError (h : k.Minted w) (realm : RealmId) (name message : String) :
    Raised w.nextNative (w.scriptError realm name message).1
      (w.scriptError realm name message).2 := by
  have hl : k.Later w (w.collect []) := later_collect [] w
  generalize hw : w.collect [] = u at hl
  -- no cache has an entry with the serial number of the new error
  have hunknown : IdentityCache.lookup (u.newError name message).1.key
      ((u.newError name message).2.realm realm).bridges.entries = none := by
    have hkey : (u.newError name message).1.key = .made u.nextNative := rfl
    rw [hkey]
    cases hlookup : IdentityCache.lookup (.made u.nextNative)
        ((u.newError name message).2.realm realm).bridges.entries with
    | none => rfl
    | some id =>
      have hlt : u.nextNative < u.nextNative :=
        (hl.minted h).cached realm (IdentityCache.mem_of_lookup hlookup)
      exact absurd hlt (Nat.lt_irrefl _)
  simp only [World.scriptError, hw]
  rw [Ward.bridge_of_unknown hunknown]
  refine ⟨u.bridges.size, u.nextNative, name, message, rfl, ?_, hl.extension.next,
    Nat.lt_succ_self _⟩
  simp only [World.bridgeNative?, World.newError, Array.getElem?_push_size, Option.map_some]

theorem later_hostError (realm : RealmId) (e : HostError) (w : World E) :
    k.Later w (w.hostError realm e).2 := by
  cases e <;> exact later_scriptError realm _ _ w

theorem Minted.hostError (h : k.Minted w) (realm : RealmId) (e : HostError) :
    Raised w.nextNative (w.hostError realm e).1 (w.hostError realm e).2 := by
  cases e <;> exact h.scriptError realm _ _

/-! ## Entering a script -/

mutual

theorem later_fromHost (realm : RealmId) : ∀ (h : HostValue) {w : World E},
    h.Before w.nextNative → k.Later w (w.fromHost realm h).2
  | .undefined, w, _ | .null, w, _ | .boolean _, w, _ | .number _, w, _ => .refl w
  | .string s, w, _ => later_newText s w
  | .array items, w, hh =>
    (later_fromHostAll realm items (HostValue.before_array.mp hh)).trans (later_newArray _ _)
  | .object n, w, hh => by
    unfold World.fromHost
    split
    · exact .refl w
    · exact later_bridge realm (HostValue.before_object.mp hh)

theorem later_fromHostAll (realm : RealmId) : ∀ (hs : List HostValue) {w : World E},
    (∀ h ∈ hs, h.Before w.nextNative) → k.Later w (World.fromHostAll realm hs w).2
  | [], w, _ => .refl w
  | h :: rest, w, hhs => by
    have hl : k.Later w (w.fromHost realm h).2 := later_fromHost realm h (hhs h List.mem_cons_self)
    exact hl.trans (later_fromHostAll realm rest fun a ha =>
      hl.before (hhs a (List.mem_cons_of_mem h ha)))

end

mutual

theorem later_link (realm : RealmId) : ∀ (h : HostValue) {w : World E},
    h.Before w.nextNative → k.Later w (w.link realm h).2
  | .undefined, w, _ | .null, w, _ | .boolean _, w, _ | .number _, w, _ => .refl w
  | .string s, w, _ => later_newText s w
  | .array items, w, hh =>
    (later_linkAll realm items (HostValue.before_array.mp hh)).trans (later_newArray _ _)
  | .object n, w, hh => by
    unfold World.link
    split
    · exact .refl w
    · split
      · exact .refl w
      · exact later_newestLink realm (HostValue.before_object.mp hh)

theorem later_linkAll (realm : RealmId) : ∀ (hs : List HostValue) {w : World E},
    (∀ h ∈ hs, h.Before w.nextNative) → k.Later w (World.linkAll realm hs w).2
  | [], w, _ => .refl w
  | h :: rest, w, hhs => by
    have hl : k.Later w (w.link realm h).2 := later_link realm h (hhs h List.mem_cons_self)
    exact hl.trans (later_linkAll realm rest fun a ha =>
      hl.before (hhs a (List.mem_cons_of_mem h ha)))

end

/-- Without a realm no wrapper is made. -/
theorem later_fromHostIn_none (h : HostValue) (w : World E) :
    k.Later w (w.fromHostIn none h).2 :=
  (World.Admits.none .refl .trans later_newText later_newArray).fromHostIn h w

/-! ## Leaving for the host -/

theorem later_toHost (v : Value) (w : World E) : k.Later w (w.toHost v).2 :=
  World.related_toHostWithin .refl .trans later_newBookmark w.arrays.size v w

theorem later_toHostList (vs : List Value) (w : World E) : k.Later w (w.toHostList vs).2 :=
  World.related_toHostAll .refl .trans later_toHost vs w

omit [Embedding E] in
theorem before_nativeValue {n? : Option Native} {next : Nat}
    (h : ∀ {n}, n? = some n → n.Before next) : (World.nativeValue n?).Before next := by
  cases n? with
  | none => exact HostValue.before_plain rfl
  | some n => exact HostValue.before_object.mpr (h rfl)

theorem Minted.before_toHostAll {convert : Value → World E → Option HostValue × World E}
    (hl : ∀ v w, k.Later w (convert v w).2)
    (hc : ∀ {v w h}, k.Minted w → (convert v w).1 = some h → h.Before (convert v w).2.nextNative)
    (h : k.Minted w) {vs : List Value} {as : List HostValue}
    (he : (World.toHostAll convert vs w).1 = some as) :
    ∀ a ∈ as, a.Before (World.toHostAll convert vs w).2.nextNative := by
  induction vs generalizing w as with
  | nil =>
    cases he
    exact fun a ha => by cases ha
  | cons v rest ih =>
    have hv : k.Later w (convert v w).2 := hl v w
    have hfirst {a : HostValue} (ha : (convert v w).1 = some a) :
        a.Before (convert v w).2.nextNative := hc h ha
    cases hr : convert v w with
    | mk first w₁ =>
      rw [hr] at hv hfirst
      cases first with
      | none =>
        simp only [World.toHostAll, hr] at he
        cases he
      | some a =>
        have hnext : k.Later w₁ (World.toHostAll convert rest w₁).2 :=
          World.related_toHostAll .refl .trans hl rest w₁
        have hrest {as : List HostValue} (has : (World.toHostAll convert rest w₁).1 = some as) :
            ∀ b ∈ as, b.Before (World.toHostAll convert rest w₁).2.nextNative :=
          ih (hv.minted h) has
        cases hr' : World.toHostAll convert rest w₁ with
        | mk others w₂ =>
          rw [hr'] at hnext hrest
          simp only [World.toHostAll, hr, hr'] at he ⊢
          cases others with
          | none => cases he
          | some as =>
            cases he
            exact List.forall_mem_cons.mpr ⟨hnext.before (hfirst rfl), hrest rfl⟩

/-- A value that is no array crosses at any depth. -/
theorem Minted.before_toHost_single (h : k.Minted w) {v : Value} (hv : ∀ id, v ≠ .array id)
    {depth : Nat} {a : HostValue} (he : (World.toHostWithin depth v w).1 = some a) :
    a.Before (World.toHostWithin depth v w).2.nextNative := by
  cases v with
  | primitive p => cases p <;> simp only [World.toHostWithin] at he <;> cases he <;>
      exact HostValue.before_plain rfl
  | object id =>
    simp only [World.toHostWithin] at he ⊢
    cases he
    refine HostValue.before_object.mpr fun serial hk => ?_
    cases hk
    exact Nat.lt_succ_self _
  | array id => exact absurd rfl (hv id)
  | bridge id =>
    simp only [World.toHostWithin] at he ⊢
    cases he
    exact before_nativeValue h.bridged
  | link id =>
    simp only [World.toHostWithin] at he ⊢
    cases he
    exact before_nativeValue h.linked

theorem Minted.before_toHostWithin (depth : Nat) {v : Value} {w : World E} {a : HostValue}
    (h : k.Minted w) (he : (World.toHostWithin depth v w).1 = some a) :
    a.Before (World.toHostWithin depth v w).2.nextNative := by
  induction depth generalizing v w a with
  | zero =>
    cases v with
    | array id => cases he
    | _ => exact h.before_toHost_single (fun _ hid => by cases hid) he
  | succ depth ih =>
    cases v with
    | array id =>
      have hall (vs : List Value) (as : List HostValue)
          (has : (World.toHostAll (World.toHostWithin depth) vs w).1 = some as) :
          ∀ b ∈ as, b.Before (World.toHostAll (World.toHostWithin depth) vs w).2.nextNative :=
        h.before_toHostAll (World.related_toHostWithin .refl .trans later_newBookmark depth) ih has
      have helements := hall (w.array id).elements.toList
      unfold World.toHostWithin at he ⊢
      split at he
      · cases he
      · next items w' hr =>
        cases he
        simp only [hr] at helements ⊢
        exact HostValue.before_array.mpr (helements items rfl)
    | _ => exact h.before_toHost_single (fun _ hid => by cases hid) he

theorem Minted.before_toHost (h : k.Minted w) {v : Value} {a : HostValue}
    (he : (w.toHost v).1 = some a) : a.Before (w.toHost v).2.nextNative :=
  before_toHostWithin w.arrays.size h he

theorem Minted.before_toHostList (h : k.Minted w) {vs : List Value} {as : List HostValue}
    (he : (w.toHostList vs).1 = some as) : ∀ a ∈ as, a.Before (w.toHostList vs).2.nextNative :=
  h.before_toHostAll later_toHost (fun hm => hm.before_toHost) he

/-! ## Methods of a host object -/

/-- A method of the embedding after which its state still knows nothing new. -/
theorem later_hosted {α : Type} {f : E → α × E}
    (hf : k.knows w.embedding w.nextNative → k.knows (f w.embedding).2 w.nextNative) :
    k.Later w (w.hosted f).2 :=
  ⟨.of_eq rfl (Nat.le_refl _), fun hm => ⟨hf hm.hosts, hm.bridged, hm.linked, hm.cached⟩⟩

theorem later_getProperty (n : Native) (name : String) (w : World E) :
    k.Later w (w.getProperty n name).2 := by
  cases n with
  | error serial errorName message =>
    obtain ⟨v, -, hv⟩ := World.getProperty_error (E := E) serial errorName message name
    rw [hv]
    exact .refl w
  | bookmark serial target => exact .refl w
  | hosted id => exact later_hosted fun hk => (k.get id name hk).1

theorem Minted.before_getProperty (h : k.Minted w) {n : Native} {name : String} {a : HostValue}
    (he : (w.getProperty n name).1 = .ok a) : a.Before (w.getProperty n name).2.nextNative := by
  cases n with
  | error serial errorName message =>
    obtain ⟨v, hplain, hv⟩ := World.getProperty_error (E := E) serial errorName message name
    rw [hv] at he ⊢
    cases he
    rcases hplain with rfl | ⟨s, rfl⟩ <;> exact HostValue.before_plain rfl
  | bookmark serial target =>
    cases he
    exact HostValue.before_plain rfl
  | hosted id => exact (k.get id name h.hosts).2 he

theorem later_setProperty (n : Native) (name : String) {value : HostValue}
    (hv : value.Before w.nextNative) : k.Later w (w.setProperty n name value).2 := by
  cases n with
  | hosted id => exact later_hosted fun hk => k.set id name value hk hv
  | _ => exact .refl w

theorem later_deleteProperty (n : Native) (name : String) (w : World E) :
    k.Later w (w.deleteProperty n name).2 := by
  cases n with
  | hosted id => exact later_hosted fun hk => k.delete id name hk
  | _ => exact .refl w

theorem later_callNative (n : Native) {receiver : HostValue} {args : List HostValue}
    (hr : receiver.Before w.nextNative) (ha : ∀ a ∈ args, a.Before w.nextNative) :
    k.Later w (w.callNative n receiver args).2 := by
  cases n with
  | hosted id => exact later_hosted fun hk => (k.call id receiver args hk hr ha).1
  | _ => exact .refl w

theorem Minted.before_callNative (h : k.Minted w) {n : Native} {receiver : HostValue}
    {args : List HostValue} (hr : receiver.Before w.nextNative)
    (ha : ∀ a ∈ args, a.Before w.nextNative) {a : HostValue}
    (he : (w.callNative n receiver args).1 = .ok a) :
    a.Before (w.callNative n receiver args).2.nextNative := by
  cases n with
  | hosted id => exact (k.call id receiver args h.hosts hr ha).2 he
  | _ => cases he

theorem later_hostPrimitive (n : Native) (w : World E) : k.Later w (w.hostPrimitive n).2 := by
  have hform : k.Later w (w.primitiveForm n).2 := by
    cases n with
    | hosted id => exact later_hosted fun hk => k.primitive id hk
    | _ => exact .refl w
  unfold World.hostPrimitive
  split
  · next w' hr =>
    rw [hr] at hform
    exact hform.trans (later_newText _ w')
  · next h w' hr =>
    rw [hr] at hform
    have halone := hform.trans (later_fromHostIn_none h w')
    split
    · next p w'' hr' =>
      rw [hr'] at halone
      exact halone
    · next w'' _ hr' =>
      rw [hr'] at halone
      exact halone.trans (later_newText _ w'')

end Provenance

/-! ## Records -/

namespace Session

/-- What the records of a session hold was made before the number. -/
def Knows (s : Session) (next : Nat) : Prop := ∀ id, ∀ h ∈ (s.record id).held, h.Before next

theorem Knows.onRecord {α : Type} {s : Session} {next : Nat} (h : s.Knows next) {id : HostId}
    {f : Record → α × Record} (hf : ∀ a ∈ (f (s.record id)).2.held, a.Before next) :
    Knows (onRecord id f s).2 next := by
  intro host a ha
  rw [record_onRecord] at ha
  split at ha
  · next hid => exact hf a (hid.1 ▸ ha)
  · exact h host a ha

/-- Records have nothing that the runtime made but what they were given. -/
def provenance : Provenance Session where
  knows := Knows
  mono hle h id a ha := (h id a ha).mono hle
  get id name h := by
    refine ⟨h, fun hr => ?_⟩
    rcases Record.get_held hr with hheld | rfl
    · exact h id _ hheld
    · exact HostValue.before_plain rfl
  set id name value h hv := by
    refine h.onRecord fun a ha => ?_
    rcases Record.held_set ha with ha | rfl
    · exact h id a ha
    · exact hv
  delete id name h := h.onRecord fun a ha => h id a (Record.held_delete ha)
  call id receiver args h hreceiver hargs := by
    have harray : (HostValue.array args).Before _ := HostValue.before_array.mpr hargs
    refine ⟨h.onRecord fun a ha => ?_, fun hr => ?_⟩
    · rcases Record.held_call ha with ha | rfl
      · exact h id a ha
      · exact harray
    · rcases Record.call_held hr with hheld | rfl | rfl | rfl
      · exact h id _ hheld
      · exact hreceiver
      · exact harray
      · exact HostValue.before_plain rfl
  primitive _ h := h

end Session

end ScriptSandbox
