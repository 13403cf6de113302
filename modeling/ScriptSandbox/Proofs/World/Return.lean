import ScriptSandbox.Proofs.World.Lineage

/-
  Trips through the host.

  A value that leaves for the host and comes back, and a host value that comes in and leaves again,
  go through two conversions, which meet here at what `Corresponds` says: a host value and a script
  value have one shape and the same primitives, and a relation holds between the host objects of the
  one and the values at their places in the other. On the way out every host object is one that
  brings its value back (`Found`), because it is a bookmark or because the cache has the wrapper. On
  the way in every value is a wrapper of its host object (`Wraps`).

  Bridges and links go the same way, and so both are treated as one, as wrappers of a kind.
-/

namespace ScriptSandbox

mutual

/-- Two host values of the same shape, with the same primitives and the very same host objects. -/
def HostValue.SameAs : HostValue → HostValue → Prop
  | .array items, .array items' => SameAll items items'
  | .object n, .object n' => n.key = n'.key
  | h, h' => h = h'

def HostValue.SameAll : List HostValue → List HostValue → Prop
  | [], [] => True
  | h :: rest, h' :: rest' => h.SameAs h' ∧ SameAll rest rest'
  | _, _ => False

end

namespace World

open Relation

variable {E : Type} {k : WrapperKind} {w w' w'' : World E} {realm : RealmId} {n : Native}
  {v u : Value} {h : HostValue} {depth : Nat}

/-! ## Coming in -/

/-- A host value as a script value with wrappers of a kind for its host objects. -/
def bring (k : WrapperKind) (realm : RealmId) (h : HostValue) (w : World E) : Value × World E :=
  match k with
  | .bridge => w.fromHost realm h
  | .link => w.link realm h

def bringAll (k : WrapperKind) (realm : RealmId) (hs : List HostValue) (w : World E) :
    List Value × World E :=
  match k with
  | .bridge => fromHostAll realm hs w
  | .link => linkAll realm hs w

/-- The host object is no bookmark and, for a link, has no well-known value. -/
structure Plain (w : World E) (k : WrapperKind) (realm : RealmId) (n : Native) : Prop where
  unmarked : n.bookmarked? = none
  unregistered : k = .link → w.wellKnown? realm n = none

theorem bring_string (k : WrapperKind) (realm : RealmId) (s : String) (w : World E) :
    w.bring k realm (.string s) = w.newString s := by cases k <;> rfl

theorem bring_array (k : WrapperKind) (realm : RealmId) (items : List HostValue) (w : World E) :
    w.bring k realm (.array items) =
      (w.bringAll k realm items).2.newArray (w.bringAll k realm items).1.toArray := by
  cases k <;> rfl

theorem bringAll_cons (k : WrapperKind) (realm : RealmId) (h : HostValue) (rest : List HostValue)
    (w : World E) :
    w.bringAll k realm (h :: rest) =
      ((w.bring k realm h).1 :: ((w.bring k realm h).2.bringAll k realm rest).1,
        ((w.bring k realm h).2.bringAll k realm rest).2) := by
  cases k <;> rfl

theorem bring_plain (hp : w.Plain k realm n) :
    w.bring k realm (.object n) = w.wrap k realm n := by
  cases k with
  | bridge => simp only [bring, fromHost, hp.unmarked, wrap]
  | link => simp only [bring, link, hp.unregistered rfl, hp.unmarked, wrap]

theorem bring_bookmark (hm : n.bookmarked? = some v) (hn : w.wellKnown? realm n = none) :
    w.bring k realm (.object n) = (v, w) := by
  cases k with
  | bridge => simp only [bring, fromHost, hm]
  | link => simp only [bring, link, hn, hm]

/-! ## Going out -/

theorem value_ne_array (k : WrapperKind) (i : Nat) (id : ArrayId) : k.value i ≠ .array id := by
  cases k <;> rintro ⟨⟩

theorem toHostWithin_value (k : WrapperKind) (id depth : Nat) (w : World E) :
    toHostWithin depth (k.value id) w =
      (some (nativeValue ((w.wrapper? k id).map (·.native))), w) := by
  cases k with
  | bridge =>
    simp only [WrapperKind.value, toHostWithin, wrapper?, bridgeNative?, Option.map_map]
    rfl
  | link =>
    simp only [WrapperKind.value, toHostWithin, wrapper?, linkNative?, Option.map_map]
    rfl

/-- Nothing but the numbers of bookmarks is used up. -/
structure Reads (w w' : World E) : Prop extends Neutral w w' where
  arrays : w'.arrays = w.arrays

namespace Reads

theorem refl (w : World E) : Reads w w := ⟨.refl w, rfl⟩

theorem trans (h : Reads w w') (h' : Reads w' w'') : Reads w w'' :=
  ⟨h.toNeutral.trans h'.toNeutral, h'.arrays.trans h.arrays⟩

theorem array (h : Reads w w') (id : ArrayId) : w'.array id = w.array id := by
  rw [World.array, World.array, h.arrays]

end Reads

theorem reads_toHostWithin {h? : Option HostValue} (ht : toHostWithin depth v w = (h?, w')) :
    Reads w w' := by
  have hreads := related_toHostWithin (R := Reads) .refl .trans
    (fun _ _ => ⟨.of_eq rfl rfl rfl (Nat.le_succ _), rfl⟩) depth v w
  rwa [ht] at hreads

/-- Values leave one after the other. -/
theorem toHostAll_cons_eq_some {convert : Value → World E → Option HostValue × World E}
    {vs : List Value} {hs : List HostValue} (ht : toHostAll convert (v :: vs) w = (some hs, w'')) :
    ∃ h w' rest, convert v w = (some h, w') ∧ toHostAll convert vs w' = (some rest, w'') ∧
      hs = h :: rest := by
  unfold toHostAll at ht
  split at ht
  · cases ht
  · next h w' hfirst =>
    split at ht
    · cases ht
    · next rest w₂ hrest =>
      cases ht
      exact ⟨h, w', rest, hfirst, hrest, rfl⟩

/-- An array leaves when its elements do, one level further down. -/
theorem toHostWithin_array_eq_some {id : ArrayId}
    (ht : toHostWithin depth (.array id) w = (some h, w'')) :
    ∃ below items, depth = below + 1 ∧
      toHostAll (toHostWithin below) (w.array id).elements.toList w = (some items, w'') ∧
        h = .array items := by
  cases depth with
  | zero =>
    simp only [toHostWithin] at ht
    cases ht
  | succ below =>
    rw [toHostWithin] at ht
    split at ht
    · cases ht
    · next items w' hall =>
      cases ht
      exact ⟨below, items, rfl, hall, rfl⟩

/-- All arrays inside the value exist, and none of them contains itself. -/
inductive Founded (w : World E) : Value → Prop
  | leaf {v : Value} (h : ∀ id, v ≠ .array id) : Founded w v
  | array {id : ArrayId} (there : id < w.arrays.size)
    (elements : ∀ v ∈ (w.array id).elements, Founded w v) : Founded w (.array id)

namespace Founded

theorem element (hv : w.Founded v) (h : w.HasElement v u) : w.Founded u := by
  obtain ⟨id, rfl, hu⟩ := h
  cases hv with
  | leaf h => exact absurd rfl (h id)
  | array _ elements => exact elements u hu

theorem inHeap (hv : w.Founded v) : w.InHeap v := by
  rintro id rfl
  cases hv with
  | leaf h => exact absurd rfl (h id)
  | array there _ => exact there

theorem reach (hv : w.Founded v) (h : ReflTransGen w.HasElement v u) : w.Founded u := by
  induction h with
  | refl => exact hv
  | tail _ h ih => exact ih.element h

theorem not_endless (hv : w.Founded v) : ¬ w.Endless v := by
  induction hv with
  | leaf h =>
    intro hendless
    obtain ⟨u, ⟨id, rfl, -⟩, -⟩ := hendless.element
    exact h id rfl
  | array _ _ ih =>
    intro hendless
    obtain ⟨u, ⟨id, hid, hu⟩, hrest⟩ := hendless.element
    cases hid
    exact ih u hu hrest

/-- A founded value has a host form. -/
theorem exists_toHost (hv : w.Founded v) : ∃ h w', w.toHost v = (some h, w') := by
  cases hc : w.toHost v with
  | mk h? w' =>
    cases h? with
    | some h => exact ⟨h, w', rfl⟩
    | none =>
      have hdeep : w.Deep w.arrays.size v :=
        (toHostWithin_eq_none_iff _ v w).mp (congrArg Prod.fst hc)
      exact absurd (hdeep.endless fun u hu => (hv.reach hu).inHeap) hv.not_endless

end Founded

/-! ## Host values and script values -/

mutual

/-- In the world the value has the shape and the primitives of the host value, all its arrays exist,
    and what stands for a host object in it is no array and is as `P` says. -/
def Corresponds (w : World E) (P : Native → Value → Prop) : HostValue → Value → Prop
  | .undefined, v => v = .undefined
  | .null, v => v = .null
  | .boolean b, v => v = .boolean b
  | .number n, v => v = .number n
  | .string s, v => ∃ t : Text, v = .string t ∧ t.content = s
  | .array items, v => ∃ id, v = .array id ∧ id < w.arrays.size ∧
    CorrespondAll w P items (w.array id).elements.toList
  | .object n, v => (∀ id, v ≠ .array id) ∧ P n v

def CorrespondAll (w : World E) (P : Native → Value → Prop) : List HostValue → List Value → Prop
  | [], [] => True
  | h :: rest, v :: vs => Corresponds w P h v ∧ CorrespondAll w P rest vs
  | _, _ => False

end

mutual

theorem founded_of_corresponds {P : Native → Value → Prop} : ∀ (h : HostValue) {v : Value},
    Corresponds w P h v → w.Founded v
  | .undefined, _, rfl | .null, _, rfl | .boolean _, _, rfl | .number _, _, rfl => .leaf nofun
  | .string _, _, ⟨_, rfl, _⟩ => .leaf nofun
  | .array items, _, ⟨_, rfl, there, hall⟩ =>
    .array there fun v hv => founded_of_correspondAll items hall v (Array.mem_toList_iff.mpr hv)
  | .object _, _, ⟨hv, _⟩ => .leaf hv

theorem founded_of_correspondAll {P : Native → Value → Prop} : ∀ (hs : List HostValue)
    {vs : List Value}, CorrespondAll w P hs vs → ∀ v ∈ vs, w.Founded v
  | [], [], _, _, hv => nomatch hv
  | h :: rest, u :: us, ⟨hfirst, hrest⟩, v, hv => by
    rcases List.mem_cons.mp hv with rfl | hv
    · exact founded_of_corresponds h hfirst
    · exact founded_of_correspondAll rest hrest v hv

end

/-! ## Out and back -/

/-- Values that survive a trip through the host: primitives, script objects, live wrappers of the
    realm over plain host objects, and arrays of these that nest to an end. -/
inductive Portable (w : World E) (k : WrapperKind) (realm : RealmId) : Value → Prop
  | primitive (p : Primitive) : Portable w k realm (.primitive p)
  | object (id : ObjectId) : Portable w k realm (.object id)
  | wrapper {id : Nat} {x : WrapperCore} (there : w.wrapper? k id = some x) (live : x.live = true)
    (home : x.realm = realm) (plain : w.Plain k realm x.native) : Portable w k realm (k.value id)
  | array {id : ArrayId} (there : id < w.arrays.size)
    (elements : ∀ v ∈ (w.array id).elements, Portable w k realm v) : Portable w k realm (.array id)

theorem Portable.founded (hv : w.Portable k realm v) : w.Founded v := by
  induction hv with
  | primitive p => exact .leaf nofun
  | object id => exact .leaf nofun
  | wrapper there live home plain => exact .leaf (value_ne_array k _)
  | array there _ ih => exact .array there ih

/-- As long as wrappers and realms stay what they are, the host object comes in as the value. -/
def Found (w : World E) (k : WrapperKind) (realm : RealmId) (n : Native) (v : Value) : Prop :=
  ∀ w', Neutral w w' → w'.bring k realm (.object n) = (v, w')

theorem Orderly.found_bookmark (ho : w.Orderly) {serial : Nat} (hs : w.nextNative ≤ serial)
    (v : Value) : w.Found k realm (.bookmark serial v) v := fun w' hn => by
  have hnone : w.wellKnown? realm (.bookmark serial v) = none :=
    ho.wellKnown?_eq_none realm rfl hs
  exact bring_bookmark rfl ((hn.wellKnown? realm _).trans hnone)

theorem Orderly.found_wrapper (ho : w.Orderly) {id : Nat} {x : WrapperCore}
    (hx : w.wrapper? k id = some x) (hl : x.live = true) (hp : w.Plain k x.realm x.native) :
    w.Found k x.realm x.native (k.value id) := fun w' hn => by
  have hp' : w'.Plain k x.realm x.native :=
    ⟨hp.unmarked, fun hk => (hn.wellKnown? _ _).trans (hp.unregistered hk)⟩
  have hid : w'.wrapperOf? k x.realm x.native = some id :=
    (hn.wrapperOf? k _ _).trans ((ho.faithful k).wrapperOf?_eq hx hl rfl)
  rw [bring_plain hp', wrap_of_some hid]

theorem correspondAll_of_toHostAll {P : Native → Value → Prop} {vs : List Value}
    (hc : ∀ v ∈ vs, ∀ {w' h w''}, Reads w w' → toHostWithin depth v w' = (some h, w'') →
      Corresponds w P h v)
    {hs : List HostValue} (hr : Reads w w')
    (ht : toHostAll (toHostWithin depth) vs w' = (some hs, w'')) : CorrespondAll w P hs vs := by
  induction vs generalizing w' hs with
  | nil =>
    cases ht
    trivial
  | cons v rest ih =>
    obtain ⟨h, w₁, hs', hfirst, hrest, rfl⟩ := toHostAll_cons_eq_some ht
    refine ⟨hc v List.mem_cons_self hr hfirst, ?_⟩
    exact ih (fun u hu => hc u (List.mem_cons_of_mem v hu))
      (hr.trans (reads_toHostWithin hfirst)) hrest

/-- What a portable value leaves as, brings it back. -/
theorem Portable.corresponds (ho : w.Orderly) (hv : w.Portable k realm v)
    (hr : Reads w w') (ht : toHostWithin depth v w' = (some h, w'')) :
    Corresponds w (w.Found k realm) h v := by
  induction hv generalizing depth h w' w'' with
  | primitive p =>
    cases p with
    | string t =>
      simp only [toHostWithin] at ht
      cases ht
      exact ⟨t, rfl, rfl⟩
    | _ =>
      simp only [toHostWithin] at ht
      cases ht
      rfl
  | object id =>
    simp only [toHostWithin] at ht
    cases ht
    exact ⟨fun _ => Value.noConfusion, ho.found_bookmark hr.next _⟩
  | @wrapper id x there live home plain =>
    rw [toHostWithin_value, hr.wrappers, there] at ht
    cases ht
    subst home
    exact ⟨value_ne_array k id, ho.found_wrapper there live plain⟩
  | @array id there _ ih =>
    obtain ⟨below, items, rfl, hall, rfl⟩ := toHostWithin_array_eq_some ht
    rw [hr.array] at hall
    refine ⟨id, rfl, there, correspondAll_of_toHostAll (fun v hv => ?_) hr hall⟩
    exact ih v (Array.mem_toList_iff.mp hv)

/-- Arrays are added, and those that there were are not changed. -/
structure KeepsArrays (w w' : World E) : Prop where
  size : w.arrays.size ≤ w'.arrays.size
  array : ∀ {id}, id < w.arrays.size → w'.array id = w.array id

theorem KeepsArrays.of_eq (h : w'.arrays = w.arrays) : KeepsArrays w w' :=
  ⟨Nat.le_of_eq (congrArg Array.size h.symm), fun _ => by rw [World.array, World.array, h]⟩

theorem KeepsArrays.trans (h : KeepsArrays w w') (h' : KeepsArrays w' w'') : KeepsArrays w w'' :=
  ⟨Nat.le_trans h.size h'.size, fun hid =>
    (h'.array (Nat.lt_of_lt_of_le hid h.size)).trans (h.array hid)⟩

theorem array_newArray_self (elements : Array Value) (w : World E) :
    (w.newArray elements).2.array w.arrays.size = ⟨elements, false⟩ := by
  simp only [World.array, newArray, Array.getElem?_push_size, Option.getD_some]

theorem keepsArrays_newArray (elements : Array Value) (w : World E) :
    KeepsArrays w (w.newArray elements).2 := by
  refine ⟨by simp [newArray], fun {id} hid => ?_⟩
  simp only [World.array, newArray, Array.getElem?_push, Nat.ne_of_lt hid, if_false]

/-- The value is the other one as it came back: the same thing, a string with the same characters,
    or a new array of the same length with elements that came back. -/
inductive Returns (w w' : World E) : Value → Value → Prop
  | same {v : Value} (h : ∀ id, v ≠ .array id) : Returns w w' v v
  | text {t t' : Text} (h : t'.content = t.content) : Returns w w' (.string t) (.string t')
  | array {id id' : ArrayId} (new : w.arrays.size ≤ id') (there : id' < w'.arrays.size)
    (length : (w'.array id').elements.size = (w.array id).elements.size)
    (elements : ∀ {i : Nat} {u u'}, (w.array id).elements[i]? = some u →
      (w'.array id').elements[i]? = some u' → Returns w w' u u') :
    Returns w w' (.array id) (.array id')

theorem Returns.mono {u : Value} (h : Returns w w' v u) (hk : KeepsArrays w' w'') :
    Returns w w'' v u := by
  induction h with
  | same h => exact .same h
  | text h => exact .text h
  | array new there length _ ih =>
    have hkept := hk.array there
    refine .array new (Nat.lt_of_lt_of_le there hk.size) (by rw [hkept, length]) fun hu hu' => ?_
    rw [hkept] at hu'
    exact ih hu hu'

/-- Texts and arrays are all that is new. -/
structure OnlyAdds (w w' : World E) : Prop extends Neutral w w', KeepsArrays w w'

theorem OnlyAdds.refl (w : World E) : OnlyAdds w w := ⟨.refl w, .of_eq rfl⟩

theorem OnlyAdds.trans (h : OnlyAdds w w') (h' : OnlyAdds w' w'') : OnlyAdds w w'' :=
  ⟨h.toNeutral.trans h'.toNeutral, h.toKeepsArrays.trans h'.toKeepsArrays⟩

theorem newString_eq (s : String) (w : World E) :
    ∃ t : Text, (w.newString s).1 = .string t ∧ t.content = s ∧ OnlyAdds w (w.newString s).2 := by
  have harrays : (w.newString s).2.arrays = w.arrays := by
    simp only [newString, newText]
    split <;> rfl
  have hcontent : (w.newText s).1.content = s := by
    unfold newText
    split
    · next hs => exact hs.symm
    · rfl
  exact ⟨_, rfl, hcontent, neutral_newText s w, .of_eq harrays⟩

theorem onlyAdds_newArray (elements : Array Value) (w : World E) :
    OnlyAdds w (w.newArray elements).2 :=
  ⟨.of_eq rfl rfl rfl (Nat.le_refl _), keepsArrays_newArray elements w⟩

mutual

/-- Where every host object brings its value back, the whole value comes back. -/
theorem returns_bring : ∀ (h : HostValue) {w' : World E} {v : Value},
    Corresponds w (w.Found k realm) h v → OnlyAdds w w' →
    Returns w (w'.bring k realm h).2 v (w'.bring k realm h).1 ∧ OnlyAdds w' (w'.bring k realm h).2
  | .undefined, _, _, rfl, _ | .null, _, _, rfl, _ | .boolean _, _, _, rfl, _
  | .number _, _, _, rfl, _ => by cases k <;> exact ⟨.same nofun, .refl _⟩
  | .string s, w', _, ⟨t, rfl, ht⟩, _ => by
    obtain ⟨t', hv, ht', hadds⟩ := newString_eq s w'
    rw [bring_string, hv]
    exact ⟨.text (ht'.trans ht.symm), hadds⟩
  | .array items, w', _, ⟨id, rfl, there, hall⟩, hg => by
    obtain ⟨hreturns, hadds⟩ := returns_bringAll items hall hg
    generalize hw₁ : (w'.bringAll k realm items).2 = w₁ at hreturns hadds
    have hnew := onlyAdds_newArray (w'.bringAll k realm items).1.toArray w₁
    rw [bring_array, hw₁]
    refine ⟨.array (hg.trans hadds).size ?_ ?_ fun {i u u'} hu hu' => ?_, hadds.trans hnew⟩
    · simp only [newArray, Array.size_push, Nat.lt_succ_self]
    · rw [array_newArray_self, List.size_toArray, ← Array.length_toList, hreturns.length_eq]
    · rw [array_newArray_self, List.getElem?_toArray] at hu'
      rw [← Array.getElem?_toList] at hu
      obtain ⟨hi, rfl⟩ := List.getElem?_eq_some_iff.mp hu
      obtain ⟨hi', rfl⟩ := List.getElem?_eq_some_iff.mp hu'
      exact (hreturns.get hi hi').mono hnew.toKeepsArrays
  | .object n, w', v, ⟨hv, hfound⟩, hg => by
    rw [hfound w' hg.toNeutral]
    exact ⟨.same hv, .refl w'⟩

theorem returns_bringAll : ∀ (hs : List HostValue) {w' : World E} {vs : List Value},
    CorrespondAll w (w.Found k realm) hs vs → OnlyAdds w w' →
    List.Forall₂ (Returns w (w'.bringAll k realm hs).2) vs (w'.bringAll k realm hs).1 ∧
      OnlyAdds w' (w'.bringAll k realm hs).2
  | [], w', [], _, _ => by cases k <;> exact ⟨.nil, .refl w'⟩
  | h :: rest, w', v :: vs, ⟨hfirst, hrest⟩, hg => by
    obtain ⟨hv, hadds⟩ := returns_bring h hfirst hg
    obtain ⟨hvs, hadds'⟩ := returns_bringAll rest hrest (hg.trans hadds)
    rw [bringAll_cons]
    exact ⟨.cons (hv.mono hadds'.toKeepsArrays) hvs, hadds.trans hadds'⟩

end

/-! ## In and out again -/

/-- The value is a wrapper of the host object. -/
def Wraps (w : World E) (k : WrapperKind) (n : Native) (v : Value) : Prop :=
  ∃ id x, v = k.value id ∧ w.wrapper? k id = some x ∧ x.native.key = n.key

/-- A host value has come in: wrappers are kept, and nothing is registered. -/
structure Enters (w w' : World E) : Prop extends Continues w w', KeepsArrays w w' where
  wellKnown : ∀ r, (w'.realm r).wellKnown = (w.realm r).wellKnown
  next : w.nextNative ≤ w'.nextNative

theorem Enters.trans (h : Enters w w') (h' : Enters w' w'') : Enters w w'' where
  toContinues := h.toContinues.trans h'.toContinues
  toKeepsArrays := h.toKeepsArrays.trans h'.toKeepsArrays
  wellKnown r := (h'.wellKnown r).trans (h.wellKnown r)
  next := Nat.le_trans h.next h'.next

theorem OnlyAdds.enters (h : OnlyAdds w w') : Enters w w' :=
  ⟨h.continues, h.toKeepsArrays, h.wellKnown, h.next⟩

theorem enters_wrap (hr : realm < w.realms.size) (k : WrapperKind) (n : Native) :
    Enters w (w.wrap k realm n).2 where
  toContinues := continues_wrap hr k n
  toKeepsArrays := by
    cases hw : w.wrapperOf? k realm n with
    | some id =>
      rw [wrap_of_some hw]
      exact .of_eq rfl
    | none =>
      rw [wrap_of_none hw]
      cases k <;> exact .of_eq rfl
  wellKnown := wellKnown_wrap k realm n w
  next := Nat.le_of_eq (nextNative_wrap k realm n w).symm

theorem Enters.orderly (h : Enters w w') (ho : w.Orderly) : w'.Orderly :=
  ho.later h.toContinues ⟨fun r e he => by rwa [h.wellKnown] at he, h.next⟩

theorem Enters.plain (h : Enters w w') (hp : w.Plain k realm n) : w'.Plain k realm n where
  unmarked := hp.unmarked
  unregistered hk := by
    rw [wellKnown?, h.wellKnown]
    exact hp.unregistered hk

theorem Enters.wraps (h : Enters w w') (hw : w.Wraps k n v) : w'.Wraps k n v := by
  obtain ⟨id, x, rfl, hx, hkey⟩ := hw
  obtain ⟨live, hx', -⟩ := h.kept hx
  exact ⟨id, _, rfl, hx', hkey⟩

mutual

theorem Enters.corresponds (h : Enters w w') : ∀ (a : HostValue) {v : Value},
    Corresponds w (w.Wraps k) a v → Corresponds w' (w'.Wraps k) a v
  | .undefined, _, hv | .null, _, hv | .boolean _, _, hv | .number _, _, hv
  | .string _, _, hv => hv
  | .array items, _, ⟨id, hid, there, hall⟩ =>
    ⟨id, hid, Nat.lt_of_lt_of_le there h.size,
      h.array there ▸ h.correspondAll items hall⟩
  | .object _, _, ⟨hv, hw⟩ => ⟨hv, h.wraps hw⟩

theorem Enters.correspondAll (h : Enters w w') : ∀ (as : List HostValue) {vs : List Value},
    CorrespondAll w (w.Wraps k) as vs → CorrespondAll w' (w'.Wraps k) as vs
  | [], [], _ => trivial
  | a :: rest, _ :: _, ⟨hfirst, hrest⟩ => ⟨h.corresponds a hfirst, h.correspondAll rest hrest⟩

end

mutual

/-- A host value of plain host objects comes in with a wrapper for each of them. -/
theorem corresponds_bring : ∀ (h : HostValue) {w : World E}, w.Orderly → realm < w.realms.size →
    (∀ n ∈ h.natives, w.Plain k realm n) →
    Corresponds (w.bring k realm h).2 ((w.bring k realm h).2.Wraps k) h (w.bring k realm h).1 ∧
      Enters w (w.bring k realm h).2
  | .undefined, w, _, _, _ | .null, w, _, _, _ | .boolean _, w, _, _, _
  | .number _, w, _, _, _ => by
    cases k <;> exact ⟨rfl, (OnlyAdds.refl w).enters⟩
  | .string s, w, _, _, _ => by
    obtain ⟨t, hv, ht, hadds⟩ := newString_eq s w
    rw [bring_string]
    exact ⟨⟨t, hv, ht⟩, hadds.enters⟩
  | .array items, w, ho, hr, hp => by
    obtain ⟨hall, henters⟩ := correspondAll_bringAll items ho hr hp
    generalize hw₁ : (w.bringAll k realm items).2 = w₁ at hall henters
    have hnew := (onlyAdds_newArray (w.bringAll k realm items).1.toArray w₁).enters
    rw [bring_array, hw₁]
    refine ⟨⟨w₁.arrays.size, rfl, ?_, ?_⟩, henters.trans hnew⟩
    · simp only [newArray, Array.size_push, Nat.lt_succ_self]
    · rw [array_newArray_self]
      exact hnew.correspondAll items hall
  | .object n, w, ho, hr, hp => by
    obtain ⟨id, x, hv, hx, -, hkey, -⟩ := (ho.faithful k).wrap_value realm n
    rw [bring_plain (hp n List.mem_cons_self)]
    exact ⟨⟨hv ▸ value_ne_array k id, id, x, hv, hx, hkey⟩, enters_wrap hr k n⟩

theorem correspondAll_bringAll : ∀ (hs : List HostValue) {w : World E}, w.Orderly →
    realm < w.realms.size → (∀ n ∈ HostValue.nativesOfAll hs, w.Plain k realm n) →
    CorrespondAll (w.bringAll k realm hs).2 ((w.bringAll k realm hs).2.Wraps k) hs
        (w.bringAll k realm hs).1 ∧
      Enters w (w.bringAll k realm hs).2
  | [], w, _, _, _ => by cases k <;> exact ⟨trivial, (OnlyAdds.refl w).enters⟩
  | h :: rest, w, ho, hr, hp => by
    rw [HostValue.nativesOfAll, List.forall_mem_append] at hp
    obtain ⟨hv, henters⟩ := corresponds_bring h ho hr hp.1
    obtain ⟨hvs, henters'⟩ := correspondAll_bringAll rest (henters.orderly ho)
      (Nat.lt_of_lt_of_le hr henters.realms) fun n hn => henters.plain (hp.2 n hn)
    rw [bringAll_cons]
    exact ⟨⟨henters'.corresponds h hv, hvs⟩, henters.trans henters'⟩

end

mutual

/-- A value with a wrapper for each host object leaves with these host objects. -/
theorem sameAs_of_toHostWithin : ∀ (h : HostValue) {w' w'' : World E} {v : Value} {depth : Nat}
    {h' : HostValue}, Corresponds w (w.Wraps k) h v → Reads w w' →
    toHostWithin depth v w' = (some h', w'') → h'.SameAs h
  | .undefined, _, _, _, _, _, rfl, _, ht | .null, _, _, _, _, _, rfl, _, ht
  | .boolean _, _, _, _, _, _, rfl, _, ht | .number _, _, _, _, _, _, rfl, _, ht => by
    simp only [toHostWithin] at ht
    cases ht
    rfl
  | .string _, _, _, _, _, _, ⟨t, rfl, htext⟩, _, ht => by
    simp only [toHostWithin] at ht
    cases ht
    exact congrArg HostValue.string htext
  | .array items, _, _, _, _, _, ⟨id, rfl, there, hall⟩, hr, ht => by
    obtain ⟨below, items', rfl, hitems, rfl⟩ := toHostWithin_array_eq_some ht
    rw [hr.array] at hitems
    exact sameAll_of_toHostAll items hall hr hitems
  | .object n, _, _, _, _, _, ⟨_, id, x, rfl, hx, hkey⟩, hr, ht => by
    rw [toHostWithin_value, hr.wrappers, hx] at ht
    cases ht
    exact hkey

theorem sameAll_of_toHostAll : ∀ (hs : List HostValue) {w' w'' : World E} {vs : List Value}
    {depth : Nat} {hs' : List HostValue}, CorrespondAll w (w.Wraps k) hs vs → Reads w w' →
    toHostAll (toHostWithin depth) vs w' = (some hs', w'') → HostValue.SameAll hs' hs
  | [], _, _, [], _, _, _, _, ht => by
    cases ht
    trivial
  | h :: rest, _, _, v :: vs, _, _, ⟨hfirst, hrest⟩, hr, ht => by
    obtain ⟨h', w₁, rest', hconverts, hall, rfl⟩ := toHostAll_cons_eq_some ht
    exact ⟨sameAs_of_toHostWithin h hfirst hr hconverts,
      sameAll_of_toHostAll rest hrest (hr.trans (reads_toHostWithin hconverts)) hall⟩

end

/-! ## There and back -/

variable [Embedding E]

/-- In every world that comes about, values survive a trip through the host. A portable value leaves
    as a host value that comes in as the same script objects and wrappers, the same primitives, and
    new arrays that have the same elements in this sense. A host value without bookmarks and
    registered host objects comes in as a value that leaves with its shape and its primitives and
    with the very same host objects. Both hold for bridges as for links. -/
theorem values_return (hw : w.Arises) (k : WrapperKind) (realm : RealmId) :
    (∀ v, w.Portable k realm v → ∃ h w₁, w.toHost v = (some h, w₁) ∧
      Returns w (w₁.bring k realm h).2 v (w₁.bring k realm h).1) ∧
    (realm < w.realms.size → ∀ h : HostValue, (∀ n ∈ h.natives, w.Plain k realm n) →
      ∃ h' w₁, (w.bring k realm h).2.toHost (w.bring k realm h).1 = (some h', w₁) ∧
        h'.SameAs h) := by
  have ho := hw.orderly
  constructor
  · intro v hv
    obtain ⟨h, w₁, ht⟩ := hv.founded.exists_toHost
    have hreads : Reads w w₁ := reads_toHostWithin ht
    have hcorr := hv.corresponds ho (.refl w) ht
    exact ⟨h, w₁, ht, (returns_bring h hcorr ⟨hreads.toNeutral, .of_eq hreads.arrays⟩).1⟩
  · intro hr h hp
    obtain ⟨hcorr, -⟩ := corresponds_bring h ho hr hp
    obtain ⟨h', w₁, ht⟩ := (founded_of_corresponds h hcorr).exists_toHost
    exact ⟨h', w₁, ht, sameAs_of_toHostWithin h hcorr (.refl _) ht⟩

end World

namespace Session

open World

/-- The second array has the first one twice, and that has a text, a link and an object. -/
def luggageWorld : World Session :=
  { (WrapperEvent.wrap .link 0 (.hosted 0)).apply
      ((WrapperEvent.newRealm .allow).apply (World.empty (ofRecords #[]))) with
    objects := #[⟨∅, none, none⟩]
    arrays := #[⟨#[.string ⟨1, "note"⟩, .link 0, .object 0], false⟩,
      ⟨#[.array 0, .array 0, .null], false⟩] }

/-- An array comes back with its two equal elements, and a host array leaves with the host object
    that has a link and the one that had none. -/
theorem values_return_luggage :
    let w := luggageWorld
    let h : HostValue := .array [.object (.hosted 0), .array [.object (.hosted 1)]]
    w.Arises ∧ w.Portable .link 0 (.array 1) ∧
      (0 < w.realms.size ∧ ∀ n ∈ h.natives, w.Plain .link 0 n) ∧
      (∃ h w₁, w.toHost (.array 1) = (some h, w₁) ∧
        Returns w (w₁.bring .link 0 h).2 (.array 1) (w₁.bring .link 0 h).1) ∧
      ∃ h' w₁, (w.bring .link 0 h).2.toHost (w.bring .link 0 h).1 = (some h', w₁) ∧
        h'.SameAs h := by
  intro w h
  have harises : w.Arises :=
    (((Arises.empty _).event (.newRealm .allow) trivial).event (.wrap .link 0 (.hosted 0))
      trivial).neutral (.of_eq rfl rfl rfl (Nat.le_refl _))
  have hplain (id : HostId) : w.Plain .link 0 (.hosted id) := ⟨rfl, fun _ => rfl⟩
  have hinner : w.Portable .link 0 (.array 0) := by
    refine .array (by decide) fun v hv => ?_
    replace hv : v ∈ #[.string ⟨1, "note"⟩, .link 0, .object 0] := hv
    simp only [List.mem_toArray, List.mem_cons, List.not_mem_nil, or_false] at hv
    obtain rfl | rfl | rfl := hv
    · exact .primitive _
    · exact .wrapper (k := .link) rfl rfl rfl (hplain 0)
    · exact .object 0
  have hportable : w.Portable .link 0 (.array 1) := by
    refine .array (by decide) fun v hv => ?_
    replace hv : v ∈ #[.array 0, .array 0, .null] := hv
    simp only [List.mem_toArray, List.mem_cons, List.not_mem_nil, or_false] at hv
    obtain rfl | rfl | rfl := hv
    · exact hinner
    · exact hinner
    · exact .primitive .null
  have hnatives : ∀ n ∈ h.natives, w.Plain .link 0 n := by
    intro n hn
    obtain rfl | rfl : n = .hosted 0 ∨ n = .hosted 1 := by
      simpa [h, HostValue.natives, HostValue.nativesOfAll] using hn
    · exact hplain 0
    · exact hplain 1
  obtain ⟨hout, hin⟩ := values_return harises .link 0
  have hr : 0 < w.realms.size := by decide
  exact ⟨harises, hportable, ⟨hr, hnatives⟩, hout _ hportable, hin hr h hnatives⟩

end Session

end ScriptSandbox
