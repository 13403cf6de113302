import Mathlib.Data.List.Nodup
import ScriptSandbox.World.Liveness
import ScriptSandbox.World.Wrapping
import ScriptSandbox.Proofs.World.Cache
import ScriptSandbox.Proofs.World.Entry

/-
  Wrappers and the caches of realms.

  Bridges and links are made, found, lost and counted alike, so they are two kinds of one thing
  here. The caches are faithful for a kind when no host object has two entries in a realm, every
  entry names a wrapper of that realm and host object, and every live wrapper has its entry. Making
  a wrapper keeps them so (`continues_wrap`), and so does everything that makes none, as long as it
  takes no entry of a live wrapper away (`Fades.continues`). From one moment to a later one
  (`Continues`) a wrapper also keeps its realm and its host object and never comes back to life.
-/

namespace ScriptSandbox

/-- The kinds of wrappers. -/
inductive WrapperKind where
  | bridge
  | link
deriving DecidableEq, Repr

namespace WrapperKind

/-- The wrapper of a kind with a number. -/
def value : WrapperKind → Nat → Value
  | .bridge, id => .bridge id
  | .link, id => .link id

theorem value_inj {k k' : WrapperKind} {id id' : Nat} (h : k.value id = k'.value id') :
    k = k' ∧ id = id' := by
  cases k <;> cases k' <;> cases h <;> exact ⟨rfl, rfl⟩

end WrapperKind

/-- A wrapper without what was created through it. -/
structure WrapperCore where
  realm : RealmId
  native : Native
  live : Bool
deriving DecidableEq, Repr

/-- The cache of a realm for a kind of wrappers. -/
def Realm.cache (r : Realm) : WrapperKind → IdentityCache
  | .bridge => r.bridges
  | .link => r.links

namespace World

variable {E : Type} {k k' : WrapperKind} {w w' : World E} {realm : RealmId} {n : Native}

/-- A wrapper of a kind. -/
def wrapper? (w : World E) : WrapperKind → Nat → Option WrapperCore
  | .bridge, id => w.bridges[id]?.map fun b => ⟨b.realm, b.native, b.live⟩
  | .link, id => w.links[id]?.map fun l => ⟨l.realm, l.native, l.live⟩

/-- The number of wrappers that were made. -/
def wrapperCount (w : World E) : WrapperKind → Nat
  | .bridge => w.bridges.size
  | .link => w.links.size

def wrapperLive (w : World E) : WrapperKind → Nat → Bool
  | .bridge => w.bridgeLive
  | .link => w.linkLive

/-- The wrapper of a host object in a realm: the live one, or a new one. -/
def wrap (k : WrapperKind) (realm : RealmId) (n : Native) (w : World E) : Value × World E :=
  match k with
  | .bridge => w.bridge realm n
  | .link => w.newestLink realm n

/-- The number of live wrappers in the cache of a realm. -/
def cached (k : WrapperKind) (realm : RealmId) (w : World E) : Nat :=
  match k with
  | .bridge => w.cachedBridges realm
  | .link => w.cachedLinks realm

/-- The live wrappers of a realm. -/
def liveWrappers (k : WrapperKind) (realm : RealmId) (w : World E) : List Nat :=
  (List.range (w.wrapperCount k)).filter fun id =>
    (w.wrapper? k id).any fun x => x.live && x.realm == realm

theorem wrapperLive_eq (w : World E) (k : WrapperKind) (id : Nat) :
    w.wrapperLive k id = (w.wrapper? k id).any (·.live) := by
  cases k with
  | bridge =>
    simp only [wrapperLive, bridgeLive, wrapper?]
    cases w.bridges[id]? <;> rfl
  | link =>
    simp only [wrapperLive, linkLive, wrapper?]
    cases w.links[id]? <;> rfl

theorem wrapperLive_iff {id : Nat} :
    w.wrapperLive k id = true ↔ ∃ x, w.wrapper? k id = some x ∧ x.live = true := by
  rw [wrapperLive_eq, Option.any_eq_true]

theorem lt_wrapperCount {id : Nat} {x : WrapperCore} (h : w.wrapper? k id = some x) :
    id < w.wrapperCount k := by
  cases k with
  | bridge =>
    obtain ⟨b, hb, -⟩ := Option.map_eq_some_iff.mp h
    exact (Array.getElem?_eq_some_iff.mp hb).1
  | link =>
    obtain ⟨l, hl, -⟩ := Option.map_eq_some_iff.mp h
    exact (Array.getElem?_eq_some_iff.mp hl).1

theorem exists_wrapper {id : Nat} (h : id < w.wrapperCount k) :
    ∃ x, w.wrapper? k id = some x := by
  cases k with
  | bridge => exact ⟨_, congrArg (Option.map _) (Array.getElem?_eq_getElem h)⟩
  | link => exact ⟨_, congrArg (Option.map _) (Array.getElem?_eq_getElem h)⟩

theorem mem_liveWrappers {id : Nat} :
    id ∈ w.liveWrappers k realm ↔
      ∃ x, w.wrapper? k id = some x ∧ x.live = true ∧ x.realm = realm := by
  rw [liveWrappers, List.mem_filter, List.mem_range, Option.any_eq_true]
  simp only [Bool.and_eq_true, beq_iff_eq]
  constructor
  · rintro ⟨-, h⟩
    exact h
  · rintro ⟨x, hx, h⟩
    exact ⟨lt_wrapperCount hx, x, hx, h⟩

theorem nodup_liveWrappers (k : WrapperKind) (realm : RealmId) (w : World E) :
    (w.liveWrappers k realm).Nodup := List.nodup_range.filter _

theorem cached_eq (k : WrapperKind) (realm : RealmId) (w : World E) :
    w.cached k realm = ((w.realm realm).cache k).liveCount (w.wrapperLive k) := by
  cases k <;> rfl

/-- A realm that does not exist has nothing in its caches. -/
theorem entries_cache_of_le (h : w.realms.size ≤ realm) (k : WrapperKind) :
    ((w.realm realm).cache k).entries = [] := by
  have hnone : w.realms[realm]? = none := Array.getElem?_eq_none h
  rw [World.realm, hnone]
  cases k <;> rfl

/-! ## Faithful caches -/

/-- The caches of a kind have an entry for every live wrapper and no wrong one. -/
structure Faithful (k : WrapperKind) (w : World E) : Prop where
  distinct : ∀ r, ((w.realm r).cache k).Distinct
  keyed : ∀ {r key id}, (key, id) ∈ ((w.realm r).cache k).entries →
    ∃ x, w.wrapper? k id = some x ∧ x.realm = r ∧ x.native.key = key
  listed : ∀ {id x}, w.wrapper? k id = some x → x.live = true →
    (x.native.key, id) ∈ ((w.realm x.realm).cache k).entries

/-- A later moment: the caches are faithful if they were, and wrappers stay what they are, but for
    dying. -/
structure Continues (w w' : World E) : Prop where
  faithful : ∀ {k}, Faithful k w → Faithful k w'
  kept : ∀ {k id x}, w.wrapper? k id = some x →
    ∃ live, w'.wrapper? k id = some { x with live := live } ∧ (live = true → x.live = true)
  realms : w.realms.size ≤ w'.realms.size

theorem Continues.refl (w : World E) : Continues w w :=
  ⟨id, fun {_ _ x} h => ⟨x.live, h, id⟩, Nat.le_refl _⟩

theorem Continues.trans {w'' : World E} (h : Continues w w') (h' : Continues w' w'') :
    Continues w w'' where
  faithful hf := h'.faithful (h.faithful hf)
  kept hx := by
    obtain ⟨a, ha, hlive⟩ := h.kept hx
    obtain ⟨b, hb, hlive'⟩ := h'.kept ha
    exact ⟨b, hb, fun e => hlive (hlive' e)⟩
  realms := Nat.le_trans h.realms h'.realms

/-! ## Changes that make no wrapper -/

/-- Wrappers die at most, and of the entries of caches only dead ones go. -/
structure Fades (w w' : World E) : Prop where
  wrappers : ∀ k id, ∃ dies : Bool,
    w'.wrapper? k id = (w.wrapper? k id).map fun x => { x with live := x.live && !dies }
  entries : ∀ k r, ((w'.realm r).cache k).entries.Sublist ((w.realm r).cache k).entries
  live : ∀ {k r e}, e ∈ ((w.realm r).cache k).entries → w'.wrapperLive k e.2 = true →
    e ∈ ((w'.realm r).cache k).entries

theorem Fades.continues (h : Fades w w') (hr : w.realms.size ≤ w'.realms.size) :
    Continues w w' where
  faithful {k} hf := by
    refine ⟨fun r => IdentityCache.distinct_of_sublist (hf.distinct r) (h.entries k r),
      fun {r key id} he => ?_, fun {id x'} hx' hlive => ?_⟩
    · obtain ⟨x, hx, hrealm, hkey⟩ := hf.keyed ((h.entries k r).subset he)
      obtain ⟨dies, hd⟩ := h.wrappers k id
      rw [hx, Option.map_some] at hd
      exact ⟨_, hd, hrealm, hkey⟩
    · have halive : w'.wrapperLive k id = true := wrapperLive_iff.mpr ⟨x', hx', hlive⟩
      obtain ⟨dies, hd⟩ := h.wrappers k id
      rw [hx'] at hd
      obtain ⟨x, hx, rfl⟩ := Option.map_eq_some_iff.mp hd.symm
      have hlisted : (x.native.key, id) ∈ ((w.realm x.realm).cache k).entries :=
        hf.listed hx (Bool.and_eq_true_iff.mp hlive).1
      exact h.live hlisted halive
  kept {k id x} hx := by
    obtain ⟨dies, hd⟩ := h.wrappers k id
    rw [hx, Option.map_some] at hd
    exact ⟨_, hd, fun e => (Bool.and_eq_true_iff.mp e).1⟩
  realms := hr

/-- Everything but the wrappers and the caches may change. -/
theorem continues_of_same (hb : w'.bridges = w.bridges) (hl : w'.links = w.links)
    (hc : ∀ k r, (w'.realm r).cache k = (w.realm r).cache k)
    (hr : w.realms.size ≤ w'.realms.size) : Continues w w' := by
  refine Fades.continues ⟨fun k id => ⟨false, ?_⟩, fun k r => ?_, fun {k r e} he _ => ?_⟩ hr
  · simp only [Bool.not_false, Bool.and_true, Option.map_id']
    cases k with
    | bridge => rw [wrapper?, wrapper?, hb]
    | link => rw [wrapper?, wrapper?, hl]
  · rw [hc k r]
  · rw [hc k r]
    exact he

theorem continues_newText (s : String) (w : World E) : Continues w (w.newText s).2 := by
  unfold newText
  split
  · exact .refl w
  · exact continues_of_same rfl rfl (fun _ _ => rfl) (Nat.le_refl _)

theorem continues_newArray (elements : Array Value) (w : World E) :
    Continues w (w.newArray elements).2 :=
  continues_of_same rfl rfl (fun _ _ => rfl) (Nat.le_refl _)

/-- Where there was no realm, nothing was cached, and nothing is in a new one. -/
theorem cache_newRealm (p : NewProperties) (k : WrapperKind) (r : RealmId) (w : World E) :
    ((w.newRealm p).2.realm r).cache k = (w.realm r).cache k := by
  simp only [World.realm, newRealm, Array.getElem?_push]
  split
  · next h =>
    subst h
    rw [Array.getElem?_eq_none (Nat.le_refl _)]
    cases k <;> rfl
  · rfl

theorem continues_newRealm (p : NewProperties) (w : World E) : Continues w (w.newRealm p).2 := by
  refine continues_of_same rfl rfl (fun k r => cache_newRealm p k r w) ?_
  simp only [newRealm, Array.size_push]
  omega

theorem cache_registerWellKnown (realm : RealmId) (n : Native) (v : Value) (k : WrapperKind)
    (r : RealmId) (w : World E) :
    ((w.registerWellKnown realm n v).realm r).cache k = (w.realm r).cache k := by
  refine realm_modifyRealm (P := fun x => x.cache k = (w.realm r).cache k) rfl fun h => ?_
  cases k <;> exact h

theorem continues_registerWellKnown (realm : RealmId) (n : Native) (v : Value) (w : World E) :
    Continues w (w.registerWellKnown realm n v) := by
  refine continues_of_same rfl rfl (fun k r => cache_registerWellKnown realm n v k r w) ?_
  simp only [registerWellKnown, modifyRealm, Array.size_modify, Nat.le_refl]

/-- Some wrappers die. -/
def expire (dies : WrapperKind → Nat → Bool) (w : World E) : World E :=
  { w with
    bridges := w.bridges.mapIdx fun i b => { b with live := b.live && !dies .bridge i }
    links := w.links.mapIdx fun i l => { l with live := l.live && !dies .link i } }

theorem wrapper?_expire (dies : WrapperKind → Nat → Bool) (w : World E) (k : WrapperKind)
    (id : Nat) : (w.expire dies).wrapper? k id =
      (w.wrapper? k id).map fun x => { x with live := x.live && !dies k id } := by
  cases k with
  | bridge =>
    simp only [wrapper?, expire, Array.getElem?_mapIdx, Option.map_map]
    rfl
  | link =>
    simp only [wrapper?, expire, Array.getElem?_mapIdx, Option.map_map]
    rfl

theorem continues_expire (dies : WrapperKind → Nat → Bool) (w : World E) :
    Continues w (w.expire dies) :=
  Fades.continues ⟨fun k id => ⟨dies k id, wrapper?_expire dies w k id⟩, fun _ _ => .refl _,
    fun he _ => he⟩ (Nat.le_refl _)

theorem expire_congr {dies dies' : WrapperKind → Nat → Bool}
    (h : ∀ {k id x}, w.wrapper? k id = some x →
      (x.live && !dies k id) = (x.live && !dies' k id)) : w.expire dies = w.expire dies' := by
  have hbridges (i : Nat) (hi : i < w.bridges.size) :
      (w.bridges[i].live && !dies .bridge i) = (w.bridges[i].live && !dies' .bridge i) :=
    h (k := .bridge) (congrArg (Option.map _) (Array.getElem?_eq_getElem hi))
  have hlinks (i : Nat) (hi : i < w.links.size) :
      (w.links[i].live && !dies .link i) = (w.links[i].live && !dies' .link i) :=
    h (k := .link) (congrArg (Option.map _) (Array.getElem?_eq_getElem hi))
  unfold expire
  congr 1
  · refine Array.ext (by simp only [Array.size_mapIdx]) fun i hi _ => ?_
    rw [Array.size_mapIdx] at hi
    simp only [Array.getElem_mapIdx, hbridges i hi]
  · refine Array.ext (by simp only [Array.size_mapIdx]) fun i hi _ => ?_
    rw [Array.size_mapIdx] at hi
    simp only [Array.getElem_mapIdx, hlinks i hi]

/-- A sweep of the heap lets wrappers die, and notes something about host objects. -/
theorem exists_collect_eq [Embedding E] (hand : List Thing) (w : World E) :
    ∃ dies lost, w.collect hand = { w.expire dies with lostNatives := lost } := by
  unfold collect
  split
  · next hidle =>
    simp only [Bool.and_eq_true, Array.isEmpty_iff] at hidle
    refine ⟨fun _ _ => false, w.lostNatives, ?_⟩
    have hb : w.bridges.mapIdx (fun _ b => { b with live := b.live && !false }) = w.bridges := by
      rw [hidle.1.1, Array.mapIdx_empty]
    have hl : w.links.mapIdx (fun _ l => { l with live := l.live && !false }) = w.links := by
      rw [hidle.1.2, Array.mapIdx_empty]
    simp only [expire, hb, hl]
  · generalize w.reached (Embedding.contents w.embedding) (hand ++ w.roots) = found
    refine ⟨fun k i => match k with
      | .bridge => !found.bridges[i]?.getD false
      | .link => !found.links[i]?.getD false,
      w.wellKnownKeys.filter fun k => !found.natives.contains k, ?_⟩
    simp only [expire, Bool.not_not]

theorem continues_collect [Embedding E] (hand : List Thing) (w : World E) :
    Continues w (w.collect hand) := by
  obtain ⟨dies, lost, h⟩ := exists_collect_eq hand w
  rw [h]
  exact (continues_expire dies w).trans
    (continues_of_same rfl rfl (fun _ _ => rfl) (Nat.le_refl _))

theorem realm_purge_of_ne {r : RealmId} (h : r ≠ realm) (w : World E) :
    (w.purge realm).2.realm r = w.realm r := by
  simp only [World.realm, purge, modifyRealm, Array.getElem?_modify]
  rw [if_neg (Ne.symm h)]

theorem cache_purge (k : WrapperKind) (realm : RealmId) (w : World E) :
    ((w.purge realm).2.realm realm).cache k =
      (((w.realm realm).cache k).purge (w.wrapperLive k)).1 := by
  cases hr : w.realms[realm]? with
  | some r =>
    have hpurged : (w.purge realm).2.realm realm = { w.realm realm with
        bridges := ((w.realm realm).bridges.purge w.bridgeLive).1
        links := ((w.realm realm).links.purge w.linkLive).1
        wellKnown := (w.realm realm).wellKnown.filter fun e => !w.lostNatives.contains e.1 } := by
      simp only [World.realm, purge, modifyRealm, Array.getElem?_modify, if_true, hr]
      rfl
    rw [hpurged]
    cases k <;> rfl
  | none =>
    -- there is no such realm, so there is nothing to purge
    have hpurged : (w.purge realm).2.realm realm = w.realm realm := by
      simp only [World.realm, purge, modifyRealm, Array.getElem?_modify, if_true, hr]
      rfl
    rw [hpurged, World.realm, hr]
    cases k <;> rfl

theorem entries_purge (k : WrapperKind) (realm : RealmId) (w : World E) :
    (((w.purge realm).2.realm realm).cache k).entries =
      ((w.realm realm).cache k).entries.filter fun e => w.wrapperLive k e.2 := by
  rw [cache_purge]
  rfl

theorem continues_purge (realm : RealmId) (w : World E) : Continues w (w.purge realm).2 := by
  refine Fades.continues ⟨fun k id => ⟨false, ?_⟩, fun k r => ?_, fun {k r e} he hl => ?_⟩ ?_
  · simp only [Bool.not_false, Bool.and_true, Option.map_id']
    cases k <;> rfl
  · by_cases h : r = realm
    · subst h
      rw [entries_purge]
      exact List.filter_sublist
    · rw [realm_purge_of_ne h]
  · by_cases h : r = realm
    · subst h
      rw [entries_purge]
      cases k <;> exact List.mem_filter.mpr ⟨he, hl⟩
    · rw [realm_purge_of_ne h]
      exact he
  · simp only [purge, modifyRealm, Array.size_modify, Nat.le_refl]

/-! ## Making a wrapper -/

/-- The live wrapper that the cache of a realm has for a host object. -/
def wrapperOf? (w : World E) (k : WrapperKind) (realm : RealmId) (n : Native) : Option Nat :=
  ((w.realm realm).cache k).find? (w.wrapperLive k) n.key

/-- The world with a new wrapper of a host object, and with its entry. -/
def make (k : WrapperKind) (realm : RealmId) (n : Native) (w : World E) : World E :=
  match k with
  | .bridge =>
    { w.modifyRealm realm fun r =>
        { r with bridges := r.bridges.insert w.bridgeLive n.key w.bridges.size } with
      bridges := w.bridges.push ⟨realm, n, true⟩ }
  | .link =>
    { w.modifyRealm realm fun r =>
        { r with links := r.links.insert w.linkLive n.key w.links.size } with
      links := w.links.push ⟨realm, n, ∅, true⟩ }

theorem wrap_of_some {id : Nat} (h : w.wrapperOf? k realm n = some id) :
    w.wrap k realm n = (k.value id, w) := by
  cases k with
  | bridge =>
    change (w.realm realm).bridges.find? w.bridgeLive n.key = some id at h
    rw [wrap, bridge, h]
    rfl
  | link =>
    change (w.realm realm).links.find? w.linkLive n.key = some id at h
    rw [wrap, newestLink, h]
    rfl

theorem wrap_of_none (h : w.wrapperOf? k realm n = none) :
    w.wrap k realm n = (k.value (w.wrapperCount k), w.make k realm n) := by
  cases k with
  | bridge =>
    change (w.realm realm).bridges.find? w.bridgeLive n.key = none at h
    rw [wrap, bridge, h]
    rfl
  | link =>
    change (w.realm realm).links.find? w.linkLive n.key = none at h
    rw [wrap, newestLink, h]
    rfl

theorem wrapper?_make (k : WrapperKind) (realm : RealmId) (n : Native) (w : World E)
    (j : WrapperKind) (id : Nat) : (w.make k realm n).wrapper? j id =
      if j = k ∧ id = w.wrapperCount k then some ⟨realm, n, true⟩ else w.wrapper? j id := by
  cases k <;> cases j <;>
    simp only [make, wrapper?, wrapperCount, modifyRealm, Array.getElem?_push, true_and,
      reduceCtorEq, false_and, if_false]
  all_goals
    split
    · rfl
    · rfl

theorem wrapperCount_make (k : WrapperKind) (realm : RealmId) (n : Native) (w : World E)
    (j : WrapperKind) : (w.make k realm n).wrapperCount j =
      if j = k then w.wrapperCount k + 1 else w.wrapperCount j := by
  cases k <;> cases j <;> first | rfl | exact Array.size_push _

theorem wrapperLive_make (k : WrapperKind) (realm : RealmId) (n : Native) (w : World E)
    (j : WrapperKind) (id : Nat) : (w.make k realm n).wrapperLive j id =
      if j = k ∧ id = w.wrapperCount k then true else w.wrapperLive j id := by
  rw [wrapperLive_eq, wrapper?_make]
  split
  · rfl
  · exact (wrapperLive_eq w j id).symm

theorem wrapper?_make_old {j : WrapperKind} {id : Nat} {x : WrapperCore}
    (h : w.wrapper? j id = some x) : (w.make k realm n).wrapper? j id = some x := by
  rw [wrapper?_make, if_neg, h]
  rintro ⟨rfl, rfl⟩
  exact Nat.lt_irrefl _ (lt_wrapperCount h)

theorem cache_make_self (h : realm < w.realms.size) :
    ((w.make k realm n).realm realm).cache k =
      ((w.realm realm).cache k).insert (w.wrapperLive k) n.key (w.wrapperCount k) := by
  cases k <;>
  · simp only [World.realm, make, modifyRealm, Array.getElem?_modify, if_true]
    rw [Array.getElem?_eq_getElem h]
    rfl

theorem cache_make_of_ne {j : WrapperKind} {r : RealmId} (h : j ≠ k ∨ r ≠ realm) :
    ((w.make k realm n).realm r).cache j = (w.realm r).cache j := by
  rcases h with h | h
  · cases k <;> cases j <;> try exact absurd rfl h
    all_goals
      refine realm_modifyRealm (P := fun x => x.cache _ = (w.realm r).cache _) rfl fun hx => ?_
      exact hx
  · cases k <;>
    · simp only [World.realm, make, modifyRealm, Array.getElem?_modify]
      rw [if_neg (Ne.symm h)]

theorem Faithful.wrapperOf?_eq_none (hf : Faithful k w) (h : w.wrapperOf? k realm n = none)
    {id : Nat} {x : WrapperCore} (hx : w.wrapper? k id = some x) (hr : x.realm = realm)
    (hlive : x.live = true) : x.native.key ≠ n.key := by
  intro hkey
  subst hr
  have hall := (IdentityCache.find?_eq_none_iff (hf.distinct _)).mp h id (hkey ▸ hf.listed hx hlive)
  rw [wrapperLive_iff.mpr ⟨x, hx, hlive⟩] at hall
  cases hall

theorem Faithful.make (hf : Faithful k w) (h : realm < w.realms.size)
    (hnone : w.wrapperOf? k realm n = none) : Faithful k (w.make k realm n) := by
  refine ⟨fun r => ?_, fun {r key id} he => ?_, fun {id x} hx hlive => ?_⟩
  · by_cases hr : r = realm
    · subst hr
      rw [cache_make_self h]
      exact (hf.distinct r).insert
    · rw [cache_make_of_ne (.inr hr)]
      exact hf.distinct r
  · -- an entry is that of the new wrapper, or it was there before
    have hcase : (r = realm ∧ (key, id) = (n.key, w.wrapperCount k)) ∨
        (key, id) ∈ ((w.realm r).cache k).entries := by
      by_cases hr : r = realm
      · subst hr
        rw [cache_make_self h] at he
        exact (IdentityCache.mem_insert he).imp_left fun heq => ⟨rfl, heq⟩
      · rw [cache_make_of_ne (.inr hr)] at he
        exact .inr he
    rcases hcase with ⟨rfl, heq⟩ | hold
    · cases heq
      exact ⟨⟨r, n, true⟩, by rw [wrapper?_make, if_pos ⟨rfl, rfl⟩], rfl, rfl⟩
    · obtain ⟨x, hx, hrealm, hkey⟩ := hf.keyed hold
      exact ⟨x, wrapper?_make_old hx, hrealm, hkey⟩
  · rw [wrapper?_make] at hx
    split at hx
    · next hid =>
      cases hx
      rw [cache_make_self h, hid.2]
      exact IdentityCache.mem_insert_self
    · have hin := hf.listed hx hlive
      by_cases hr : x.realm = realm
      · have hkey := hf.wrapperOf?_eq_none hnone hx hr hlive
        rw [hr] at hin ⊢
        rw [cache_make_self h]
        exact IdentityCache.mem_insert_of_alive hin (wrapperLive_iff.mpr ⟨x, hx, hlive⟩) hkey
      · rw [cache_make_of_ne (.inr hr)]
        exact hin

theorem continues_make (h : realm < w.realms.size) (hnone : w.wrapperOf? k realm n = none) :
    Continues w (w.make k realm n) where
  faithful {j} hf := by
    by_cases hj : j = k
    · subst hj
      exact hf.make h hnone
    · have hw : ∀ id, (w.make k realm n).wrapper? j id = w.wrapper? j id := fun id => by
        rw [wrapper?_make, if_neg fun hk => hj hk.1]
      have hc : ∀ r, ((w.make k realm n).realm r).cache j = (w.realm r).cache j := fun r =>
        cache_make_of_ne (.inl hj)
      refine ⟨fun r => ?_, fun {r key id} he => ?_, fun {id x} hx hlive => ?_⟩
      · rw [hc]
        exact hf.distinct r
      · rw [hc] at he
        rw [hw]
        exact hf.keyed he
      · rw [hw] at hx
        rw [hc]
        exact hf.listed hx hlive
  kept {j id x} hx := ⟨x.live, wrapper?_make_old hx, fun hl => hl⟩
  realms := by
    cases k <;> simp only [make, modifyRealm, Array.size_modify, Nat.le_refl]

theorem continues_wrap (h : realm < w.realms.size) (k : WrapperKind) (n : Native) :
    Continues w (w.wrap k realm n).2 := by
  cases hw : w.wrapperOf? k realm n with
  | some id =>
    rw [wrap_of_some hw]
    exact .refl w
  | none =>
    rw [wrap_of_none hw]
    exact continues_make h hw

/-! ## Host values entering -/

theorem continues_link (realm : RealmId) (value : HostValue) (w : World E)
    (h : realm < w.realms.size) : Continues w (w.link realm value).2 :=
  AdmitsLinks.guarded (R := fun u v => realm < u.realms.size → Continues u v)
    ⟨fun _ _ => .refl _, fun h h' hu => (h hu).trans (h' (Nat.lt_of_lt_of_le hu (h hu).realms)),
      fun s w _ => continues_newText s w, fun elements w _ => continues_newArray elements w,
      fun n _ hu => continues_wrap hu .link n⟩ value w h

theorem continues_fromHostIn [Embedding E] (realm? : Option RealmId) (value : HostValue)
    (w : World E) (h : ∀ realm ∈ realm?, realm < w.realms.size) :
    Continues w (w.fromHostIn realm? value).2 :=
  Admits.fromHostIn (R := fun u v => (∀ realm ∈ realm?, realm < u.realms.size) → Continues u v)
    ⟨fun _ _ => .refl _, fun h h' hu => (h hu).trans (h' fun realm hr =>
      Nat.lt_of_lt_of_le (hu realm hr) (h hu).realms),
      fun s w _ => continues_newText s w, fun elements w _ => continues_newArray elements w,
      fun hr n _ hu => continues_wrap (hu _ hr) .bridge n⟩ value w h

end World

end ScriptSandbox
