import Mathlib.Logic.Relation
import ScriptSandbox.Proofs.World.Alike

/-
  The upkeep of caches.

  A purge takes the dead entries out of the caches of a realm, and an insertion does so now and
  then. `Upkeep` lists what can be done to caches besides what scripts and hosts do: purge a realm
  whose host objects with well-known values are not lost, or sweep a cache at another time than the
  insertions do. It leaves a world alike (`alike_of_upkeep`), and every alike world is reached by it
  (`Alike.upkeep_complete`, realm by realm), so that no schedule of sweeps is left out.
-/

namespace ScriptSandbox.World

variable {E : Type}

/-- A world whose caches are faithful is alike itself. -/
theorem Faithful.alike {w : World E} (h : ∀ k, Faithful k w) : w.Alike w := by
  refine ⟨w.realms, fun i => ?_⟩
  have hsound (k : WrapperKind) : ((w.realm i).cache k).Sound (w.wrapperCount k) := by
    refine ⟨(h k).distinct i, fun e he => ?_⟩
    obtain ⟨x, hx, -⟩ := (h k).keyed he
    exact lt_wrapperCount hx
  rw [World.realm] at hsound
  revert hsound
  rcases w.realms[i]? with _ | r <;> intro hsound
  · exact .none
  · exact .some ⟨rfl, rfl, fun k => .refl (hsound k)⟩

/-- What is done to the caches of a world besides what scripts and hosts do. -/
inductive Upkeep (w : World E) : World E → Prop where
  /-- A realm is purged while none of its host objects with well-known values is lost. -/
  | purge (realm : RealmId) (h : ∀ e ∈ (w.realm realm).wellKnown, e.1 ∉ w.lostNatives) :
    Upkeep w (w.purge realm).2
  /-- A cache is swept at other times: it has the same live entries, and whatever dead ones and
      whatever limit that leaves. -/
  | resweep (k : WrapperKind) (realm : RealmId) (c : IdentityCache)
    (h : ((w.realm realm).cache k).Alike (w.wrapperCount k) (w.wrapperLive k) c) :
    Upkeep w (w.modifyRealm realm fun r => r.setCache c k)

theorem alike_of_upkeep {w w' : World E} (hw : w.Alike w) (h : Upkeep w w') : w.Alike w' := by
  have hrealm {realm : RealmId} {r : Realm} (hr : w.realms[realm]? = some r) :
      w.realm realm = r := by
    rw [World.realm, hr]
    rfl
  cases h with
  | purge realm hkept =>
    refine ⟨_, hw.realms.modify_right fun {r r'} hr ha => ?_⟩
    obtain rfl := hrealm hr
    have hsound (k : WrapperKind) := ((hw.realm realm).cache k).sound
    refine ⟨ha.newProperties, (List.filter_eq_self.mpr fun e he => ?_).symm, fun k => ?_⟩
    · simpa using hkept e he
    · cases k
      · exact .purge (hsound .bridge) _
      · exact .purge (hsound .link) _
  | resweep k realm c hc =>
    refine ⟨_, hw.realms.modify_right fun {r r'} hr ha => ?_⟩
    obtain rfl := hrealm hr
    refine ⟨?_, ?_, fun j => ?_⟩
    · cases k <;> exact ha.newProperties
    · cases k <;> exact ha.wellKnown
    · cases k <;> cases j <;> first | exact hc | exact ha.cache _

/-- Upkeep leaves a world alike what it was alike before. -/
theorem Alike.upkeep {w w' w'' : World E} (h : w.Alike w') (hu : Upkeep w' w'') : w.Alike w'' :=
  h.trans (alike_of_upkeep h.self hu)

/-- Any other schedule of sweeps is upkeep: instead of what making a wrapper leaves of a cache,
    there may be what an insertion leaves that sweeps, or does not, and sets any limit. -/
theorem upkeep_make {w : World E} (hw : w.Alike w) {realm : RealmId} (h : realm < w.realms.size)
    (k : WrapperKind) (n : Native) (sweep : Bool) (limit : Nat) :
    Upkeep (w.make k realm n) ((w.make k realm n).modifyRealm realm fun r =>
      r.setCache (((w.realm realm).cache k).insertOn sweep limit (w.wrapperLive k) n.key
        (w.wrapperCount k)) k) := by
  refine .resweep k realm _ ?_
  rw [cache_make_self h, IdentityCache.insert_eq_insertOn, wrapperCount_make, if_pos rfl]
  refine ((hw.realm realm).cache k).insertOn ?_ (fun id hid => ?_) _ _ _ _ _
  · rw [wrapperLive_make, if_pos ⟨rfl, rfl⟩]
  · rw [wrapperLive_make, if_neg fun hnew => Nat.ne_of_lt hid hnew.2]

/-! ### All that upkeep can do -/

section Complete

variable {w w' : World E} {count : Nat}

/-- The world in which the first realms are those of another one. -/
def withFirst (w w' : World E) (count : Nat) : World E :=
  w.withRealms (Array.ofFn fun i : Fin w.realms.size =>
    if i.1 < count then w'.realm i else w.realm i)

theorem realms_withFirst (w w' : World E) (count : Nat) (i : RealmId) :
    (w.withFirst w' count).realms[i]? =
      if i < w.realms.size then some (if i < count then w'.realm i else w.realm i) else none :=
  Array.getElem?_ofFn

theorem getElem?_realms (w : World E) (i : RealmId) :
    w.realms[i]? = if i < w.realms.size then some (w.realm i) else none := by
  by_cases hi : i < w.realms.size
  · rw [if_pos hi, World.realm, Array.getElem?_eq_getElem hi]
    rfl
  · rw [if_neg hi, Array.getElem?_eq_none (Nat.le_of_not_lt hi)]

theorem withFirst_zero (w w' : World E) : w.withFirst w' 0 = w := by
  refine congrArg w.withRealms (Array.ext_getElem? fun i => ?_)
  exact (realms_withFirst w w' 0 i).trans (w.getElem?_realms i).symm

theorem Alike.withFirst_size (h : w.Alike w') : w.withFirst w' w.realms.size = w' := by
  have hrealms : (w.withFirst w' w.realms.size).realms = w'.realms := by
    refine Array.ext_getElem? fun i => ?_
    rw [realms_withFirst, w'.getElem?_realms, ← h.realms.size_eq]
    by_cases hi : i < w.realms.size
    · rw [if_pos hi, if_pos hi, if_pos hi]
    · rw [if_neg hi, if_neg hi]
  obtain ⟨rs, h⟩ := h
  exact congrArg w.withRealms hrealms

theorem Alike.withFirst_succ (h : w.Alike w') (count : Nat) :
    w.withFirst w' (count + 1) =
      (w.withFirst w' count).modifyRealm count fun r =>
        (r.setCache (w'.realm count).bridges .bridge).setCache (w'.realm count).links .link := by
  refine congrArg w.withRealms (Array.ext_getElem? fun i => ?_)
  rw [Array.getElem?_modify]
  refine (realms_withFirst w w' (count + 1) i).trans ?_
  rw [realms_withFirst]
  by_cases hi : i < w.realms.size
  · by_cases hc : count = i
    · subst hc
      rw [if_pos hi, if_pos hi, if_pos rfl, if_pos (Nat.lt_succ_self _), if_neg (Nat.lt_irrefl _),
        Option.map_some, (h.realm count).setCaches]
    · have hlt : i < count + 1 ↔ i < count := by omega
      simp only [hi, hc, hlt, if_true, if_false]
  · simp only [hi, if_false, Option.map_none, ite_self]

theorem modifyRealm_modifyRealm (id : RealmId) (f g : Realm → Realm) (w : World E) :
    (w.modifyRealm id f).modifyRealm id g = w.modifyRealm id fun r => g (f r) := by
  refine congrArg w.withRealms (Array.ext_getElem? fun i => ?_)
  simp only [modifyRealm, Array.getElem?_modify]
  split
  · exact Option.map_map g f _
  · rfl

/-- Upkeep of both caches of one realm more. -/
theorem upkeep_withFirst (h : w.Alike w') (hlt : count < w.realms.size) :
    Relation.ReflTransGen Upkeep (w.withFirst w' count) (w.withFirst w' (count + 1)) := by
  have hrealm : (w.withFirst w' count).realm count = w.realm count := by
    rw [World.realm, realms_withFirst, if_pos hlt, if_neg (Nat.lt_irrefl count)]
    rfl
  have hbridges := Upkeep.resweep (w := w.withFirst w' count) .bridge count (w'.realm count).bridges
    (hrealm ▸ (h.realm count).cache .bridge)
  have hlinks := Upkeep.resweep (w := (w.withFirst w' count).modifyRealm count fun r =>
    r.setCache (w'.realm count).bridges .bridge) .link count (w'.realm count).links
    (realm_modifyRealm (P := fun r : Realm => (r.cache .link).Alike (w.wrapperCount .link)
      (w.wrapperLive .link) (w'.realm count).links)
      (hrealm ▸ (h.realm count).cache .link) fun hr => hr)
  rw [modifyRealm_modifyRealm] at hlinks
  rw [h.withFirst_succ]
  exact (Relation.ReflTransGen.single hbridges).tail hlinks

/-- Every alike world is the work of upkeep. -/
theorem Alike.upkeep_complete (h : w.Alike w') : Relation.ReflTransGen Upkeep w w' := by
  have hfirst (count : Nat) (hc : count ≤ w.realms.size) :
      Relation.ReflTransGen Upkeep w (w.withFirst w' count) := by
    induction count with
    | zero => rw [withFirst_zero]
    | succ count ih => exact (ih (Nat.le_of_succ_le hc)).trans (upkeep_withFirst h hc)
  exact h.withFirst_size ▸ hfirst _ (Nat.le_refl _)

end Complete

end ScriptSandbox.World
