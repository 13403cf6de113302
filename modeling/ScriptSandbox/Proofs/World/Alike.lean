import ScriptSandbox.Proofs.World.Blind
import ScriptSandbox.Proofs.World.Identity

/-
  Worlds that differ in dead cache entries.

  Two worlds are alike when they differ in nothing but the entries of dead wrappers in their caches,
  and in when the caches sweep next (`World.Alike`). What a cache is asked for is about live wrappers
  only, so alike worlds give the same answers (`Alike.wrapperOf?_eq`, `Alike.cached_eq`), and a
  change that starts from alike worlds ends in alike worlds with the same result (`Overlooks`).
  Making a wrapper needs an argument: the new one is alive and replaces an entry that one world may
  have swept already (`Alike.make`). The bound on the numbers in a cache is there for that moment,
  since a number that was given out before must not come to life with it.
-/

namespace ScriptSandbox

namespace IdentityCache

variable {count : Nat} {alive alive' : Nat → Bool} {c c' : IdentityCache} {key : NativeKey}

/-- No host object has two entries, and all entries are of wrappers made so far. -/
structure Sound (count : Nat) (c : IdentityCache) : Prop where
  distinct : c.Distinct
  made : ∀ e ∈ c.entries, e.2 < count

namespace Sound

theorem empty (count : Nat) : Sound count empty := ⟨distinct_empty, nofun⟩

theorem of_sublist (h : c.Sound count) (hs : c'.entries.Sublist c.entries) : c'.Sound count :=
  ⟨distinct_of_sublist h.distinct hs, fun e he => h.made e (hs.subset he)⟩

theorem mono {count' : Nat} (h : c.Sound count) (hc : count ≤ count') : c.Sound count' :=
  ⟨h.distinct, fun e he => Nat.lt_of_lt_of_le (h.made e he) hc⟩

end Sound

/-- An insertion that sweeps or does not, and leaves the limit, as it is told. -/
def insertOn (sweep : Bool) (limit : Nat) (alive : Nat → Bool) (c : IdentityCache)
    (key : NativeKey) (wrapper : Nat) : IdentityCache :=
  let kept := if sweep then (c.purge alive).1 else c
  ⟨(key, wrapper) :: kept.entries.filter fun e => e.1 ≠ key, limit⟩

/-- An insertion sweeps when the cache is full. -/
theorem insert_eq_insertOn (alive : Nat → Bool) (c : IdentityCache) (key : NativeKey)
    (wrapper : Nat) : c.insert alive key wrapper =
      c.insertOn (c.sweepAt ≤ c.entries.length) (c.makeRoom alive).sweepAt alive key wrapper := by
  unfold insert insertOn makeRoom
  by_cases h : c.sweepAt ≤ c.entries.length
  · simp only [h, if_true, decide_true]
  · simp only [h, if_false, decide_false, Bool.false_eq_true]

theorem Sound.insertOn (h : c.Sound count) (sweep : Bool) (limit : Nat) (key : NativeKey) :
    (c.insertOn sweep limit alive key count).Sound (count + 1) := by
  have hkept : (if sweep then (c.purge alive).1 else c).Sound count := by
    split
    · exact h.of_sublist purge_sublist
    · exact h
  refine ⟨List.nodup_cons.mpr ⟨fun hmem => ?_, ?_⟩, fun e he => ?_⟩
  · obtain ⟨e, he, hkey⟩ := List.mem_map.mp hmem
    exact of_decide_eq_true (List.mem_filter.mp he).2 hkey
  · exact (List.filter_sublist.map Prod.fst).nodup hkept.distinct
  · rcases List.mem_cons.mp he with rfl | he
    · exact Nat.lt_succ_self count
    · exact Nat.lt_succ_of_lt (hkept.made e (List.mem_filter.mp he).1)

/-! ### What is alive in a cache -/

/-- The entries of live wrappers. -/
def live (alive : Nat → Bool) (c : IdentityCache) : List (NativeKey × Nat) :=
  c.entries.filter fun e => alive e.2

theorem live_purge : (c.purge alive).1.live alive = c.live alive := by
  simp only [live, purge, List.filter_filter, Bool.and_self]

/-- When no wrapper has come back to life, what is alive was alive before. -/
theorem Sound.live_later (h : c.Sound count)
    (hd : ∀ id, id < count → alive' id = true → alive id = true) :
    c.live alive' = (c.live alive).filter fun e => alive' e.2 := by
  rw [live, live, List.filter_filter]
  refine List.filter_congr fun e he => ?_
  cases ha : alive' e.2 with
  | false => rfl
  | true => rw [hd e.2 (h.made e he) ha, Bool.and_self]

/-- After an insertion the live entries are the new one and those of other host objects, whether
    the cache was swept for it or not. -/
theorem Sound.live_insertOn (h : c.Sound count) (hnew : alive' count = true)
    (hold : ∀ id, id < count → alive' id = alive id) (sweep : Bool) (limit : Nat)
    (key : NativeKey) : (c.insertOn sweep limit alive key count).live alive' =
      (key, count) :: (c.live alive).filter fun e => e.1 ≠ key := by
  have hlive : (if sweep then (c.purge alive).1 else c).live alive' = c.live alive := by
    have hsame : c.live alive' = c.live alive :=
      List.filter_congr fun e he => hold e.2 (h.made e he)
    cases sweep with
    | false => exact hsame
    | true =>
      refine Eq.trans (List.filter_congr fun e he => ?_) live_purge
      exact hold e.2 (h.made e (mem_purge.mp he).1)
  rw [← hlive, live, live, IdentityCache.insertOn, List.filter_cons_of_pos (by exact hnew),
    List.filter_filter, List.filter_filter]
  exact congrArg _ (List.filter_congr fun e _ => Bool.and_comm _ _)

/-- The caches differ in entries of dead wrappers and in their limits only. -/
structure Alike (count : Nat) (alive : Nat → Bool) (c c' : IdentityCache) : Prop where
  sound : c.Sound count
  sound' : c'.Sound count
  live : c.live alive = c'.live alive

namespace Alike

theorem refl (h : c.Sound count) : Alike count alive c c := ⟨h, h, rfl⟩

theorem trans {c'' : IdentityCache} (h : Alike count alive c c') (h' : Alike count alive c' c'') :
    Alike count alive c c'' := ⟨h.sound, h'.sound', h.live.trans h'.live⟩

theorem symm (h : Alike count alive c c') : Alike count alive c' c :=
  ⟨h.sound', h.sound, h.live.symm⟩

/-- A sweep makes no difference, whatever it sets the limit to. -/
theorem purge (h : c.Sound count) (limit : Nat) :
    Alike count alive c { (c.purge alive).1 with sweepAt := limit } :=
  ⟨h, h.of_sublist purge_sublist, live_purge.symm⟩

variable (h : Alike count alive c c')

include h

theorem find?_eq (key : NativeKey) : c.find? alive key = c'.find? alive key := by
  refine Option.ext fun id => ?_
  have hmem : (key, id) ∈ c.live alive ↔ (key, id) ∈ c'.live alive := by rw [h.live]
  rw [find?_eq_some_iff h.sound.distinct, find?_eq_some_iff h.sound'.distinct]
  simpa only [IdentityCache.live, List.mem_filter] using hmem

theorem liveCount_eq : c.liveCount alive = c'.liveCount alive := congrArg List.length h.live

theorem later {count' : Nat} (hc : count ≤ count')
    (hd : ∀ id, id < count → alive' id = true → alive id = true) : Alike count' alive' c c' :=
  ⟨h.sound.mono hc, h.sound'.mono hc, by rw [h.sound.live_later hd, h.sound'.live_later hd, h.live]⟩

/-- Either insertion may sweep. -/
theorem insertOn (hnew : alive' count = true) (hold : ∀ id, id < count → alive' id = alive id)
    (sweep sweep' : Bool) (limit limit' : Nat) (key : NativeKey) :
    Alike (count + 1) alive' (c.insertOn sweep limit alive key count)
      (c'.insertOn sweep' limit' alive key count) :=
  ⟨h.sound.insertOn sweep limit key, h.sound'.insertOn sweep' limit' key, by
    rw [h.sound.live_insertOn hnew hold, h.sound'.live_insertOn hnew hold, h.live]⟩

theorem insert (hnew : alive' count = true) (hold : ∀ id, id < count → alive' id = alive id)
    (key : NativeKey) :
    Alike (count + 1) alive' (c.insert alive key count) (c'.insert alive key count) := by
  rw [insert_eq_insertOn, insert_eq_insertOn]
  exact h.insertOn hnew hold _ _ _ _ key

theorem purged : Alike count alive (c.purge alive).1 (c'.purge alive).1 :=
  ⟨h.sound.of_sublist purge_sublist, h.sound'.of_sublist purge_sublist, by
    rw [live_purge, live_purge, h.live]⟩

end Alike

end IdentityCache

/-! ## Realms and worlds -/

/-- A realm with another cache. -/
def Realm.setCache (r : Realm) (c : IdentityCache) : WrapperKind → Realm
  | .bridge => { r with bridges := c }
  | .link => { r with links := c }

/-- The realms have the same well-known values, and their caches are alike. -/
structure Realm.Alike (count : WrapperKind → Nat) (alive : WrapperKind → Nat → Bool)
    (r r' : Realm) : Prop where
  newProperties : r.newProperties = r'.newProperties
  wellKnown : r.wellKnown = r'.wellKnown
  cache : ∀ k, (r.cache k).Alike (count k) (alive k) (r'.cache k)

/-- The same realms, each alike on both sides. -/
def RealmsAlike (count : WrapperKind → Nat) (alive : WrapperKind → Nat → Bool)
    (rs rs' : Array Realm) : Prop :=
  ∀ i : RealmId, Option.Rel (Realm.Alike count alive) rs[i]? rs'[i]?

section Realms

variable {count count' : WrapperKind → Nat} {alive alive' : WrapperKind → Nat → Bool}
  {r r' r'' : Realm} {rs rs' rs'' : Array Realm}

theorem Realm.alike_fresh (p : NewProperties) : (Realm.fresh p).Alike count alive (.fresh p) :=
  ⟨rfl, rfl, fun k => by cases k <;> exact .refl (.empty _)⟩

theorem Realm.Alike.trans (h : r.Alike count alive r') (h' : r'.Alike count alive r'') :
    r.Alike count alive r'' :=
  ⟨h.newProperties.trans h'.newProperties, h.wellKnown.trans h'.wellKnown,
    fun k => (h.cache k).trans (h'.cache k)⟩

theorem Realm.Alike.symm (h : r.Alike count alive r') : r'.Alike count alive r :=
  ⟨h.newProperties.symm, h.wellKnown.symm, fun k => (h.cache k).symm⟩

/-- Alike realms differ in their caches at most. -/
theorem Realm.Alike.setCaches (h : r.Alike count alive r') :
    (r.setCache r'.bridges .bridge).setCache r'.links .link = r' := by
  obtain ⟨hp, hw, -⟩ := h
  cases r
  cases r'
  cases hp
  cases hw
  rfl

/-- Wrappers may be made and may die, as long as none comes back to life. -/
theorem Realm.Alike.later (hc : ∀ k, count k ≤ count' k)
    (hd : ∀ k id, id < count k → alive' k id = true → alive k id = true)
    (h : r.Alike count alive r') : r.Alike count' alive' r' :=
  ⟨h.newProperties, h.wellKnown, fun k => (h.cache k).later (hc k) (hd k)⟩

namespace RealmsAlike

/-- At one place there is a realm on neither side, or there are alike ones on both. -/
theorem getElem?_cases (h : RealmsAlike count alive rs rs') (i : RealmId) :
    (rs[i]? = none ∧ rs'[i]? = none) ∨
      ∃ r r', rs[i]? = some r ∧ rs'[i]? = some r' ∧ r.Alike count alive r' := by
  have hi := h i
  revert hi
  rcases rs[i]? with _ | r <;> rcases rs'[i]? with _ | r' <;> rintro ⟨⟩
  · exact .inl ⟨rfl, rfl⟩
  · next hr => exact .inr ⟨r, r', rfl, rfl, hr⟩

theorem trans (h : RealmsAlike count alive rs rs') (h' : RealmsAlike count alive rs' rs'') :
    RealmsAlike count alive rs rs'' := fun i => by
  rcases h.getElem?_cases i with ⟨hr, hr'⟩ | ⟨r, r', hr, hr', ha⟩
  · have hi := h' i
    rw [hr'] at hi
    rwa [hr]
  · rcases h'.getElem?_cases i with ⟨hnone, -⟩ | ⟨r₁, r'', hr₁, hr'', ha'⟩
    · rw [hr'] at hnone
      cases hnone
    · rw [hr', Option.some_inj] at hr₁
      subst hr₁
      rw [hr, hr'']
      exact .some (ha.trans ha')

variable (h : RealmsAlike count alive rs rs')

include h

theorem symm : RealmsAlike count alive rs' rs := fun i => by
  rcases h.getElem?_cases i with ⟨hr, hr'⟩ | ⟨r, r', hr, hr', ha⟩
  · rw [hr, hr']
    exact .none
  · rw [hr, hr']
    exact .some ha.symm

/-- What a realm has, the one of the other side has too. -/
theorem map_eq {α : Type} {f : Realm → α}
    (hf : ∀ {r r' : Realm}, r.Alike count alive r' → f r = f r') : rs.map f = rs'.map f := by
  refine Array.ext_getElem? fun i => ?_
  rw [Array.getElem?_map, Array.getElem?_map]
  rcases h.getElem?_cases i with ⟨hr, hr'⟩ | ⟨r, r', hr, hr', ha⟩
  · rw [hr, hr']
  · rw [hr, hr', Option.map_some, Option.map_some, hf ha]

theorem size_eq : rs.size = rs'.size := by
  have hmap := congrArg Array.size (h.map_eq fun hr => hr.wellKnown)
  rwa [Array.size_map, Array.size_map] at hmap

/-- One realm changes, and meanwhile the others stay alike. -/
theorem modify {realm : RealmId} {f f' : Realm → Realm}
    (hself : ∀ {r r' : Realm}, r.Alike count alive r' → (f r).Alike count' alive' (f' r'))
    (hothers : ∀ {r r' : Realm}, r.Alike count alive r' → r.Alike count' alive' r') :
    RealmsAlike count' alive' (rs.modify realm f) (rs'.modify realm f') := fun i => by
  rw [Array.getElem?_modify, Array.getElem?_modify]
  rcases h.getElem?_cases i with ⟨hr, hr'⟩ | ⟨r, r', hr, hr', ha⟩
  · rw [hr, hr']
    split <;> exact .none
  · rw [hr, hr']
    split
    · exact .some (hself ha)
    · exact .some (hothers ha)

/-- One realm changes on one side only. -/
theorem modify_right {realm : RealmId} {f : Realm → Realm}
    (hself : ∀ {r r' : Realm}, rs[realm]? = some r → r.Alike count alive r' →
      r.Alike count alive (f r')) :
    RealmsAlike count alive rs (rs'.modify realm f) := fun i => by
  rw [Array.getElem?_modify]
  rcases h.getElem?_cases i with ⟨hr, hr'⟩ | ⟨r, r', hr, hr', ha⟩
  · rw [hr, hr']
    split <;> exact .none
  · rw [hr']
    split
    · next heq =>
      subst heq
      exact hr ▸ .some (hself hr ha)
    · exact hr ▸ .some ha

theorem push (hr : r.Alike count alive r') :
    RealmsAlike count alive (rs.push r) (rs'.push r') := fun i => by
  rw [Array.getElem?_push, Array.getElem?_push, h.size_eq]
  split
  · exact .some hr
  · exact h i

/-- Wrappers may be made and may die, as long as none comes back to life. -/
theorem later (hc : ∀ k, count k ≤ count' k)
    (hd : ∀ k id, id < count k → alive' k id = true → alive k id = true) :
    RealmsAlike count' alive' rs rs' := fun i => by
  rcases h.getElem?_cases i with ⟨hr, hr'⟩ | ⟨r, r', hr, hr', ha⟩
  · rw [hr, hr']
    exact .none
  · rw [hr, hr']
    exact .some (ha.later hc hd)

end RealmsAlike

/-- Realms that are alike stay so, since no wrapper comes back to life. -/
theorem RealmsAlike.continued {E : Type} {w w' : World E}
    (h : RealmsAlike w.wrapperCount w.wrapperLive rs rs') (hc : World.Continues w w') :
    RealmsAlike w'.wrapperCount w'.wrapperLive rs rs' := by
  refine h.later (fun k => Nat.le_of_not_lt fun hlt => ?_) fun k id hid hlive => ?_
  · obtain ⟨x, hx⟩ := World.exists_wrapper hlt
    obtain ⟨live, hx', -⟩ := hc.kept hx
    exact Nat.lt_irrefl _ (World.lt_wrapperCount hx')
  · obtain ⟨x, hx⟩ := World.exists_wrapper hid
    obtain ⟨live, hx', hl⟩ := hc.kept hx
    obtain ⟨x', hx'', hlive'⟩ := World.wrapperLive_iff.mp hlive
    rw [hx', Option.some_inj] at hx''
    subst hx''
    exact World.wrapperLive_iff.mpr ⟨x, hx, hl hlive'⟩

end Realms

namespace World

variable {E α : Type}

def withRealms (w : World E) (rs : Array Realm) : World E := { w with realms := rs }


/-- The worlds differ in what is dead in their caches, and in when these sweep next. -/
inductive Alike (w : World E) : World E → Prop where
  | intro (rs : Array Realm) (h : RealmsAlike w.wrapperCount w.wrapperLive w.realms rs) :
    w.Alike (w.withRealms rs)

namespace Alike

variable {w w' w'' : World E}

theorem trans (h : w.Alike w') (h' : w'.Alike w'') : w.Alike w'' := by
  obtain ⟨rs, h⟩ := h
  obtain ⟨rs', h'⟩ := h'
  exact ⟨rs', h.trans h'⟩

/-- The worlds are in order, each for itself. -/
theorem self (h : w.Alike w') : w'.Alike w' := by
  obtain ⟨rs, h⟩ := h
  exact ⟨rs, h.symm.trans h⟩

theorem realms (h : w.Alike w') : RealmsAlike w.wrapperCount w.wrapperLive w.realms w'.realms := by
  obtain ⟨rs, h⟩ := h
  exact h

theorem realm (h : w.Alike w') (id : RealmId) :
    (w.realm id).Alike w.wrapperCount w.wrapperLive (w'.realm id) := by
  rw [World.realm, World.realm]
  rcases h.realms.getElem?_cases id with ⟨hr, hr'⟩ | ⟨r, r', hr, hr', ha⟩
  · rw [hr, hr']
    exact Realm.alike_fresh _
  · rw [hr, hr']
    exact ha

/-! ### What is asked of the caches -/

theorem wrapperLive_eq (h : w.Alike w') (k : WrapperKind) : w.wrapperLive k = w'.wrapperLive k := by
  obtain ⟨rs, h⟩ := h
  rfl

/-- Hits and misses are the same. -/
theorem wrapperOf?_eq (h : w.Alike w') (k : WrapperKind) (realm : RealmId) (n : Native) :
    w.wrapperOf? k realm n = w'.wrapperOf? k realm n := by
  rw [wrapperOf?, wrapperOf?, ← h.wrapperLive_eq]
  exact ((h.realm realm).cache k).find?_eq n.key

theorem cached_eq (h : w.Alike w') (k : WrapperKind) (realm : RealmId) :
    w.cached k realm = w'.cached k realm := by
  rw [World.cached_eq, World.cached_eq, ← h.wrapperLive_eq]
  exact ((h.realm realm).cache k).liveCount_eq

theorem wellKnown?_eq (h : w.Alike w') (realm : RealmId) (n : Native) :
    w.wellKnown? realm n = w'.wellKnown? realm n := by
  rw [wellKnown?, wellKnown?, (h.realm realm).wellKnown]

end Alike

/-! ## What does not look at the realms -/

theorem chainWithin_withRealms (steps : Nat) (id : ObjectId) (w : World E) (rs : Array Realm) :
    (w.withRealms rs).chainWithin steps id = w.chainWithin steps id := by
  induction steps generalizing id with
  | zero => rfl
  | succ steps ih =>
    have h : (w.withRealms rs).parent? id = w.parent? id := rfl
    simp only [chainWithin, h, ih]

theorem lookup?_withRealms (id : ObjectId) (name : String) (w : World E) (rs : Array Realm) :
    (w.withRealms rs).lookup? id name = w.lookup? id name :=
  congrArg (List.findSome? fun o => (w.object o).properties.find? name)
    (chainWithin_withRealms w.objects.size id w rs)

theorem visit_withRealms (hosted : Array (List HostValue)) (w : World E) (rs : Array Realm)
    (fuel : Nat) (things : List Thing) (r : Reached) :
    (w.withRealms rs).visit hosted fuel things r = w.visit hosted fuel things r := by
  have hholds : (w.withRealms rs).holds hosted = w.holds hosted := by
    funext t
    rcases t with v | n
    · cases v <;> rfl
    · cases n <;> rfl
  induction fuel generalizing things r with
  | zero => rfl
  | succ fuel ih =>
    cases things with
    | nil => rfl
    | cons t rest => simp only [visit, ih, hholds]

section

variable [Embedding E]

theorem debugAt_withRealms (w : World E) (rs : Array Realm) (fuel depth : Nat) (v : Value) :
    (w.withRealms rs).debugAt fuel depth v = w.debugAt fuel depth v := by
  induction fuel generalizing depth v with
  | zero =>
    cases v with
    | primitive p => simp only [debugAt]
    | _ => rfl
  | succ fuel ih =>
    have hat (depth : Nat) : (w.withRealms rs).debugAt fuel depth = w.debugAt fuel depth :=
      funext fun v => ih depth v
    have htext (n : Native) : (w.withRealms rs).nativeText (w.debugAt fuel 0) n =
        w.nativeText (w.debugAt fuel 0) n := by cases n <;> rfl
    have hpolicy (n : Native) : (w.withRealms rs).policy? n = w.policy? n := by cases n <;> rfl
    cases v with
    | primitive p => simp only [debugAt]
    | object id => rfl
    | array id =>
      simp only [debugAt, hat]
      rfl
    | bridge id =>
      have hn : (w.withRealms rs).bridgeNative? id = w.bridgeNative? id := rfl
      simp only [debugAt, hat, htext, hn]
    | link id =>
      have hn : (w.withRealms rs).linkNative? id = w.linkNative? id := rfl
      simp only [debugAt, hat, htext, hn, hpolicy]

theorem debugText_withRealms (w : World E) (rs : Array Realm) (v : Value) :
    (w.withRealms rs).debugText v = w.debugText v :=
  debugAt_withRealms w rs w.debugFuel 0 v

theorem display_withRealms (w : World E) (rs : Array Realm) (n : Native) :
    (w.withRealms rs).display n = w.display n := by
  cases n with
  | bookmark serial target => exact debugText_withRealms w rs target
  | _ => rfl

end

/-! ## Changes that overlook upkeep -/

/-- The computation gives the same result in alike worlds and leaves them alike. -/
def Overlooks (f : World E → α × World E) : Prop :=
  ∀ ⦃w w' : World E⦄, w.Alike w' → (f w).1 = (f w').1 ∧ (f w).2.Alike (f w').2

theorem overlooks_newText (s : String) : Overlooks (E := E) (newText s) := by
  rintro w _ ⟨rs, h⟩
  unfold newText
  split <;> exact ⟨rfl, rs, h⟩

theorem overlooks_newString (s : String) : Overlooks (E := E) (newString s) := fun _ _ h =>
  have hs := overlooks_newText s h
  ⟨congrArg (fun t : Text => Value.string t) hs.1, hs.2⟩

theorem overlooks_newObject (o : ScriptObject) : Overlooks (E := E) (newObject o) := by
  rintro w _ ⟨rs, h⟩
  exact ⟨rfl, rs, h⟩

theorem overlooks_newArray (elements : Array Value) :
    Overlooks (E := E) (newArray elements) := by
  rintro w _ ⟨rs, h⟩
  exact ⟨rfl, rs, h⟩

theorem overlooks_newError (name message : String) :
    Overlooks (E := E) (newError name message) := by
  rintro w _ ⟨rs, h⟩
  exact ⟨rfl, rs, h⟩

theorem overlooks_newRealm (p : NewProperties) : Overlooks (E := E) (newRealm p) := by
  rintro w _ ⟨rs, h⟩
  exact ⟨h.size_eq, rs.push (.fresh p), h.push (Realm.alike_fresh p)⟩

theorem overlooks_setPrototype (id : ObjectId) (prototype : Option Value) :
    Overlooks (E := E) (setPrototype id prototype) := by
  rintro w _ ⟨rs, h⟩
  have hchain (parent : ObjectId) : (w.withRealms rs).chain parent = w.chain parent :=
    chainWithin_withRealms w.objects.size parent w rs
  unfold setPrototype
  split
  · simp only [hchain]
    split <;> exact ⟨rfl, rs, h⟩
  · exact ⟨rfl, rs, h⟩

/-! ### Changes without a result -/

namespace Alike

variable {w w' : World E} (ha : w.Alike w')

include ha

theorem hold (things : List Thing) : (w.hold things).Alike (w'.hold things) := by
  obtain ⟨rs, h⟩ := ha
  exact ⟨rs, h⟩

theorem letGo (things : List Thing) : (w.letGo things).Alike (w'.letGo things) := by
  obtain ⟨rs, h⟩ := ha
  exact ⟨rs, h⟩

theorem modifyObject (id : ObjectId) (f : ScriptObject → ScriptObject) :
    (w.modifyObject id f).Alike (w'.modifyObject id f) := by
  obtain ⟨rs, h⟩ := ha
  exact ⟨rs, h⟩

theorem modifyArray (id : ArrayId) (f : ScriptArray → ScriptArray) :
    (w.modifyArray id f).Alike (w'.modifyArray id f) := by
  obtain ⟨rs, h⟩ := ha
  exact ⟨rs, h⟩

theorem modifyEmbedding (f : E → E) : (w.modifyEmbedding f).Alike (w'.modifyEmbedding f) := by
  obtain ⟨rs, h⟩ := ha
  exact ⟨rs, h⟩

/-- What a link remembers has no part in which wrappers are alive. -/
theorem modifyCreated (id : LinkId) (f : NameSet → NameSet) :
    (w.modifyLink id fun l => { l with created := f l.created }).Alike
      (w'.modifyLink id fun l => { l with created := f l.created }) := by
  obtain ⟨rs, h⟩ := ha
  refine ⟨rs, h.later (fun k => ?_) fun k x _ hx => ?_⟩
  · cases k with
    | bridge => exact Nat.le_refl _
    | link => exact Nat.le_of_eq Array.size_modify.symm
  · cases k with
    | bridge => exact hx
    | link =>
      obtain ⟨l', hl', hlive⟩ := linkLive_iff.mp hx
      obtain ⟨l, hl, rfl | ⟨-, rfl⟩⟩ := links_modifyLink hl'
      · exact linkLive_iff.mpr ⟨_, hl, hlive⟩
      · exact linkLive_iff.mpr ⟨l, hl, hlive⟩

/-- Wrappers die on both sides. -/
theorem expire (dies : WrapperKind → Nat → Bool) : (w.expire dies).Alike (w'.expire dies) := by
  obtain ⟨rs, h⟩ := ha
  exact ⟨rs, h.continued (continues_expire dies w)⟩

/-- What a sweep of the heap starts from are the well-known values, not the caches. -/
theorem collect [Embedding E] (hand : List Thing) : (w.collect hand).Alike (w'.collect hand) := by
  obtain ⟨rs, h⟩ := ha
  have hwell : rs.toList.map (·.wellKnown) = w.realms.toList.map (·.wellKnown) := by
    have hmap := congrArg Array.toList (h.map_eq fun hr => hr.wellKnown)
    simpa only [Array.toList_map] using hmap.symm
  have hkeys : (w.withRealms rs).wellKnownKeys = w.wellKnownKeys := by
    have hflat := congrArg (List.flatMap fun es => es.map Prod.fst) hwell
    rw [List.flatMap_map, List.flatMap_map] at hflat
    exact hflat
  have hvalues : (w.withRealms rs).wellKnownValues = w.wellKnownValues := by
    have hflat := congrArg (List.flatMap fun es => es.map Prod.snd) hwell
    rw [List.flatMap_map, List.flatMap_map] at hflat
    exact hflat
  have hroots : (w.withRealms rs).roots = w.roots := by
    rw [roots, roots, hvalues]
    rfl
  have hfound (hosted : Array (List HostValue)) (things : List Thing) :
      (w.withRealms rs).reached hosted things = w.reached hosted things :=
    visit_withRealms hosted w rs _ things w.unreached
  have hcollect : (w.withRealms rs).collect hand = (w.collect hand).withRealms rs := by
    unfold World.collect
    rw [hkeys, hroots, hfound]
    change (if (w.bridges.isEmpty && w.links.isEmpty && w.wellKnownKeys.isEmpty) = true then _
      else _) = _
    split <;> rfl
  have hrealms : (w.collect hand).realms = w.realms := by
    unfold World.collect
    split <;> rfl
  rw [hcollect]
  exact ⟨rs, hrealms ▸ h.continued (continues_collect hand w)⟩

theorem registerWellKnown (realm : RealmId) (n : Native) (v : Value) :
    (w.registerWellKnown realm n v).Alike (w'.registerWellKnown realm n v) := by
  obtain ⟨rs, h⟩ := ha
  refine ⟨_, h.modify (fun hr => ⟨hr.newProperties, ?_, fun k => ?_⟩) fun hr => hr⟩
  · rw [hr.wellKnown]
  · cases k
    · exact hr.cache .bridge
    · exact hr.cache .link

theorem purge (realm : RealmId) : (w.purge realm).2.Alike (w'.purge realm).2 := by
  obtain ⟨rs, h⟩ := ha
  have hrealm := (Alike.intro rs h).realm realm
  refine ⟨_, h.modify (fun hr => ⟨hr.newProperties, ?_, fun k => ?_⟩) fun hr => hr⟩
  · exact congrArg (List.filter fun e => !w.lostNatives.contains e.1) hrealm.wellKnown
  · cases k
    · exact (hrealm.cache .bridge).purged
    · exact (hrealm.cache .link).purged

end Alike

/-! ### Wrapping -/

/-- The new wrapper goes into both caches, whichever of them is swept for it. -/
theorem Alike.make {w w' : World E} (ha : w.Alike w') (k : WrapperKind) (realm : RealmId)
    (n : Native) : (w.make k realm n).Alike (w'.make k realm n) := by
  obtain ⟨rs, h⟩ := ha
  have hcount (j : WrapperKind) : w.wrapperCount j ≤ (w.make k realm n).wrapperCount j := by
    rw [wrapperCount_make]
    split
    · next hj => exact hj ▸ Nat.le_succ _
    · exact Nat.le_refl _
  have hold (j : WrapperKind) (id : Nat) (hid : id < w.wrapperCount j) :
      (w.make k realm n).wrapperLive j id = w.wrapperLive j id := by
    rw [wrapperLive_make, if_neg]
    rintro ⟨rfl, rfl⟩
    exact Nat.lt_irrefl _ hid
  have hothers {r r' : Realm} (hr : r.Alike w.wrapperCount w.wrapperLive r') :
      r.Alike (w.make k realm n).wrapperCount (w.make k realm n).wrapperLive r' :=
    hr.later hcount fun j id hid hlive => hold j id hid ▸ hlive
  have hnew {c c' : IdentityCache}
      (hc : c.Alike (w.wrapperCount k) (w.wrapperLive k) c') :
      (c.insert (w.wrapperLive k) n.key (w.wrapperCount k)).Alike
        ((w.make k realm n).wrapperCount k) ((w.make k realm n).wrapperLive k)
        (c'.insert (w.wrapperLive k) n.key (w.wrapperCount k)) := by
    rw [wrapperCount_make, if_pos rfl]
    exact hc.insert (by rw [wrapperLive_make, if_pos ⟨rfl, rfl⟩]) (hold k) n.key
  cases k with
  | bridge =>
    refine ⟨_, h.modify (fun hr => ?_) hothers⟩
    refine ⟨hr.newProperties, hr.wellKnown, fun j => ?_⟩
    cases j with
    | bridge => exact hnew (hr.cache .bridge)
    | link => exact (hothers hr).cache .link
  | link =>
    refine ⟨_, h.modify (fun hr => ?_) hothers⟩
    refine ⟨hr.newProperties, hr.wellKnown, fun j => ?_⟩
    cases j with
    | bridge => exact (hothers hr).cache .bridge
    | link => exact hnew (hr.cache .link)

theorem overlooks_wrap (k : WrapperKind) (realm : RealmId) (n : Native) :
    Overlooks (E := E) (wrap k realm n) := by
  intro w w' h
  have hof := h.wrapperOf?_eq k realm n
  cases hw : w.wrapperOf? k realm n with
  | some id =>
    rw [wrap_of_some hw, wrap_of_some (hof ▸ hw)]
    exact ⟨rfl, h⟩
  | none =>
    have hcount : w.wrapperCount k = w'.wrapperCount k := by
      obtain ⟨rs, h⟩ := h
      rfl
    rw [wrap_of_none hw, wrap_of_none (hof ▸ hw), hcount]
    exact ⟨rfl, h.make k realm n⟩

end World

end ScriptSandbox
