import ScriptSandbox.Proofs.World.Elementary
import ScriptSandbox.Proofs.World.Identity
import ScriptSandbox.Proofs.World.Still

/-
  What becomes of one remembered name.

  Between two moments a link keeps its realm and its host object and does not come back to life,
  whether it remembers a name is settled by whether it did, a realm that tracks new properties goes
  on tracking them, and a realm that has the link for a host object goes on having it as long as
  the link is alive (`Recalls`). That it is the right link rests on `Keyed`: a link is cached only
  for the realm and the host object that it belongs to. Nothing is asked of realms here, so that
  the changes of an operation in a realm that does not exist are covered as well.

  A change is steady for a link and a name when what the link remembers of the name stays the same.
  Every elementary change is, but for those by which this link takes up or forgets this name
  (`Elementary.steady`), and so is all that happens to wrappers and caches (`steady_apply`).
-/

namespace ScriptSandbox.World

variable {E : Type} {link : LinkId} {name : String} {realm : RealmId} {n : Native}
  {w w' w'' : World E}

/-! ## The link that a realm has -/

/-- As long as the link is alive, the realm has it for the host object. -/
def Caches (link : LinkId) (realm : RealmId) (n : Native) (w : World E) : Prop :=
  w.linkLive link = true → w.wrapperOf? .link realm n = some link

/-- The link belongs to the realm and the host object. -/
def Belongs (link : LinkId) (realm : RealmId) (key : NativeKey) (w : World E) : Prop :=
  ∃ l, w.links[link]? = some l ∧ l.realm = realm ∧ l.native.key = key

/-- The link belongs to every realm and host object that it is cached for. -/
def Keyed (link : LinkId) (w : World E) : Prop :=
  ∀ realm key, (key, link) ∈ (w.realm realm).links.entries → w.Belongs link realm key

theorem wrapperOf?_link_iff : w.wrapperOf? .link realm n = some link ↔
    IdentityCache.lookup n.key (w.realm realm).links.entries = some link ∧
      w.linkLive link = true := IdentityCache.find?_eq_some

/-- A dead link stays dead, and the entry of a live one stays. -/
theorem Caches.later (h : w.Caches link realm n)
    (hlive : w'.linkLive link = true → w.linkLive link = true)
    (hentry : w'.linkLive link = true →
      IdentityCache.lookup n.key (w.realm realm).links.entries = some link →
      IdentityCache.lookup n.key (w'.realm realm).links.entries = some link) :
    w'.Caches link realm n := fun hl =>
  wrapperOf?_link_iff.mpr ⟨hentry hl (wrapperOf?_link_iff.mp (h (hlive hl))).1, hl⟩

theorem Caches.of_same (h : w.Caches link realm n) (hl : w'.links = w.links)
    (hr : (w'.realm realm).links = (w.realm realm).links) : w'.Caches link realm n := by
  have hlive : w'.linkLive link = w.linkLive link := by rw [linkLive, linkLive, hl]
  refine h.later (fun h' => hlive ▸ h') fun _ he => ?_
  rw [hr]
  exact he

theorem keyed_empty (e : E) : (empty e).Keyed link := by
  intro r key he
  have hnone : ((empty e).realm r).links.entries = [] := entries_cache_of_le (Nat.zero_le r) .link
  rw [hnone] at he
  cases he

theorem Calm.belongs (h : Calm w w') {key : NativeKey} (hb : w.Belongs link realm key) :
    w'.Belongs link realm key := by
  obtain ⟨l, hl, hr, hk⟩ := hb
  obtain ⟨live, hl', -⟩ := h.kept hl
  exact ⟨_, hl', hr, hk⟩

/-- A calm change that caches no link keeps the caches right. -/
theorem Calm.keyed (h : Calm w w')
    (hentries : ∀ {r e}, e ∈ (w'.realm r).links.entries → e ∈ (w.realm r).links.entries)
    (hk : w.Keyed link) : w'.Keyed link := fun r key he => h.belongs (hk r key (hentries he))

/-! ## Asking for a link -/

theorem newestLink_cases (realm : RealmId) (n : Native) (w : World E) :
    (∃ id, w.wrapperOf? .link realm n = some id ∧ w.newestLink realm n = (.link id, w)) ∨
      w.wrapperOf? .link realm n = none ∧
        w.newestLink realm n = (.link w.links.size, w.make .link realm n) := by
  cases h : w.wrapperOf? .link realm n with
  | some id => exact .inl ⟨id, rfl, wrap_of_some h⟩
  | none => exact .inr ⟨rfl, wrap_of_none h⟩

theorem linkLive_of_push {l : Link} (h : link < w.links.size)
    (hlive : ({ w with links := w.links.push l } : World E).linkLive link = true) :
    w.linkLive link = true := by
  rw [linkLive_iff] at hlive ⊢
  obtain ⟨x, hx, hl⟩ := hlive
  refine ⟨x, ?_, hl⟩
  rw [← hx, Array.getElem?_push, if_neg (Nat.ne_of_lt h)]

theorem belongs_make (realm : RealmId) (n : Native) (w : World E) :
    (w.make .link realm n).Belongs w.links.size realm n.key :=
  ⟨⟨realm, n, ∅, true⟩, Array.getElem?_push_size, rfl, rfl⟩

/-- The new link is cached in its realm, if there is such a realm, and nowhere else. -/
theorem entries_make (realm r : RealmId) (n : Native) (w : World E) :
    ((w.make .link realm n).realm r).links.entries =
      if r = realm ∧ realm < w.realms.size then
        ((w.realm r).links.insert w.linkLive n.key w.links.size).entries
      else (w.realm r).links.entries := by
  split
  · next h =>
    obtain ⟨rfl, hsize⟩ := h
    have hc : ((w.make .link r n).realm r).links =
        (w.realm r).links.insert w.linkLive n.key w.links.size :=
      cache_make_self (k := .link) hsize
    rw [hc]
  · next h =>
    by_cases hr : r = realm
    · subst hr
      have hsize : w.realms.size ≤ r := Nat.le_of_not_lt fun hlt => h ⟨rfl, hlt⟩
      have hsize' : (w.make .link r n).realms.size ≤ r := by
        simpa only [make, modifyRealm, Array.size_modify] using hsize
      have hnone : ((w.make .link r n).realm r).links.entries = [] :=
        entries_cache_of_le hsize' .link
      have hbefore : (w.realm r).links.entries = [] := entries_cache_of_le hsize .link
      rw [hnone, hbefore]
    · have hc : ((w.make .link realm n).realm r).links = (w.realm r).links :=
        cache_make_of_ne (k := .link) (j := .link) (.inr hr)
      rw [hc]

/-- Asking for the link of a host object keeps the links that realms have: only a realm that has
    none for the host object gets one. -/
theorem Caches.newestLink (h : w.Caches link realm n) (hlt : link < w.links.size)
    (realm' : RealmId) (n' : Native) : (w.newestLink realm' n').2.Caches link realm n := by
  obtain ⟨id, hw, heq⟩ | ⟨hw, heq⟩ := newestLink_cases realm' n' w
  · rw [heq]
    exact h
  · rw [heq]
    have hlive : (w.make .link realm' n').linkLive link = true → w.linkLive link = true :=
      linkLive_of_push hlt
    refine h.later hlive fun hl he => ?_
    rw [entries_make]
    split
    · next hr =>
      obtain ⟨rfl, -⟩ := hr
      -- the realm has a link for the host object, and for the other one it has none
      have hk : n'.key ≠ n.key := fun hk => by
        have hsome : w.wrapperOf? .link realm n' = some link :=
          wrapperOf?_link_iff.mpr ⟨hk ▸ he, hlive hl⟩
        rw [hw] at hsome
        cases hsome
      exact IdentityCache.lookup_insert_of_ne he (hlive hl) hk
    · exact he

theorem Keyed.newestLink (h : w.Keyed link) (realm' : RealmId) (n' : Native) :
    (w.newestLink realm' n').2.Keyed link := by
  have hcalm : Calm w (w.newestLink realm' n').2 := calm_newestLink realm' n' w
  obtain ⟨id, hw, heq⟩ | ⟨hw, heq⟩ := newestLink_cases realm' n' w
  · rw [heq]
    exact h
  · rw [heq] at hcalm ⊢
    intro r key he
    rw [entries_make] at he
    split at he
    · next hr =>
      obtain ⟨rfl, -⟩ := hr
      -- the entry is that of the new link, or it was there before
      rcases IdentityCache.mem_insert he with hnew | hold
      · cases hnew
        exact belongs_make r n' w
      · exact hcalm.belongs (h r key hold)
    · exact hcalm.belongs (h r key he)

/-- The link that is asked for belongs to the realm and the host object, and it is the one that the
    realm has from then on, if there is such a realm. -/
theorem caches_newestLink (hrealm : realm < w.realms.size) (hk : w.Keyed link)
    (h : (w.newestLink realm n).1 = .link link) :
    (w.newestLink realm n).2.Caches link realm n ∧
      (w.newestLink realm n).2.Belongs link realm n.key := by
  obtain ⟨id, hw, heq⟩ | ⟨hw, heq⟩ := newestLink_cases realm n w
  · rw [heq] at h ⊢
    cases h
    exact ⟨fun _ => hw, hk _ _ (IdentityCache.mem_of_lookup (wrapperOf?_link_iff.mp hw).1)⟩
  · rw [heq] at h ⊢
    cases h
    refine ⟨fun hlive => wrapperOf?_link_iff.mpr ⟨?_, hlive⟩, belongs_make realm n w⟩
    rw [entries_make, if_pos ⟨rfl, hrealm⟩]
    exact IdentityCache.lookup_insert_self

/-! ## From one moment to a later one -/

/-- What becomes of a link and of whether it remembers a name: `f` says what the answer is
    afterwards. -/
structure Recalls (link : LinkId) (name : String) (f : Prop → Prop) (w w' : World E) : Prop where
  kept : ∀ {l}, w.links[link]? = some l → ∃ created live,
    w'.links[link]? = some { l with created := created, live := live } ∧
      (name ∈ created ↔ f (name ∈ l.created)) ∧ (live = true → l.live = true)
  tracking : ∀ realm, (w.realm realm).newProperties = .trackCreated →
    (w'.realm realm).newProperties = .trackCreated
  cached : ∀ realm n, link < w.links.size → w.Caches link realm n → w'.Caches link realm n
  keyed : w.Keyed link → w'.Keyed link

/-- What the link remembers of the name stays the same. -/
abbrev Steady (link : LinkId) (name : String) : World E → World E → Prop :=
  Recalls link name fun p => p

theorem Recalls.congr {f g : Prop → Prop} (h : Recalls link name f w w') (hfg : ∀ p, f p ↔ g p) :
    Recalls link name g w w' := by
  obtain rfl : f = g := funext fun p => propext (hfg p)
  exact h

theorem Recalls.trans {f g : Prop → Prop} (h : Recalls link name f w w')
    (h' : Recalls link name g w' w'') : Recalls link name (fun p => g (f p)) w w'' where
  kept hl := by
    obtain ⟨a, la, ha, hma, hla⟩ := h.kept hl
    obtain ⟨b, lb, hb, hmb, hlb⟩ := h'.kept ha
    exact ⟨b, lb, hb, hmb.trans (iff_of_eq (congrArg g (propext hma))), fun e => hla (hlb e)⟩
  tracking r ht := h'.tracking r (h.tracking r ht)
  cached r m hlt hc := by
    obtain ⟨a, la, ha, -⟩ := h.kept (Array.getElem?_eq_getElem hlt)
    exact h'.cached r m (Array.getElem?_eq_some_iff.mp ha).1 (h.cached r m hlt hc)
  keyed hk := h'.keyed (h.keyed hk)

namespace Steady

theorem refl (w : World E) : Steady link name w w where
  kept {l} hl := ⟨l.created, l.live, hl, Iff.rfl, id⟩
  tracking _ ht := ht
  cached _ _ _ hc := hc
  keyed hk := hk

theorem of_still (h : Still w w')
    (hc : ∀ realm n, link < w.links.size → w.Caches link realm n → w'.Caches link realm n)
    (hk : w.Keyed link → w'.Keyed link) : Steady link name w w' where
  kept {l} hl := by
    obtain ⟨live, hl', hlive⟩ := h.calm.kept hl
    exact ⟨l.created, live, hl', Iff.rfl, hlive⟩
  tracking r ht := (h.conduct r).trans ht
  cached := hc
  keyed := hk

theorem of_eq (hl : w'.links = w.links) (hr : w'.realms = w.realms) : Steady link name w w' where
  kept {l} h := ⟨l.created, l.live, by rw [hl]; exact h, Iff.rfl, id⟩
  tracking r ht := by
    rw [World.realm, hr]
    exact ht
  cached r m _ hc := hc.of_same hl (by rw [World.realm, World.realm, hr])
  keyed hk := fun r key he => by
    have he' : (key, link) ∈ (w.realm r).links.entries := by
      rw [World.realm, ← hr]
      exact he
    rw [Belongs, hl]
    exact hk r key he'

/-- Nothing but the caches of links may matter to a link, and they stay as they are. -/
theorem of_same_caches (h : Still w w') (hl : w'.links = w.links)
    (hr : ∀ r, (w'.realm r).links = (w.realm r).links) : Steady link name w w' :=
  .of_still h (fun r _ _ hc => hc.of_same hl (hr r)) (h.calm.keyed fun {r e} he => by
    rw [← hr r]
    exact he)

/-- Links die at most. -/
theorem of_calm (h : Calm w w') (hr : w'.realms = w.realms) : Steady link name w w' := by
  have hrealm : ∀ r, w'.realm r = w.realm r := fun r => by rw [World.realm, World.realm, hr]
  refine .of_still ⟨h, .of_realms_eq hr⟩ (fun r m hlt hc => hc.later (fun hl => ?_) fun _ he => ?_)
    (h.keyed fun {r e} he => ?_)
  · obtain ⟨l', hl', hlive⟩ := linkLive_iff.mp hl
    obtain ⟨live, hk, himp⟩ := h.kept (Array.getElem?_eq_getElem hlt)
    rw [hl', Option.some_inj] at hk
    subst hk
    exact linkLive_iff.mpr ⟨_, Array.getElem?_eq_getElem hlt, himp hlive⟩
  · rw [hrealm]
    exact he
  · rw [← hrealm]
    exact he

end Steady

/-! ## Elementary changes -/

theorem steady_bridge (realm : RealmId) (n : Native) (w : World E) :
    Steady link name w (w.bridge realm n).2 := by
  refine .of_same_caches (still_bridge realm n w) ?_ fun r => ?_
  · unfold bridge
    split <;> rfl
  · unfold bridge
    split
    · rfl
    · exact realm_modifyRealm (P := fun x => x.links = (w.realm r).links) rfl fun hx => hx

theorem steady_newestLink (realm : RealmId) (n : Native) (w : World E) :
    Steady link name w (w.newestLink realm n).2 :=
  .of_still (still_newestLink realm n w) (fun _ _ hlt hc => hc.newestLink hlt realm n) fun hk =>
    hk.newestLink realm n

theorem steady_collect [Embedding E] (hand : List Thing) (w : World E) :
    Steady link name w (w.collect hand) := by
  refine .of_calm (calm_collect hand w) ?_
  unfold collect
  split <;> rfl

/-- Changing the created names of a link. -/
theorem recalls_modifyCreated {g : NameSet → NameSet} {f : Prop → Prop} {id : LinkId}
    (h : ∀ created : NameSet,
      name ∈ (if id = link then g created else created) ↔ f (name ∈ created)) (w : World E) :
    Recalls link name f w (w.modifyLink id fun l => { l with created := g l.created }) := by
  have hlink : ∀ j : Nat, (w.modifyLink id fun l => { l with created := g l.created }).links[j]? =
      w.links[j]?.map fun l =>
        { l with created := if id = j then g l.created else l.created } := fun j => by
    simp only [modifyLink, Array.getElem?_modify]
    split
    · rfl
    · simp only [Option.map_id']
  refine ⟨fun {l} hl => ⟨_, l.live, by rw [hlink, hl, Option.map_some], h l.created, fun e => e⟩,
    fun _ ht => ht, fun r m hlt hc => hc.later (fun hl => ?_) fun _ he => he, fun hk => ?_⟩
  · obtain ⟨l', hl', hlive⟩ := linkLive_iff.mp hl
    rw [hlink] at hl'
    obtain ⟨l, hl, rfl⟩ := Option.map_eq_some_iff.mp hl'
    exact linkLive_iff.mpr ⟨l, hl, hlive⟩
  · intro r key he
    obtain ⟨l, hl, hr, hkey⟩ := hk r key he
    refine ⟨{ l with created := if id = link then g l.created else l.created }, ?_, hr, hkey⟩
    rw [hlink, hl, Option.map_some]

theorem recalls_addCreated (w : World E) :
    Recalls link name (fun _ => True) w (w.addCreated link name) := by
  refine recalls_modifyCreated (g := fun created => created.insert name) (fun created => ?_) w
  simp

theorem recalls_removeCreated (w : World E) :
    Recalls link name (fun _ => False) w (w.removeCreated link name) := by
  refine recalls_modifyCreated (g := fun created => created.erase name) (fun created => ?_) w
  simp

theorem Elementary.steady [Embedding E] {allows : Allowance} (ha : ¬ allows.adds link name)
    (hr : ¬ allows.removes link name) (h : Elementary allows w w') :
    Steady link name w w' := by
  cases h with
  | text s =>
    refine .of_eq ?_ ?_ <;>
    · unfold newText
      split <;> rfl
  | object o => exact .of_eq rfl rfl
  | array elements => exact .of_eq rfl rfl
  | modifyObject id f => exact .of_eq rfl rfl
  | modifyArray id hf => exact .of_eq rfl rfl
  | mark h id joining => exact .of_eq rfl rfl
  | hold things => exact .of_eq rfl rfl
  | letGo things => exact .of_eq rfl rfl
  | collect hand => exact steady_collect hand w
  | error name message => exact .of_eq rfl rfl
  | bookmark target => exact .of_eq rfl rfl
  | bridge realm n => exact steady_bridge realm n w
  | link realm n => exact steady_newestLink realm n w
  | embedding f => exact .of_eq rfl rfl
  | @add id other hadd =>
    refine recalls_modifyCreated (g := fun created => created.insert other) (fun created => ?_) w
    split
    · next hid =>
      have hname : name ≠ other := fun hname => ha (hid ▸ hname ▸ hadd)
      simp [hname]
    · rfl
  | @remove id other hremove =>
    refine recalls_modifyCreated (g := fun created => created.erase other) (fun created => ?_) w
    split
    · next hid =>
      have hname : name ≠ other := fun hname => hr (hid ▸ hname ▸ hremove)
      simp [hname]
    · rfl

theorem Changes.steady [Embedding E] {allows : Allowance} (ha : ¬ allows.adds link name)
    (hr : ¬ allows.removes link name) (h : Changes allows w w') :
    Steady link name w w' := by
  induction h with
  | refl => exact .refl w
  | tail _ hlast ih => exact ih.trans (hlast.steady ha hr)

/-- Changes by which no link takes up or forgets a name. -/
theorem steady_of_changes [Embedding E] (h : Changes .nothing w w') :
    Steady link name w w' := h.steady (fun hf => hf) fun hf => hf

/-! ## Wrappers and caches -/

/-- A new realm has no links, like a realm that does not exist. -/
theorem links_newRealm (p : NewProperties) (r : RealmId) (w : World E) :
    ((w.newRealm p).2.realm r).links = (w.realm r).links := by
  simp only [World.realm, newRealm, Array.getElem?_push]
  split
  · next h =>
    rw [h, Array.getElem?_eq_none (Nat.le_refl _)]
    rfl
  · rfl

theorem steady_newRealm (p : NewProperties) (w : World E) :
    Steady link name w (w.newRealm p).2 where
  kept {l} hl := ⟨l.created, l.live, hl, Iff.rfl, id⟩
  tracking r ht := by
    simp only [World.realm, newRealm, Array.getElem?_push]
    split
    · next h =>
      rw [World.realm, h, Array.getElem?_eq_none (Nat.le_refl _)] at ht
      cases ht
    · exact ht
  cached r _ _ hc := hc.of_same rfl (links_newRealm p r w)
  keyed hk := fun r key he => hk r key (links_newRealm p r w ▸ he)

theorem steady_registerWellKnown (realm : RealmId) (n : Native) (v : Value) (w : World E) :
    Steady link name w (w.registerWellKnown realm n v) := by
  have hconduct : SameConduct w (w.registerWellKnown realm n v) :=
    fun r => sameConduct_modifyRealm (fun _ => by rfl) w r
  refine .of_same_caches ⟨.of_eq rfl rfl, hconduct⟩ rfl fun r => ?_
  exact realm_modifyRealm (P := fun x => x.links = (w.realm r).links) rfl fun hx => hx

theorem steady_expire (dies : WrapperKind → Nat → Bool) (w : World E) :
    Steady link name w (w.expire dies) := by
  have hlinks : ∀ j : Nat, (w.expire dies).links[j]? =
      w.links[j]?.map fun l => { l with live := l.live && !dies .link j } := fun j => by
    simp only [expire, Array.getElem?_mapIdx]
  refine .of_calm ⟨rfl, fun {id l} hl => ⟨l.live && !dies .link id, ?_, fun h => ?_⟩,
    fun {id l} hl hn => ?_⟩ rfl
  · rw [hlinks, hl, Option.map_some]
  · exact (Bool.and_eq_true_iff.mp h).1
  · rw [hlinks, hn] at hl
    cases hl

theorem steady_purge (realm : RealmId) (w : World E) : Steady link name w (w.purge realm).2 := by
  have hconduct : SameConduct w (w.purge realm).2 :=
    fun r => sameConduct_modifyRealm (fun _ => by rfl) w r
  have hcalm : Calm w (w.purge realm).2 := .of_eq rfl rfl
  have hentries : ∀ r, ((w.purge realm).2.realm r).links.entries =
      if r = realm then (w.realm r).links.entries.filter fun e => w.linkLive e.2
      else (w.realm r).links.entries := fun r => by
    split
    · next h => exact h ▸ entries_purge .link realm w
    · next h => rw [realm_purge_of_ne h]
  refine .of_still ⟨hcalm, hconduct⟩ (fun r m _ hc => hc.later (fun hl => hl) fun hl he => ?_)
    (hcalm.keyed fun {r e} he => ?_)
  · rw [hentries]
    split
    · exact IdentityCache.lookup_filter he hl
    · exact he
  · rw [hentries] at he
    split at he
    · exact (List.mem_filter.mp he).1
    · exact he

/-- All that happens to wrappers and caches is steady, for every link and every name. -/
theorem steady_apply [Embedding E] (w : World E) (event : WrapperEvent) :
    Steady link name w (event.apply w) := by
  unfold WrapperEvent.apply
  split
  · cases event with
    | newRealm p => exact steady_newRealm p w
    | registerWellKnown r n v => exact steady_registerWellKnown r n v w
    | wrap k r n =>
      cases k with
      | bridge => exact steady_bridge r n w
      | link => exact steady_newestLink r n w
    | link r value => exact steady_of_changes (changes_link r value w)
    | fromHost realm? value => exact steady_of_changes (changes_fromHostIn realm? value w)
    | expire dies => exact steady_expire dies w
    | collect hand => exact steady_collect hand w
    | purge r => exact steady_purge r w
  · exact .refl w

end ScriptSandbox.World
