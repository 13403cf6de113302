import ScriptSandbox.Session.Script
import ScriptSandbox.Proofs.World.Wrapper

/-
  Identity of wrappers.

  Realms are made, host objects are wrapped, host values enter, wrappers die and caches are purged,
  in any order. Nothing is assumed about which wrappers die: every relation of liveness in which the
  dead stay dead gives such a run. After every run the caches identify (`Identifies`), wrapping
  gives a live wrapper of the host object, and a wrapper that was obtained at one moment is the same
  as one obtained later only if both are of one kind, one realm and one host object.
-/

namespace ScriptSandbox

/-- What can happen to wrappers and their caches. -/
inductive WrapperEvent where
  | newRealm (newProperties : NewProperties)
  | registerWellKnown (realm : RealmId) (n : Native) (v : Value)
  | wrap (k : WrapperKind) (realm : RealmId) (n : Native)
  /-- A host value enters guarded. -/
  | link (realm : RealmId) (value : HostValue)
  /-- A host value enters unrestricted. -/
  | fromHost (realm? : Option RealmId) (value : HostValue)
  /-- The last holders of some wrappers let go of them. -/
  | expire (dies : WrapperKind → Nat → Bool)
  | collect (hand : List Thing)
  | purge (realm : RealmId)

namespace WrapperEvent

variable {E : Type} [Embedding E]

/-- The realm that an event needs. -/
def realm? : WrapperEvent → Option RealmId
  | registerWellKnown realm _ _ | wrap _ realm _ | link realm _ | purge realm => some realm
  | fromHost realm? _ => realm?
  | newRealm _ | expire _ | collect _ => none

/-- What an event does to a world. -/
def effect (w : World E) : WrapperEvent → World E
  | newRealm newProperties => (w.newRealm newProperties).2
  | registerWellKnown realm n v => w.registerWellKnown realm n v
  | wrap k realm n => (w.wrap k realm n).2
  | link realm value => (w.link realm value).2
  | fromHost realm? value => (w.fromHostIn realm? value).2
  | expire dies => w.expire dies
  | collect hand => w.collect hand
  | purge realm => (w.purge realm).2

/-- The world after an event. An event of a realm that does not exist does not occur. -/
def apply (w : World E) (event : WrapperEvent) : World E :=
  if event.realm?.all (· < w.realms.size) then event.effect w else w

/-- The world after some events. -/
def run (w : World E) (events : List WrapperEvent) : World E := events.foldl apply w

end WrapperEvent

namespace World

variable {E : Type} {k : WrapperKind} {w w' : World E} {realm : RealmId} {n : Native}

/-! ## Runs -/

theorem continues_apply [Embedding E] (w : World E) (event : WrapperEvent) :
    Continues w (event.apply w) := by
  unfold WrapperEvent.apply
  split
  · next h =>
    have hrealm : ∀ {r}, event.realm? = some r → r < w.realms.size := fun {r} hr => by
      rw [hr, Option.all_some] at h
      exact of_decide_eq_true h
    cases event with
    | newRealm p => exact continues_newRealm p w
    | registerWellKnown r n v => exact continues_registerWellKnown r n v w
    | wrap k r n => exact continues_wrap (hrealm rfl) k n
    | link r value => exact continues_link r value w (hrealm rfl)
    | fromHost realm? value => exact continues_fromHostIn realm? value w fun _ => hrealm
    | expire dies => exact continues_expire dies w
    | collect hand => exact continues_collect hand w
    | purge r => exact continues_purge r w
  · exact .refl w

theorem continues_run [Embedding E] (w : World E) (events : List WrapperEvent) :
    Continues w (WrapperEvent.run w events) := by
  induction events generalizing w with
  | nil => exact .refl w
  | cons event rest ih => exact (continues_apply w event).trans (ih (event.apply w))

theorem faithful_empty (k : WrapperKind) (e : E) : Faithful k (empty e) := by
  have hnone : ∀ r, ((empty e).realm r).cache k = .empty := fun r => by cases k <;> rfl
  refine ⟨fun r => ?_, fun {r key id} he => ?_, fun {id x} hx _ => ?_⟩
  · rw [hnone]
    exact IdentityCache.distinct_empty
  · rw [hnone] at he
    cases he
  · have hlt : id < (empty e).wrapperCount k := lt_wrapperCount hx
    cases k <;> exact absurd hlt (Nat.not_lt_zero id)

/-! ## What faithful caches know -/

namespace Faithful

variable (h : Faithful k w) {id id' : Nat} {x x' : WrapperCore}
include h

/-- A live wrapper is the one that its cache has for its host object. -/
theorem wrapperOf?_eq (hx : w.wrapper? k id = some x) (hl : x.live = true)
    (hn : n.key = x.native.key) : w.wrapperOf? k x.realm n = some id := by
  rw [wrapperOf?, hn, IdentityCache.find?_eq_some_iff (h.distinct x.realm)]
  exact ⟨h.listed hx hl, wrapperLive_iff.mpr ⟨x, hx, hl⟩⟩

theorem unique (hx : w.wrapper? k id = some x) (hl : x.live = true)
    (hx' : w.wrapper? k id' = some x') (hl' : x'.live = true) (hr : x.realm = x'.realm)
    (hk : x.native.key = x'.native.key) : id = id' := by
  have hid : w.wrapperOf? k x.realm x.native = some id := h.wrapperOf?_eq hx hl rfl
  have hid' : w.wrapperOf? k x.realm x.native = some id' := hr ▸ h.wrapperOf?_eq hx' hl' hk
  exact Option.some_inj.mp (hid.symm.trans hid')

theorem cached_eq_length (realm : RealmId) :
    w.cached k realm = (w.liveWrappers k realm).length := by
  rw [cached_eq]
  refine IdentityCache.liveCount_eq_length (h.distinct realm) (fun {key key' id} he he' => ?_)
    (nodup_liveWrappers k realm w) fun id => ?_
  · obtain ⟨x, hx, -, rfl⟩ := h.keyed he
    obtain ⟨x', hx', -, rfl⟩ := h.keyed he'
    rw [hx, Option.some_inj] at hx'
    rw [hx']
  · rw [mem_liveWrappers, wrapperLive_iff]
    constructor
    · rintro ⟨x, hx, hl, rfl⟩
      exact ⟨⟨x.native.key, h.listed hx hl⟩, x, hx, hl⟩
    · rintro ⟨⟨key, he⟩, x, hx, hl⟩
      obtain ⟨x', hx', hr, -⟩ := h.keyed he
      rw [hx, Option.some_inj] at hx'
      subst hx'
      exact ⟨x, hx, hl, hr⟩

/-- If live wrappers keep their host objects alive, an entry is live as soon as its wrapper is. -/
theorem native_live {e : NativeKey × Nat} (he : e ∈ ((w.realm realm).cache k).entries)
    {nativeLive : NativeKey → Bool}
    (hkeep : ∀ {id x}, w.wrapper? k id = some x → x.live = true → nativeLive x.native.key = true) :
    (nativeLive e.1 && w.wrapperLive k e.2) = w.wrapperLive k e.2 := by
  obtain ⟨x, hx, -, hkey⟩ := h.keyed he
  by_cases hlive : w.wrapperLive k e.2 = true
  · obtain ⟨x', hx', hl⟩ := wrapperLive_iff.mp hlive
    rw [hx, Option.some_inj] at hx'
    subst hx'
    rw [← hkey, hkeep hx hl, Bool.true_and]
  · rw [Bool.eq_false_iff.mpr hlive, Bool.and_false]

/-- Wrapping gives a live wrapper of the host object in the realm. -/
theorem wrap_value (realm : RealmId) (n : Native) :
    ∃ id x, (w.wrap k realm n).1 = k.value id ∧ (w.wrap k realm n).2.wrapper? k id = some x ∧
      x.realm = realm ∧ x.native.key = n.key ∧ x.live = true := by
  cases hw : w.wrapperOf? k realm n with
  | some id =>
    rw [wrap_of_some hw]
    obtain ⟨he, ha⟩ := (IdentityCache.find?_eq_some_iff (h.distinct realm)).mp hw
    obtain ⟨x, hx, hrealm, hkey⟩ := h.keyed he
    obtain ⟨x', hx', hl⟩ := wrapperLive_iff.mp ha
    rw [hx, Option.some_inj] at hx'
    subst hx'
    exact ⟨id, x, rfl, hx, hrealm, hkey, hl⟩
  | none =>
    rw [wrap_of_none hw]
    exact ⟨_, ⟨realm, n, true⟩, rfl, by rw [wrapper?_make, if_pos ⟨rfl, rfl⟩], rfl, rfl, rfl⟩

end Faithful

/-! ## Entering -/

theorem fromHost_object (h : n.bookmarked? = none) :
    w.fromHost realm (.object n) = w.wrap .bridge realm n := by
  rw [fromHost, h]
  rfl

theorem link_object (h : n.bookmarked? = none) (hw : w.wellKnown? realm n = none) :
    w.link realm (.object n) = w.wrap .link realm n := by
  rw [link, hw, h]
  rfl

/-! ## Identity -/

/-- Host objects and their live wrappers belong together. -/
structure Identifies (w : World E) : Prop where
  /-- A live wrapper is the one its cache returns, so wrapping its host object gives it again. -/
  returned : ∀ {k id x}, w.wrapper? k id = some x → x.live = true → ∀ n, n.key = x.native.key →
    w.wrapperOf? k x.realm n = some id ∧ w.wrap k x.realm n = (k.value id, w)
  /-- So does bringing the host object in, unless another value stands for it. -/
  entered : ∀ {id x} n, n.key = x.native.key → x.live = true → n.bookmarked? = none →
    (w.wrapper? .bridge id = some x → w.fromHost x.realm (.object n) = (.bridge id, w)) ∧
    (w.wrapper? .link id = some x → w.wellKnown? x.realm n = none →
      w.link x.realm (.object n) = (.link id, w))
  /-- A host object has at most one live wrapper of a kind in a realm. -/
  unique : ∀ {k id id' x x'}, w.wrapper? k id = some x → x.live = true →
    w.wrapper? k id' = some x' → x'.live = true → x.realm = x'.realm →
    x.native.key = x'.native.key → id = id'
  /-- The count of a cache is the number of live wrappers. -/
  counted : ∀ k realm, w.cached k realm = (w.liveWrappers k realm).length
  /-- To ask of an entry that its host object is alive, too, makes no difference. -/
  natives : ∀ nativeLive : NativeKey → Bool,
    (∀ {k id x}, w.wrapper? k id = some x → x.live = true → nativeLive x.native.key = true) →
    ∀ {k realm e}, e ∈ ((w.realm realm).cache k).entries →
      (nativeLive e.1 && w.wrapperLive k e.2) = w.wrapperLive k e.2

theorem identifies_of_faithful (h : ∀ k, Faithful k w) : w.Identifies where
  returned hx hl n hn :=
    have hid := (h _).wrapperOf?_eq hx hl hn
    ⟨hid, wrap_of_some hid⟩
  entered n hn hl hb := by
    refine ⟨fun hx => ?_, fun hx hw => ?_⟩
    · exact (fromHost_object hb).trans (wrap_of_some ((h .bridge).wrapperOf?_eq hx hl hn))
    · exact (link_object hb hw).trans (wrap_of_some ((h .link).wrapperOf?_eq hx hl hn))
  unique hx hl hx' hl' hr hk := (h _).unique hx hl hx' hl' hr hk
  counted k realm := (h k).cached_eq_length realm
  natives _ hkeep _ _ _ he := (h _).native_live he hkeep

/-- After every run the caches identify. A wrapper that was obtained before further events and one
    obtained after them are the same only if they agree in kind, realm and host object. Wrapping
    gives a live wrapper of the very host object in the very realm, and what it gave before, it
    gives again, as long as that wrapper is alive. Bringing a host object in is wrapping it, unless
    another value stands for it. -/
theorem wrappers_identified [Embedding E] (e : E) (before after : List WrapperEvent) :
    let w := WrapperEvent.run (empty e) before
    let w' := WrapperEvent.run w after
    w'.Identifies ∧
    (∀ k k' id id' x x', w.wrapper? k id = some x → w'.wrapper? k' id' = some x' →
      (k.value id).sameRef (k'.value id') = true →
        k = k' ∧ x.realm = x'.realm ∧ x.native = x'.native) ∧
    (∀ k realm n n', realm < w.realms.size → n'.key = n.key →
      let w₁ := (w.wrap k realm n).2
      let w₂ := WrapperEvent.run w₁ after
      ∃ id x, (w.wrap k realm n).1 = k.value id ∧
        (w₁.wrapper? k id = some x ∧ x.live = true ∧ x.realm = realm ∧ x.native.key = n.key) ∧
        (w₂.wrapperLive k id = true → w₂.wrap k realm n' = (k.value id, w₂))) ∧
    ∀ realm n, n.bookmarked? = none →
      w.fromHost realm (.object n) = w.wrap .bridge realm n ∧
      (w.wellKnown? realm n = none → w.link realm (.object n) = w.wrap .link realm n) := by
  intro w w'
  have hf : ∀ k, Faithful k w := fun k => (continues_run _ before).faithful (faithful_empty k e)
  have hlater : Continues w w' := continues_run w after
  refine ⟨identifies_of_faithful fun k => hlater.faithful (hf k), ?_, ?_, ?_⟩
  · intro k k' id id' x x' hx hx' hsame
    obtain ⟨rfl, rfl⟩ := WrapperKind.value_inj (of_decide_eq_true hsame)
    obtain ⟨live, hkept, -⟩ := hlater.kept hx
    rw [hx', Option.some_inj] at hkept
    rw [hkept]
    exact ⟨rfl, rfl, rfl⟩
  · intro k realm n n' hr hn w₁ w₂
    obtain ⟨id, x, hv, hx, hrealm, hkey, hxlive⟩ := (hf k).wrap_value realm n
    have hwrap : Continues w w₁ := continues_wrap hr k n
    have hafter : Continues w₁ w₂ := continues_run w₁ after
    refine ⟨id, x, hv, ⟨hx, hxlive, hrealm, hkey⟩, fun hlive => ?_⟩
    obtain ⟨live, hx₂, -⟩ := hafter.kept hx
    obtain ⟨x₂, hx₂', hl⟩ := wrapperLive_iff.mp hlive
    rw [hx₂, Option.some_inj] at hx₂'
    subst hx₂'
    have hf₂ : Faithful k w₂ := hafter.faithful (hwrap.faithful (hf k))
    have hid := hf₂.wrapperOf?_eq hx₂ hl (hn.trans hkey.symm)
    rw [← hrealm]
    exact wrap_of_some hid
  · intro realm n hb
    exact ⟨fromHost_object hb, link_object hb⟩

/-- A link dies and its host object is linked anew while another link lives on. The new link is a
    live one of the second host object. -/
theorem wrappers_identified_relinked :
    let w := WrapperEvent.run (empty (Session.ofRecords #[]))
      [.newRealm .allow, .wrap .link 0 (.hosted 0)]
    let after := [.expire fun _ id => id == 0, .wrap .link 0 (.hosted 0), .purge 0]
    let w' := WrapperEvent.run w after
    let w₁ := (w.link 0 (.object (.hosted 1))).2
    let w₂ := WrapperEvent.run w₁ after
    w'.cached .link 0 = 1 ∧ w'.wrap .link 0 (.hosted 0) = (.link 1, w') ∧
      (0 < w.realms.size ∧ (Native.hosted 1).bookmarked? = none ∧
        w.wellKnown? 0 (.hosted 1) = none ∧ w₂.wrapperLive .link 1 = true) ∧
      (∃ x, w₁.wrapper? .link 1 = some x ∧ x.live = true ∧ x.native.key = (Native.hosted 1).key) ∧
      w₂.wrap .link 0 (.hosted 1) = (.link 1, w₂) := by
  intro w after w' w₁ w₂
  obtain ⟨hnow, -, hagain, hentering⟩ := wrappers_identified (Session.ofRecords #[])
    [.newRealm .allow, .wrap .link 0 (.hosted 0)] after
  have hlink : w'.wrapper? .link 1 = some ⟨0, .hosted 0, true⟩ := by decide +kernel
  have hpremises : 0 < w.realms.size ∧ (Native.hosted 1).bookmarked? = none ∧
      w.wellKnown? 0 (.hosted 1) = none ∧ w₂.wrapperLive .link 1 = true := by decide +kernel
  obtain ⟨hrealm, hplain, hunknown, hlive⟩ := hpremises
  have henters : w.link 0 (.object (.hosted 1)) = w.wrap .link 0 (.hosted 1) :=
    (hentering 0 (.hosted 1) hplain).2 hunknown
  refine ⟨(hnow.counted .link 0).trans (by decide +kernel),
    (hnow.returned hlink rfl _ rfl).2, ⟨hrealm, hplain, hunknown, hlive⟩, ?_⟩
  obtain ⟨id, x, hid, ⟨hx, hxlive, -, hkey⟩, hwrap⟩ :=
    hagain .link 0 (.hosted 1) (.hosted 1) hrealm rfl
  have hone : (w.wrap .link 0 (.hosted 1)).1 = WrapperKind.link.value 1 := by decide +kernel
  obtain ⟨-, rfl⟩ := WrapperKind.value_inj (hone.symm.trans hid)
  rw [← henters] at hx hwrap
  exact ⟨⟨x, hx, hxlive, hkey⟩, hwrap hlive⟩

end World

end ScriptSandbox
