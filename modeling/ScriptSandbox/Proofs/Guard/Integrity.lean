import ScriptSandbox.Session.Basic
import ScriptSandbox.Proofs.Interleaving
import ScriptSandbox.Proofs.Operation.HostAccess

/-
  Integrity of protected properties.

  A property is protected on a host object when it exists there, is not on the write list, and was
  created through no live link. The check of a link looks at all three, and looks again at every
  write, so nothing that scripts do through links takes the protection away: no write of the name
  passes the check, hence no pending access writes it, and the name never enters the created names
  of a link. `Protects` is that invariant, `integrity` the contract that every access meets, and
  `protected_property_kept` the statement about whole runs, with pending accesses answered in any
  order.
-/

namespace ScriptSandbox

variable {E : Type} [Embedding E]

/-- The step ended with a thrown value. -/
def Step.Front.Threw {σ α : Type} (f : Front σ α) : Prop :=
  ∃ v, f = .finished (.error (.thrown v))

/-- What throws at once, throws with everything that would follow. -/
theorem Step.threw_bind {σ α β : Type} {s : Step σ α} {w : σ} (h : (s.settle w).1.Threw)
    (f : α → Step σ β) : ((s >>= f).settle w).1.Threw := by
  obtain ⟨v, hv⟩ := h
  refine ⟨v, ?_⟩
  rw [bind_eq_andThen, settle_andThen]
  split <;> simp_all

theorem Evaluation.threw_fail {α : Type} (realm : RealmId) (f : Failure) (w : World E) :
    ((fail realm f : Evaluation E α).settle w).1.Threw :=
  ⟨_, rfl⟩

/-- A host object that keeps its properties in a map and declares one policy for good. An access
    changes no property but the one that it names, and none at all when it goes to another host
    object. `valid` is what holds of the embedding meanwhile. -/
structure MapHost (E : Type) [Embedding E] (host : HostId) where
  valid : E → Prop
  properties : E → String → Option HostValue
  policy : Option Policy
  has_eq : ∀ {e} name, valid e → Embedding.has e host name = (properties e name).isSome
  policy_eq : ∀ {e}, valid e → Embedding.policy e host = policy
  get : ∀ {e} id name, valid e →
    valid (Embedding.get id name e).2 ∧ properties (Embedding.get id name e).2 = properties e
  set : ∀ {e} id name value, valid e → valid (Embedding.set id name value e).2 ∧
    ∀ other, id ≠ host ∨ name ≠ other →
      properties (Embedding.set id name value e).2 other = properties e other
  delete : ∀ {e} id name, valid e → valid (Embedding.delete id name e).2 ∧
    ∀ other, id ≠ host ∨ name ≠ other →
      properties (Embedding.delete id name e).2 other = properties e other

namespace MapHost

variable {host : HostId} (m : MapHost E host) (p : String) (v : HostValue)

/-- The property `p` of the host object has the value `v`, it is not on the write list, and no live
    link has created it. -/
structure Protects (w : World E) : Prop where
  valid : m.valid w.embedding
  there : m.properties w.embedding p = some v
  unlisted : ∀ {policy}, m.policy = some policy → p ∉ policy.writeList
  untracked : ∀ {id : LinkId} {l : Link}, w.links[id]? = some l → l.live = true →
    l.native = .hosted host → p ∉ l.created

/-- The protection is kept, and links keep their host objects. -/
def integrity : Contract (World E) where
  evolves w w' := (m.Protects p v w → m.Protects p v w') ∧
    ∀ {id n}, w.linkNative? id = some n → w'.linkNative? id = some n
  refl _ := ⟨id, id⟩
  trans h k := ⟨fun hp => k.1 (h.1 hp), fun hn => k.2 (h.2 hn)⟩
  asks _ _ := True
  asks_stable _ _ := trivial
  answers _ _ _ := True

variable {m p v}

theorem Protects.calm {w w' : World E} (h : m.Protects p v w) (hc : w.Calm w') :
    m.Protects p v w' where
  valid := hc.embedding ▸ h.valid
  there := hc.embedding ▸ h.there
  unlisted := h.unlisted
  untracked hl hlive hn := by
    rcases hc.link_cases hl with ⟨l, hw, hnat, hcr, hback⟩ | hcr
    · rw [hcr]
      exact h.untracked hw (hback hlive) (hnat ▸ hn)
    · rw [hcr]
      exact List.not_mem_nil

theorem lenient_integrity : (m.integrity p v).Lenient :=
  ⟨fun _ _ => trivial, fun hc => ⟨fun h => h.calm hc, fun hn => hc.linkNative? hn⟩⟩

/-! ## Methods of host objects -/

/-- A method of the embedding keeps the protection if it leaves the property. -/
theorem evolves_hosted {α : Type} {f : E → α × E} {w : World E}
    (hf : ∀ {e}, m.valid e → m.valid (f e).2 ∧ m.properties (f e).2 p = m.properties e p) :
    (m.integrity p v).evolves w (w.hosted f).2 := by
  refine ⟨fun h => ?_, fun hn => hn⟩
  obtain ⟨hv, hp⟩ := hf h.valid
  exact ⟨hv, hp.trans h.there, h.unlisted, h.untracked⟩

theorem evolves_getProperty (n : Native) (name : String) (w : World E) :
    (m.integrity p v).evolves w (w.getProperty n name).2 := by
  cases n with
  | error serial errorName message =>
    obtain ⟨value, -, hv⟩ := World.getProperty_error (E := E) serial errorName message name
    rw [hv]
    exact (m.integrity p v).refl w
  | bookmark serial target => exact (m.integrity p v).refl w
  | hosted id =>
    refine evolves_hosted fun he => ?_
    obtain ⟨hv, hp⟩ := m.get id name he
    exact ⟨hv, congrFun hp p⟩

theorem evolves_setProperty {n : Native} {name : String} (hn : n = .hosted host → name ≠ p)
    (value : HostValue) (w : World E) :
    (m.integrity p v).evolves w (w.setProperty n name value).2 := by
  cases n with
  | error serial errorName message => exact (m.integrity p v).refl w
  | bookmark serial target => exact (m.integrity p v).refl w
  | hosted id =>
    refine evolves_hosted fun he => ?_
    obtain ⟨hv, hp⟩ := m.set id name value he
    exact ⟨hv, hp p (Decidable.or_iff_not_imp_left.mpr fun hid => hn (by simpa using hid))⟩

theorem evolves_deleteProperty {n : Native} {name : String} (hn : n = .hosted host → name ≠ p)
    (w : World E) : (m.integrity p v).evolves w (w.deleteProperty n name).2 := by
  cases n with
  | error serial errorName message => exact (m.integrity p v).refl w
  | bookmark serial target => exact (m.integrity p v).refl w
  | hosted id =>
    refine evolves_hosted fun he => ?_
    obtain ⟨hv, hp⟩ := m.delete id name he
    exact ⟨hv, hp p (Decidable.or_iff_not_imp_left.mpr fun hid => hn (by simpa using hid))⟩

/-! ## What links remember -/

/-- A change of the created names of a link keeps the protection if it does not add the property
    to a link of the host object. -/
theorem evolves_modifyCreated {id : LinkId} {f : NameSet → NameSet} {w : World E}
    (hf : ∀ l, w.links[id]? = some l → l.native = .hosted host → p ∈ f l.created → p ∈ l.created) :
    (m.integrity p v).evolves w (w.modifyLink id fun l => { l with created := f l.created }) := by
  refine ⟨fun h => ⟨h.valid, h.there, h.unlisted, fun hl hlive hn hp => ?_⟩, fun {j n} hn => ?_⟩
  · obtain ⟨l, hw, rfl | ⟨rfl, rfl⟩⟩ := World.links_modifyLink hl
    · exact h.untracked hw hlive hn hp
    · exact h.untracked hw hlive hn (hf l hw hn hp)
  · rw [World.linkNative?_modifyLink (f := fun l => { l with created := f l.created }) fun _ => rfl]
    exact hn

theorem evolves_addCreated {id : LinkId} {name : String} {n : Native} {w : World E}
    (hid : w.linkNative? id = some n) (hn : n = .hosted host → name ≠ p) :
    (m.integrity p v).evolves w (w.addCreated id name) := by
  refine evolves_modifyCreated (m := m) (f := (·.insert name)) ?_
  intro l hl hnat hp
  have : n = l.native := by simpa [World.linkNative?, hl] using hid.symm
  rcases NameSet.mem_insert.mp hp with hp | hp
  · exact hp
  · exact absurd hp.symm (hn (this.trans hnat))

theorem evolves_removeCreated (id : LinkId) (name : String) (w : World E) :
    (m.integrity p v).evolves w (w.removeCreated id name) :=
  evolves_modifyCreated (m := m) (f := (·.erase name)) fun _ _ _ hp =>
    (NameSet.mem_erase.mp hp).1

/-! ## Accesses through links -/

/-- The check of a link refuses every change of a protected property. -/
theorem Protects.denies {w : World E} (h : m.Protects p v w) {id : LinkId} {l : Link}
    (hl : w.links[id]? = some l) (hlive : l.live = true) (hn : l.native = .hosted host) :
    w.hasProperty l.native p = true ∧ w.allowsWrite l p = false := by
  refine ⟨?_, ?_⟩
  · rw [hn]
    simp only [World.hasProperty, m.has_eq p h.valid, h.there, Option.isSome_some]
  · have hcr : w.createdByScript l p = false := by
      have := h.untracked hl hlive hn
      simp only [World.createdByScript, Bool.and_eq_false_iff]
      exact .inr (Bool.eq_false_iff.mpr fun hc => this (NameSet.contains_iff.mp hc))
    simp only [World.allowsWrite, hcr, Bool.or_false, hn, World.policy?, m.policy_eq h.valid]
    cases hp : m.policy with
    | none => rfl
    | some policy =>
      simpa [Policy.allowsWrite] using h.unlisted hp

/-- What passes the check is not a change of the protected property. -/
theorem Protects.passes {w : World E} (h : m.Protects p v w) {id : LinkId} {l : Link}
    (hl : w.links[id]? = some l) (hlive : l.live = true) (name : String)
    (hp : w.hasProperty l.native name = true → w.allowsWrite l name = true) :
    l.native = .hosted host → name ≠ p := by
  rintro hn rfl
  obtain ⟨h1, h2⟩ := h.denies hl hlive hn
  rw [hp h1] at h2
  cases h2

open Evaluation

theorem keeps_member (l : Link) (name : String) (w : World E) :
    Step.Keeps (m.integrity p v) (l.member name) w := by
  refine Step.meets_read_bind ?_
  split
  · exact Step.meets_ready trivial
  · refine Step.meets_read_bind ?_
    split
    · exact keeps_fail lenient_integrity _ _ w
    · exact keeps_hostGet lenient_integrity World.calm_link _ _ _ fun w' _ =>
        evolves_getProperty l.native name w'

theorem keeps_put {w : World E} (h : m.Protects p v w) {id : LinkId} {l : Link}
    (hl : w.links[id]? = some l) (hlive : l.live = true) (name : String) (value : Value) :
    Step.Keeps (m.integrity p v) (l.put id name value) w := by
  have hid : w.linkNative? id = some l.native := by rw [World.linkNative?, hl]; rfl
  refine Step.meets_read_bind (Step.meets_read_bind ?_)
  split
  · exact keeps_fail lenient_integrity _ _ w
  · next hpass =>
    have hn := h.passes hl hlive name (by simpa using hpass)
    refine keeps_bind (keeps_toHost lenient_integrity value w) ?_
    intro h w₁ he₁
    refine Step.meets_read_bind ?_
    refine keeps_bind (keeps_hostSet lenient_integrity _ _ _ _ fun w' _ =>
      evolves_setProperty hn h w') ?_
    intro _ w₂ he₂
    split
    · exact ⟨evolves_addCreated (he₂.2 (he₁.2 hid)) hn, trivial⟩
    · trivial

theorem keeps_delete {w : World E} (h : m.Protects p v w) {id : LinkId} {l : Link}
    (hl : w.links[id]? = some l) (hlive : l.live = true) (name : String) :
    Step.Keeps (m.integrity p v) (l.delete id name) w := by
  refine Step.meets_read_bind ?_
  split
  · exact Step.meets_ready trivial
  · refine Step.meets_read_bind ?_
    split
    · exact keeps_fail lenient_integrity _ _ w
    · next hpass =>
      have hn := h.passes hl hlive name (fun _ => by simpa using hpass)
      refine keeps_bind (keeps_hostDelete lenient_integrity _ _ _ fun w' _ =>
        evolves_deleteProperty hn w') ?_
      intro deleted w₁ _
      split
      · exact ⟨evolves_removeCreated id name w₁, trivial⟩
      · trivial

/-- Every access to a property through a live link keeps the protection. -/
theorem keeps_step {w : World E} (h : m.Protects p v w) {op : ValueOperation} {id : LinkId}
    (hb : op.base? = some (.link id)) (hlive : w.linkLive id = true) (realm : RealmId) :
    Step.Keeps (m.integrity p v) (op.step realm) w := by
  obtain ⟨l, hl, hlive⟩ := World.linkLive_iff.mp hlive
  have member (name : String) :
      Step.Keeps (m.integrity p v) ((Value.link id).member name realm) w := by
    simp only [Value.member, Step.Keeps, Step.Meets, hl]
    exact keeps_member l name w
  have put (name : String) (value : Value) :
      Step.Keeps (m.integrity p v) ((Value.link id).put name value realm) w := by
    simp only [Value.put, Step.Keeps, Step.Meets, hl]
    exact keeps_put h hl hlive name value
  have delete (name : String) :
      Step.Keeps (m.integrity p v) ((Value.link id).delete name realm) w := by
    simp only [Value.delete, Step.Keeps, Step.Meets, hl]
    exact keeps_delete h hl hlive name
  have refused {α : Type} (f : Failure) :
      Step.Keeps (m.integrity p v) (fail realm f : Evaluation E α) w :=
    keeps_fail lenient_integrity realm f w
  cases op <;> simp only [ValueOperation.base?, Option.some_inj, reduceCtorEq] at hb <;>
    simp only [ValueOperation.step, Reference.get, Reference.set, Reference.delete, hb] <;>
    try refine keeps_bind ?_ fun _ _ _ => trivial
  case member name => exact member name
  case put name value => exact put name value
  case delete name => exact delete name
  case refer => trivial
  case describe => trivial
  case get r =>
    split
    · exact refused _
    · exact member r.name
  case set r value =>
    split
    · exact refused _
    · exact put r.name value
  case remove r =>
    split
    · exact refused _
    · exact delete r.name

/-- A change of the property through a live link of the host object throws at once. -/
theorem threw_step {w : World E} (h : m.Protects p v w) {op : ValueOperation} {id : LinkId}
    (hb : op.base? = some (.link id)) (hw : op.writes? = some p) (hlive : w.linkLive id = true)
    (hn : w.linkNative? id = some (.hosted host)) (realm : RealmId) :
    ((op.step realm).settle w).1.Threw := by
  obtain ⟨l, hl, hlive⟩ := World.linkLive_iff.mp hlive
  obtain ⟨hhas, hdenied⟩ := h.denies hl hlive (by simpa [World.linkNative?, hl] using hn)
  have put (value : Value) :
      (((Value.link id).put p value realm).settle w).1.Threw := by
    simp only [Value.put, Step.settle, hl, Link.put, Step.read, Step.bind_eq_andThen,
      Step.andThen, Step.ready_andThen, hhas, hdenied]
    exact threw_fail l.realm _ w
  have delete : (((Value.link id).delete p realm).settle w).1.Threw := by
    simp only [Value.delete, Step.settle, hl, Link.delete, Step.read, Step.bind_eq_andThen,
      Step.andThen, Step.ready_andThen, hhas, hdenied, Bool.not_true, Bool.not_false,
      Bool.false_eq_true, if_false, if_true]
    exact threw_fail l.realm _ w
  cases op <;> simp only [ValueOperation.writes?, Option.some_inj, reduceCtorEq] at hw <;>
    simp only [ValueOperation.base?, Option.some_inj] at hb <;>
    simp only [ValueOperation.step, Reference.set, Reference.delete, hb, hw] <;>
    refine Step.threw_bind ?_ _
  case put name value => exact put value
  case delete name => exact delete
  case set r value =>
    split
    · exact threw_fail realm _ w
    · exact put value
  case remove r =>
    split
    · exact threw_fail realm _ w
    · exact delete

/-! ## Runs -/

variable (m p v) in
/-- What a run keeps: the protection, the contract of what is pending, and that every change of the
    property through a link of the host object has thrown. -/
structure Guarded (s : Stage E) : Prop where
  protects : m.Protects p v s.world
  keeps : s.Keeps (m.integrity p v) fun _ _ _ => True
  linked : ∀ a ∈ s.activities, ∀ id, a.operation.base? = some (.link id) →
    ∃ n, s.world.linkNative? id = some n ∧
      (n = .hosted host → a.operation.writes? = some p → a.front.Threw)

theorem guarded_idle {w : World E} (h : m.Protects p v w) (known : List Value) :
    m.Guarded p v (.idle w known) where
  protects := h
  keeps := Stage.keeps_idle w known
  linked _ ha := by cases ha

theorem Guarded.advance {s : Stage E} {e : Event} (h : m.Guarded p v s)
    (ha : s.onLiveLinks e = true) : m.Guarded p v (s.advance e) := by
  have he : e.Meets (m.integrity p v) (fun _ _ _ => True) s.world := by
    cases e with
    | start realm op =>
      obtain ⟨id, hb, hlive⟩ := Stage.base?_of_onLiveLinks ha
      exact keeps_step h.protects hb hlive realm
    | answer index flow => exact fun _ => trivial
    | abandon index => trivial
    | chore ch => exact lenient_integrity.2 (ch.calm_perform s.world)
  obtain ⟨hw, hk⟩ := Stage.keeps_advance (fun _ _ _ _ _ _ => trivial) h.keeps he
  refine ⟨hw.1 h.protects, hk, fun a hmem id hb => ?_⟩
  rcases Stage.mem_activities_advance hmem with hold | ⟨realm, op, rfl, rfl⟩ | ⟨r, rel, res, hold⟩
  · obtain ⟨n, hn, ht⟩ := h.linked a hold id hb
    exact ⟨n, hw.2 hn, ht⟩
  · have hlive : s.world.linkLive id = true := by
      simpa only [Stage.onLiveLinks, show op.base? = some (.link id) from hb] using ha
    obtain ⟨l, hl, -⟩ := World.linkLive_iff.mp hlive
    have hn : s.world.linkNative? id = some l.native := by rw [World.linkNative?, hl]; rfl
    refine ⟨l.native, hw.2 hn, fun hhost hp => ?_⟩
    exact threw_step h.protects hb hp hlive (hhost ▸ hn) realm
  · -- what waits is no change of the property, so it does not become one
    obtain ⟨n, hn, ht⟩ := h.linked _ hold id hb
    refine ⟨n, hw.2 hn, fun hhost hp => ?_⟩
    obtain ⟨v, hv⟩ := ht hhost hp
    cases hv

/-- Whatever is started on live links, and in whatever order it goes on: the protected property
    stays as it is, and every change of it through a link of its host object has thrown. -/
theorem protected_property_kept {w : World E} (h : m.Protects p v w) (known : List Value)
    (events : List Event) :
    let s := (Stage.idle w known).run Stage.onLiveLinks events
    m.properties s.world.embedding p = some v ∧
      ∀ a ∈ s.activities, ∀ id, a.operation.base? = some (.link id) →
        s.world.linkNative? id = some (.hosted host) → a.operation.writes? = some p →
        a.front.Threw := by
  have hs := Stage.run_induction (guarded_idle h known) (fun _ _ hs ha => hs.advance ha) events
  refine ⟨hs.protects.there, fun a ha id hb hn hp => ?_⟩
  obtain ⟨n, hn', ht⟩ := hs.linked a ha id hb
  rw [hn, Option.some_inj] at hn'
  exact ht hn'.symm hp

end MapHost

/-! ## Records as such hosts -/

/-- The record changes in one property at most. -/
def Record.Within (name : String) (f : Record → Record) : Prop :=
  ∀ r, (f r).policy = r.policy ∧
    ∀ other, name ≠ other → (f r).properties.find? other = r.properties.find? other

theorem Record.within_set (name : String) (value : HostValue) :
    Within name fun r => (r.set name value).2 := by
  intro r
  dsimp only
  unfold Record.set
  split
  · exact ⟨rfl, fun _ _ => rfl⟩
  · exact ⟨rfl, fun _ _ => rfl⟩
  · split
    · exact ⟨rfl, fun _ _ => rfl⟩
    · exact ⟨rfl, fun other h => Table.find?_insert_ne _ (Ne.symm h) value⟩

theorem Record.within_delete (name : String) : Within name fun r => (r.delete name).2 := by
  intro r
  dsimp only
  unfold Record.delete
  split
  · exact ⟨rfl, fun _ _ => rfl⟩
  · exact ⟨rfl, fun _ _ => rfl⟩
  · split
    · exact ⟨rfl, fun _ _ => rfl⟩
    · exact ⟨rfl, fun other h => Table.find?_erase_ne _ (Ne.symm h)⟩

namespace Session

theorem onRecord_within {α : Type} {name : String} {f : Record → α × Record}
    (hf : Record.Within name fun r => (f r).2) (id host : HostId) (s : Session) :
    ((onRecord id f s).2.record host).policy = (s.record host).policy ∧
      ∀ other, id ≠ host ∨ name ≠ other →
        ((onRecord id f s).2.record host).properties.find? other =
          (s.record host).properties.find? other := by
  rw [record_onRecord]
  split
  · next h =>
    obtain ⟨hp, ho⟩ := hf (s.record host)
    exact ⟨hp, fun other ho' => ho other (ho'.resolve_left fun hne => hne h.1)⟩
  · exact ⟨rfl, fun _ _ => rfl⟩

/-- A record as a host object with a map of properties and a fixed policy. -/
def mapHost (host : HostId) (policy : Option Policy) : MapHost Session host where
  valid s := (s.record host).policy = policy
  properties s name := (s.record host).properties.find? name
  policy := policy
  has_eq _ _ := rfl
  policy_eq h := h
  get _ _ h := ⟨h, rfl⟩
  set {s} id name value h := by
    obtain ⟨hp, ho⟩ := onRecord_within (Record.within_set name value) id host s
    exact ⟨hp.trans h, ho⟩
  delete {s} id name h := by
    obtain ⟨hp, ho⟩ := onRecord_within (Record.within_delete name) id host s
    exact ⟨hp.trans h, ho⟩

/-- An account with a balance that cannot be read or written and a note that can be written. -/
def account : Record where
  label := "account"
  properties := ⟨[("balance", .number .zero), ("note", .undefined)]⟩
  policy := some ⟨some [], some ["note"], none, none, none⟩
  kind := .active ⟨false, [], ⟨∅, ∅, ∅⟩, none, none⟩

/-- A world with a link on an account, in a realm that tracks new properties. -/
def accountWorld : World Session :=
  { World.empty (ofRecords #[account]) with
    links := #[⟨0, .hosted 0, ∅, true⟩]
    realms := #[.fresh .trackCreated]
    held := [.value (.link 0)] }

theorem protects_account :
    (mapHost 0 account.policy).Protects "balance" (.number .zero) accountWorld where
  valid := rfl
  there := rfl
  unlisted h := by
    cases h
    decide
  untracked {id l} hl _ _ := by
    match id with
    | 0 => cases hl; exact List.not_mem_nil
    | _ + 1 => cases hl

/-- A write to the note waits while the balance is attacked directly and through a forged handle. -/
theorem protected_property_kept_account :
    (mapHost 0 account.policy).Protects "balance" (.number .zero) accountWorld ∧
      let s := (Stage.idle accountWorld [.link 0]).run Stage.onLiveLinks
        [.start 0 (.put (.link 0) "note" .null), .start 0 (.delete (.link 0) "balance"),
          .start 0 (.set ⟨.link 0, "balance", .allowed⟩ .null), .answer 0 (.ok .undefined)]
      s.activities.length = 3 ∧
        (s.world.embedding.record 0).properties.find? "balance" = some (.number .zero) ∧
        ∀ a ∈ s.activities, ∀ id, a.operation.base? = some (.link id) →
          s.world.linkNative? id = some (.hosted 0) → a.operation.writes? = some "balance" →
          a.front.Threw := by
  exact ⟨protects_account, by decide +kernel,
    MapHost.protected_property_kept protects_account [.link 0] _⟩

end Session

end ScriptSandbox
