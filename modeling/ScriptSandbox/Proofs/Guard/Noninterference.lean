import Mathlib.Data.List.Infix
import ScriptSandbox.Proofs.Lockstep
import ScriptSandbox.Proofs.Guard.Secrecy
import ScriptSandbox.Proofs.World.Calm
import ScriptSandbox.Proofs.World.Parting

/-
  Noninterference of unreadable properties.

  Two worlds that differ only in the values of properties that no link lets a script read cannot be
  told apart through links, as long as the same wrappers are alive on both sides. A property may
  differ if it exists on both sides, its name is on no read list, and no live link has created it.
  Every access keeps that: where the two sides agree they go on to agree, and a name enters the
  created names of a link only when the property did not exist, so that the sides agreed on it.

  What a value that differs holds may keep a wrapper alive on one side. The worlds have then parted,
  and since a wrapper remembers what was created through it, the sides can be told apart from there
  on (`Session.secret_bookmark_shows`). Only sweeps part worlds, and behind a sweep an operation
  spares the wrappers up to its next front. So every stretch of an operation either parts the worlds
  or is the same on both sides (`Likeness.Twins.unseen_step`).
-/

namespace ScriptSandbox

variable {E : Type} [Embedding E]

/-- Two worlds that differ only in their embeddings, which are alike and agree on everything that
    live links have created, and in what they note of lost host objects. -/
structure Likeness.Twins (r : Likeness E) (p : World E × World E) : Prop where
  same : p.2 = p.1.exchange p.2.embedding p.2.lostNatives
  alike : r.alike p.1.embedding p.2.embedding
  created : ∀ {id : LinkId} {l : Link} {host : HostId} {name : String}, p.1.links[id]? = some l →
    l.live = true → l.native = .hosted host → name ∈ l.created →
      r.agree host name p.1.embedding p.2.embedding

namespace Secrecy

variable (r : Secrecy E)

/-- Twins remain twins and agree wherever they did, and links keep their host objects. -/
def unseen : Contract (World E × World E) where
  evolves p q := (r.Twins p → r.Twins q ∧
      r.Later p.1.embedding p.2.embedding q.1.embedding q.2.embedding) ∧
    ∀ {id n}, p.1.linkNative? id = some n → q.1.linkNative? id = some n
  refl _ := ⟨fun h => ⟨h, h.alike, id⟩, id⟩
  trans h k := ⟨fun hp =>
      have hq := h.1 hp
      have hr := k.1 hq.1
      ⟨hr.1, hr.2.1, fun ha => hr.2.2 (hq.2.2 ha)⟩,
    fun hn => k.2 (h.2 hn)⟩
  asks _ _ := True
  asks_stable _ _ := trivial
  answers _ _ _ := True

/-- The change gives the same result on both sides and keeps to the contract. -/
def Shared {α : Type} (f : World E → α × World E) (p : World E × World E) : Prop :=
  (f p.1).1 = (f p.2).1 ∧ r.unseen.evolves p ((f p.1).2, (f p.2).2)

/-- The change is shared, unless it parts the worlds. -/
def SharedOrParts {α : Type} (f : World E → α × World E) (p : World E × World E) : Prop :=
  World.Parted ((f p.1).2, (f p.2).2) ∨ r.Shared f p

/-- The step does the same on both sides, unless it parts the worlds. -/
abbrev Unseen {α : Type} (s : Evaluation E α) (p : World E × World E) : Prop :=
  Step.Agree r.unseen World.Parted s s p

/-- The step does the same on both sides. -/
abbrev Unparted {α : Type} (s : Evaluation E α) (p : World E × World E) : Prop :=
  Step.Agree r.unseen (fun _ => False) s s p

variable {r} {p : World E × World E}

theorem Shared.agree {α : Type} {lost : World E × World E → Prop} {f : World E → α × World E}
    (h : r.Shared f p) : Step.Agree r.unseen lost (Step.compute f) (Step.compute f) p :=
  Step.agree_compute h.1 h.2

/-- What spares the wrappers may follow a step that may part the worlds. -/
theorem Unseen.bind_quiet {α β : Type} {s : Evaluation E α} {k : α → Evaluation E β}
    (h : r.Unseen s p) (hq : ∀ a w, World.Spares w ((k a).settle w).2)
    (hk : ∀ a q, r.unseen.evolves p q → r.Unseen (k a) q) : r.Unseen (s >>= k) p :=
  Step.Agree.bind_quiet World.irreparable_parted h hq hq hk

theorem Unseen.map {α β : Type} {s : Evaluation E α} (h : r.Unseen s p) (f : α → β) :
    r.Unseen (s >>= fun a => pure (f a)) p :=
  h.bind_quiet (fun _ _ _ _ _ hx => hx) fun _ _ _ => rfl

theorem SharedOrParts.throwing {α : Type} {make : World E → Completion × World E}
    (h : r.SharedOrParts make p) : r.Unseen (Evaluation.throwing make : Evaluation E α) p :=
  h.imp_right fun h => ⟨h.2, congrArg Except.error h.1⟩

end Secrecy

namespace Likeness

variable {r : Secrecy E} {p : World E × World E}

theorem Twins.links_eq (h : r.Twins p) : p.2.links = p.1.links := by rw [h.same]; rfl

theorem Twins.realm_eq (h : r.Twins p) (realm : RealmId) : p.2.realm realm = p.1.realm realm := by
  rw [h.same]
  rfl

/-! ## Questions -/

theorem Twins.hasProperty_eq (h : r.Twins p) (n : Native) (name : String) :
    p.1.hasProperty n name = p.2.hasProperty n name := by
  cases n with
  | hosted id => exact r.has_eq id name h.alike
  | _ => rfl

theorem Twins.policy?_eq (h : r.Twins p) (n : Native) : p.1.policy? n = p.2.policy? n := by
  cases n with
  | hosted id => exact (r.shows h.alike).policy id
  | _ => rfl

theorem Twins.createdByScript_eq (h : r.Twins p) (l : Link) (name : String) :
    p.1.createdByScript l name = p.2.createdByScript l name := by
  simp only [World.createdByScript, h.realm_eq]

theorem Twins.allowsRead_eq (h : r.Twins p) (l : Link) (name : String) :
    p.1.allowsRead l name = p.2.allowsRead l name := by
  simp only [World.allowsRead, h.policy?_eq, h.createdByScript_eq]

theorem Twins.allowsWrite_eq (h : r.Twins p) (l : Link) (name : String) :
    p.1.allowsWrite l name = p.2.allowsWrite l name := by
  simp only [World.allowsWrite, h.policy?_eq, h.createdByScript_eq]

theorem Twins.debugText_eq (h : r.Twins p) (v : Value) : p.1.debugText v = p.2.debugText v := by
  rw [h.same]
  exact (World.debugText_exchange (r.shows h.alike) v).symm

/-- What a live link lets a script read is the same on both sides. -/
theorem Twins.agree_of_allowsRead (h : r.Twins p) {id : LinkId} {l : Link} {host : HostId}
    {name : String} (hl : p.1.links[id]? = some l) (hlive : l.live = true)
    (hn : l.native = .hosted host) (hr : p.1.allowsRead l name = true) :
    r.agree host name p.1.embedding p.2.embedding := by
  refine Classical.byContradiction ?_
  intro hd
  have hpolicy : ((p.1.policy? l.native).map (·.allowsRead name)).getD false = false := by
    rw [hn]
    simp only [World.policy?]
    cases hp : Embedding.policy p.1.embedding host with
    | none => rfl
    | some policy => exact (r.unreadable h.alike hd).2 hp
  simp only [World.allowsRead, hpolicy, Bool.false_or, World.createdByScript, Bool.and_eq_true,
    NameSet.contains_iff] at hr
  exact hd (h.created hl hlive hn hr.2)

/-- What does not exist is the same on both sides. -/
theorem Twins.agree_of_missing (h : r.Twins p) {host : HostId} {name : String}
    (hn : p.1.hasProperty (.hosted host) name = false) :
    r.agree host name p.1.embedding p.2.embedding := by
  refine Classical.byContradiction ?_
  intro hd
  have := (r.unreadable h.alike hd).1
  rw [World.hasProperty] at hn
  rw [this] at hn
  cases hn

/-! ## Changes -/

/-- A calm change is shared that comes to the same on both sides but for the embedding and the note
    of lost host objects. -/
theorem Twins.shared {α : Type} {f : World E → α × World E} (h : r.Twins p)
    (hf : ∃ lost, f p.2 = ((f p.1).1, (f p.1).2.exchange p.2.embedding lost))
    (hc : p.1.Calm (f p.1).2) : r.Shared f p := by
  obtain ⟨lost, hf⟩ := hf
  have he : (f p.1).2.embedding = p.1.embedding := hc.embedding
  refine ⟨by rw [hf], fun _ => ⟨⟨?_, ?_, ?_⟩, ?_⟩, fun hn => hc.linkNative? hn⟩
  · rw [hf]
    rfl
  · rw [hf]
    exact he ▸ h.alike
  · intro id l host name hl hlive hn hname
    rw [hf, he]
    rcases hc.link_cases hl with ⟨l', hl', hnat, hcr, hback⟩ | hcr
    · exact h.created hl' (hback hlive) (hnat ▸ hn) (hcr ▸ hname)
    · rw [hcr] at hname
      exact absurd hname List.not_mem_nil
  · rw [hf]
    exact ⟨he ▸ h.alike, fun ha => he ▸ ha⟩

theorem Twins.shared_blind {α : Type} {f : World E → α × World E} (h : r.Twins p)
    (hb : World.Blind f) (hc : p.1.Calm (f p.1).2) : r.Shared f p :=
  h.shared ⟨_, (congrArg f h.same).trans (hb p.1 p.2.embedding p.2.lostNatives)⟩ hc

/-- A method of the embedding is shared if it gives the same on both sides and leaves them alike. -/
theorem Twins.shared_hosted {α : Type} {f : E → α × E} (h : r.Twins p)
    (he : (f p.1.embedding).1 = (f p.2.embedding).1)
    (hf : r.Later p.1.embedding p.2.embedding (f p.1.embedding).2 (f p.2.embedding).2) :
    r.Shared (World.hosted f) p := by
  refine ⟨he, fun _ => ⟨⟨?_, hf.1, ?_⟩, hf⟩, fun hn => hn⟩
  · have same := congrArg (World.exchange · (f p.2.embedding).2 p.2.lostNatives) h.same
    exact same
  · exact fun hl hlive hn hname => hf.2 (h.created hl hlive hn hname)

theorem Twins.shared_getProperty (h : r.Twins p) {n : Native} {name : String}
    (ha : ∀ host, n = .hosted host → r.agree host name p.1.embedding p.2.embedding) :
    r.Shared (World.getProperty n name) p := by
  have refl : r.unseen.evolves p p := r.unseen.refl p
  cases n with
  | error serial errorName message =>
    obtain ⟨value, -, hv⟩ := World.getProperty_error (E := E) serial errorName message name
    rw [Secrecy.Shared, hv, hv]
    exact ⟨rfl, refl⟩
  | bookmark serial target => exact ⟨rfl, refl⟩
  | hosted host =>
    obtain ⟨he, hf⟩ := r.get host name h.alike (ha host rfl)
    exact h.shared_hosted he hf

theorem Twins.shared_setProperty (h : r.Twins p) (n : Native) (name : String) (value : HostValue) :
    r.Shared (World.setProperty n name value) p := by
  have refl : r.unseen.evolves p p := r.unseen.refl p
  cases n with
  | error serial errorName message => exact ⟨rfl, refl⟩
  | bookmark serial target => exact ⟨rfl, refl⟩
  | hosted host =>
    obtain ⟨he, hf⟩ := r.set host name value h.alike
    exact h.shared_hosted he hf

theorem Twins.shared_deleteProperty (h : r.Twins p) (n : Native) (name : String) :
    r.Shared (World.deleteProperty n name) p := by
  have refl : r.unseen.evolves p p := r.unseen.refl p
  cases n with
  | error serial errorName message => exact ⟨rfl, refl⟩
  | bookmark serial target => exact ⟨rfl, refl⟩
  | hosted host =>
    obtain ⟨he, hf⟩ := r.delete host name h.alike
    exact h.shared_hosted he hf

/-- A change of the created names of a link keeps twins if they agree on every name it adds. -/
theorem Twins.evolves_modifyCreated (h : r.Twins p) {id : LinkId} {f : NameSet → NameSet}
    (hf : ∀ l host name, p.1.links[id]? = some l → l.native = .hosted host → name ∈ f l.created →
      name ∈ l.created ∨ r.agree host name p.1.embedding p.2.embedding) :
    r.unseen.evolves p (p.1.modifyLink id fun l => { l with created := f l.created },
      p.2.modifyLink id fun l => { l with created := f l.created }) := by
  refine ⟨fun _ => ⟨⟨?_, h.alike, fun {j l host name} hl hlive hn hname => ?_⟩,
    h.alike, fun ha => ha⟩, fun {j n} hn => ?_⟩
  · rw [h.same]
    rfl
  · obtain ⟨l', hl', rfl | ⟨rfl, rfl⟩⟩ := World.links_modifyLink hl
    · exact h.created hl' hlive hn hname
    · rcases hf l' host name hl' hn hname with hname | ha
      · exact h.created hl' hlive hn hname
      · exact ha
  · show (p.1.modifyLink id _).linkNative? j = some n
    rw [World.linkNative?_modifyLink (f := fun l => { l with created := f l.created }) fun _ => rfl]
    exact hn

/-! ## Steps -/

/-- Twins that have gone on are twins. -/
theorem Twins.later {q : World E × World E} (h : r.Twins p) (he : r.unseen.evolves p q) :
    r.Twins q := (he.1 h).1

theorem Twins.agree_later {q : World E × World E} {host : HostId} {name : String} (h : r.Twins p)
    (he : r.unseen.evolves p q) (ha : r.agree host name p.1.embedding p.2.embedding) :
    r.agree host name q.1.embedding q.2.embedding := (he.1 h).2.2 ha

theorem Twins.evolves_hold (h : r.Twins p) (things : List Thing) :
    r.unseen.evolves p (p.1.hold things, p.2.hold things) :=
  (h.shared_blind (f := fun w => ((), w.hold things)) (fun _ _ _ => rfl)
    (World.calm_hold things p.1)).2

theorem Twins.evolves_letGo (h : r.Twins p) (things : List Thing) :
    r.unseen.evolves p (p.1.letGo things, p.2.letGo things) :=
  (h.shared_blind (f := fun w => ((), w.letGo things)) (fun _ _ _ => rfl)
    (World.calm_letGo things p.1)).2

/-- A sweep parts the worlds, or it finds the same wrappers dead. -/
theorem Twins.collect (h : r.Twins p) (hand : List Thing) :
    World.Parted (p.1.collect hand, p.2.collect hand) ∨
      ∃ lost, p.2.collect hand = (p.1.collect hand).exchange p.2.embedding lost := by
  rw [or_iff_not_imp_left, h.same]
  exact World.collect_exchange hand

theorem Twins.parts_or_shared_collect {α : Type} (h : r.Twins p) (a : α) (hand : List Thing) :
    r.SharedOrParts (fun w => (a, w.collect hand)) p :=
  (h.collect hand).imp_right fun ⟨lost, hl⟩ =>
    h.shared ⟨lost, congrArg (Prod.mk a) hl⟩ (World.calm_collect hand p.1)

theorem Twins.parts_or_shared_scriptError (h : r.Twins p) (realm : RealmId)
    (name message : String) : r.SharedOrParts (World.scriptError realm name message) p := by
  refine (h.collect []).imp (fun hp => ?_) fun ⟨lost, hl⟩ => h.shared ⟨lost, ?_⟩
    (World.calm_scriptError realm name message p.1)
  · exact World.irreparable_parted.stays (.inr (World.spares_scriptError realm name message p.1))
      (.inr (World.spares_scriptError realm name message p.2)) hp
  · rw [World.scriptError, hl]
    have hb := World.blind_bridge realm ((p.1.collect []).newError name message).1
      ((p.1.collect []).newError name message).2 p.2.embedding lost
    exact congrArg (fun x : Value × World E => (Completion.thrown x.1, x.2)) hb

theorem Twins.parts_or_shared_hostError (h : r.Twins p) (realm : RealmId) (e : HostError) :
    r.SharedOrParts (World.hostError realm e) p := by
  cases e <;> exact h.parts_or_shared_scriptError realm _ _

theorem Twins.unseen_fail {α : Type} (h : r.Twins p) (realm : RealmId) (f : Failure) :
    r.Unseen (Evaluation.fail realm f : Evaluation E α) p :=
  (h.parts_or_shared_scriptError realm _ _).throwing

theorem Twins.unparted_toHost (h : r.Twins p) (v : Value) :
    r.Unparted (Evaluation.toHost v) p := by
  refine Step.Agree.bind (h.shared_blind (World.blind_toHost v) (World.calm_toHost v p.1)).agree ?_
  intro h? w' _
  cases h? <;> rfl

theorem Twins.unseen_holding {α : Type} {things : List Thing} {s : Evaluation E α}
    (h : r.Twins p)
    (hs : ∀ q, r.Twins q → r.unseen.evolves p q → r.Unseen s q) :
    r.Unseen (Evaluation.holding things s) p := by
  have hh := h.evolves_hold things
  have hquiet (w : World E) : World.Spares w (w.letGo things) :=
    (World.Neutral.of_eq rfl rfl rfl (Nat.le_refl _)).spares
  refine .inr ⟨hh, (hs _ (h.later hh) hh).releasing World.irreparable_parted hquiet hquiet ?_⟩
  exact fun q he => (h.later (r.unseen.trans hh he)).evolves_letGo things

/-- What a host method gives goes on to the same on both sides, and its failures are thrown. -/
theorem Twins.unseen_hostResult_bind {α β : Type} (h : r.Twins p) (realm : RealmId)
    {method : World E → Except HostError α × World E} {k : α → Evaluation E β}
    (hm : r.Shared method p)
    (hk : ∀ a q, r.Twins q → r.unseen.evolves p q → r.Unseen (k a) q) :
    r.Unseen (Evaluation.hostResult realm method >>= k) p := by
  rw [Step.bind_eq_andThen, Evaluation.hostResult, Step.andThen_assoc]
  refine Step.Agree.bind hm.agree ?_
  intro result q he
  have hq := h.later he
  cases result with
  | ok a => exact hk a q hq he
  | error e => exact (hq.parts_or_shared_hostError realm e).throwing

theorem Twins.unseen_hostResult {α : Type} (h : r.Twins p) (realm : RealmId)
    {method : World E → Except HostError α × World E} (hm : r.Shared method p) :
    r.Unseen (Evaluation.hostResult realm method) p := by
  have hready := h.unseen_hostResult_bind realm (k := Step.ready) hm fun _ _ _ _ => rfl
  rwa [Step.bind_eq_andThen, Step.andThen_ready] at hready

theorem Twins.unseen_enter (h : r.Twins p) (realm : RealmId) (value : HostValue) :
    r.Unseen (Evaluation.enter World.link realm value) p := by
  rcases h.parts_or_shared_collect () value.things with hp | hc
  · exact .inl <| World.irreparable_parted.stays (.inr (World.spares_link realm value _))
      (.inr (World.spares_link realm value _)) hp
  · exact .inr ⟨hc.2, ((h.later hc.2).shared_blind (World.blind_link realm value)
      (World.calm_link realm value _)).agree⟩

/-- Behind a checkpoint the sides go on as twins, and they agree wherever they did. -/
theorem Twins.unseen_checkpoint {α : Type} {k : Unit → Evaluation E α} (h : r.Twins p)
    (hk : ∀ q, r.Twins q → r.unseen.evolves p q → r.Unseen (k ()) q) :
    r.Unseen (Step.checkpoint >>= k) p :=
  Step.Agree.bind (Step.agree_checkpoint p) fun _ q he => hk q (h.later he) he

theorem Twins.unseen_hostGet (h : r.Twins p) (realm : RealmId) {n : Native} {name : String}
    (ha : ∀ host, n = .hosted host → r.agree host name p.1.embedding p.2.embedding) :
    r.Unseen (Evaluation.hostGet World.link realm n name) p :=
  h.unseen_checkpoint fun _ hq he => hq.unseen_holding fun _ hq' he' =>
    hq'.unseen_hostResult_bind realm
      (hq'.shared_getProperty fun host hn => h.agree_later (r.unseen.trans he he') (ha host hn))
      fun value _ hq'' _ => hq''.unseen_enter realm value

theorem Twins.unseen_hostSet (h : r.Twins p) (realm : RealmId) (n : Native) (name : String)
    (value : HostValue) : r.Unseen (Evaluation.hostSet realm n name value) p :=
  h.unseen_checkpoint fun _ hq _ => hq.unseen_holding fun _ hq' _ =>
    hq'.unseen_hostResult realm (hq'.shared_setProperty n name value)

theorem Twins.unseen_hostDelete (h : r.Twins p) (realm : RealmId) (n : Native) (name : String) :
    r.Unseen (Evaluation.hostDelete realm n name) p :=
  h.unseen_checkpoint fun _ hq _ => hq.unseen_holding fun _ hq' _ =>
    hq'.unseen_hostResult realm (hq'.shared_deleteProperty n name)

/-! ## Accesses through links -/

theorem Twins.unseen_member (h : r.Twins p) {id : LinkId} {l : Link}
    (hl : p.1.links[id]? = some l) (hlive : l.live = true) (name : String) :
    r.Unseen (l.member name) p := by
  refine Step.agree_read_bind (h.hasProperty_eq l.native name) ?_
  split
  · rfl
  · refine Step.agree_read_bind (h.allowsRead_eq l name) ?_
    split
    · exact h.unseen_fail _ _
    · next hread =>
      exact h.unseen_hostGet l.realm fun host hn =>
        h.agree_of_allowsRead hl hlive hn (by simpa using hread)

theorem Twins.unseen_put (h : r.Twins p) {id : LinkId} {l : Link}
    (hl : p.1.links[id]? = some l) (name : String) (value : Value) :
    r.Unseen (l.put id name value) p := by
  have hid : p.1.linkNative? id = some l.native := by rw [World.linkNative?, hl]; rfl
  refine Step.agree_read_bind (h.hasProperty_eq l.native name) ?_
  refine Step.agree_read_bind (h.allowsWrite_eq l name) ?_
  split
  · exact h.unseen_fail _ _
  · refine Step.Agree.bind (h.unparted_toHost value) ?_
    intro hv q he
    have hq := h.later he
    refine Step.agree_read_bind (by rw [hq.realm_eq]) ?_
    refine (hq.unseen_hostSet l.realm l.native name hv).bind_quiet (fun _ w => ?_) ?_
    · split
      · exact World.spares_modifyCreated (·.insert name) id w
      · exact fun hx => hx
    intro _ q' he'
    split
    · next hcreates =>
      -- the name was missing at the check, and where the sides agree they go on to agree
      have hmissing : p.1.hasProperty l.native name = false := by
        simp only [Bool.and_eq_true, Bool.not_eq_true'] at hcreates
        exact hcreates.1
      have hpq := r.unseen.trans he he'
      refine Step.agree_write ((hq.later he').evolves_modifyCreated (f := (·.insert name)) ?_)
      intro l' host name' hl' hn hname
      rcases NameSet.mem_insert.mp hname with hname | rfl
      · exact .inl hname
      · have hnat : l'.native = l.native := by
          simpa [World.linkNative?, hl'] using hpq.2 hid
        exact .inr (h.agree_later hpq (h.agree_of_missing (by rw [← hn, hnat]; exact hmissing)))
    · rfl

theorem Twins.unseen_delete (h : r.Twins p) (id : LinkId) (l : Link) (name : String) :
    r.Unseen (l.delete id name) p := by
  refine Step.agree_read_bind (h.hasProperty_eq l.native name) ?_
  split
  · rfl
  · refine Step.agree_read_bind (h.allowsWrite_eq l name) ?_
    split
    · exact h.unseen_fail _ _
    · refine (h.unseen_hostDelete l.realm l.native name).bind_quiet (fun deleted w => ?_) ?_
      · split
        · exact World.spares_modifyCreated (·.erase name) id w
        · exact fun hx => hx
      intro deleted q he
      split
      · refine Step.Agree.bind (Step.agree_write ?_) fun _ _ _ => rfl
        exact (h.later he).evolves_modifyCreated (f := (·.erase name)) fun _ _ _ _ _ hname =>
          .inl (NameSet.mem_erase.mp hname).1
      · rfl

theorem Twins.reference_eq (h : r.Twins p) (base : Value) (name : String) :
    p.1.reference base name = p.2.reference base name := by
  cases base <;>
    simp only [World.reference, h.links_eq, World.linkAccess, h.hasProperty_eq, h.allowsRead_eq,
      h.allowsWrite_eq]

/-- Every access to a property through a live link does the same on both sides. -/
theorem Twins.unseen_step (h : r.Twins p) {op : ValueOperation} {id : LinkId}
    (hb : op.base? = some (.link id)) (hlive : p.1.linkLive id = true) (realm : RealmId) :
    r.Unseen (op.step realm) p := by
  obtain ⟨l, hl, hlive⟩ := World.linkLive_iff.mp hlive
  have hl' : p.2.links[id]? = some l := h.links_eq ▸ hl
  have member (name : String) : r.Unseen ((Value.link id).member name realm) p := by
    simp only [Value.member, Secrecy.Unseen, Step.Agree, hl, hl']
    exact h.unseen_member hl hlive name
  have put (name : String) (value : Value) :
      r.Unseen ((Value.link id).put name value realm) p := by
    simp only [Value.put, Secrecy.Unseen, Step.Agree, hl, hl']
    exact h.unseen_put hl name value
  have delete (name : String) : r.Unseen ((Value.link id).delete name realm) p := by
    simp only [Value.delete, Secrecy.Unseen, Step.Agree, hl, hl']
    exact h.unseen_delete id l name
  cases op <;> simp only [ValueOperation.base?, Option.some_inj, reduceCtorEq] at hb <;>
    simp only [ValueOperation.step, Reference.get, Reference.set, Reference.delete, hb]
  case member name => exact (member name).map _
  case put name value => exact (put name value).map _
  case delete name => exact (delete name).map _
  case refer name => exact Step.agree_read_bind (h.reference_eq _ name) rfl
  case describe => exact Step.agree_read_bind (h.debugText_eq _) rfl
  case get s =>
    refine Secrecy.Unseen.map ?_ _
    split
    · exact h.unseen_fail realm _
    · exact member s.name
  case set s value =>
    refine Secrecy.Unseen.map ?_ _
    split
    · exact h.unseen_fail realm _
    · exact put s.name value
  case remove s =>
    refine Secrecy.Unseen.map ?_ _
    split
    · exact h.unseen_fail realm _
    · exact delete s.name

/-! ## Runs -/

theorem Twins.parts_or_shared_chore (h : r.Twins p) (ch : Chore) :
    r.SharedOrParts ch.perform p := by
  have blind (hb : World.Blind ch.perform) : r.SharedOrParts ch.perform p :=
    .inr (h.shared_blind hb (ch.calm_perform p.1))
  cases ch with
  | object o => exact blind fun _ _ _ => rfl
  | array elements => exact blind fun _ _ _ => rfl
  | text s =>
    refine blind fun w e lost => ?_
    simp only [Chore.perform, World.blind_newString s w e lost]
  | inherit id prototype =>
    refine blind fun w e lost => ?_
    simp only [Chore.perform, World.blind_setPrototype id prototype w e lost]
  | hold things => exact blind fun _ _ _ => rfl
  | letGo things => exact blind fun _ _ _ => rfl
  | collect => exact h.parts_or_shared_collect none []

/-- The guard decides the same on both sides. -/
theorem onLiveLinks_eq {s t : Stage E} (h : r.Twins (s.world, t.world)) (e : Event) :
    s.onLiveLinks e = t.onLiveLinks e := by
  have hlive (id : LinkId) : s.world.linkLive id = t.world.linkLive id := by
    simp only [World.linkLive, show t.world.links = s.world.links from h.links_eq]
  cases e with
  | start realm op => simp only [Stage.onLiveLinks, hlive]
  | _ => rfl

theorem agree_event {s : Stage E} {w : World E} {e : Event} (h : r.Twins (s.world, w))
    (ha : s.onLiveLinks e = true) : e.Agree r.unseen World.Parted (s.world, w) := by
  cases e with
  | start realm op =>
    obtain ⟨id, hb, hlive⟩ := Stage.base?_of_onLiveLinks ha
    exact h.unseen_step hb hlive realm
  | chore ch => exact h.parts_or_shared_chore ch
  | _ => trivial

end Likeness

/-- Two worlds that differ only in values that no link lets a script read: whatever a script starts
    on live links, and however it goes on, what it sees is the same on both sides, and the worlds
    never differ in more, as long as no event leaves a wrapper alive on one side and dead on the
    other. -/
theorem Secrecy.unreadable_values_unseen {r : Secrecy E} {p : World E × World E} (h : r.Twins p)
    (known : List Value) (events : List Event)
    (together : ∀ past, past <+: events →
      ¬ World.Parted (((Stage.idle p.1 known).run Stage.onLiveLinks past).world,
        ((Stage.idle p.2 known).run Stage.onLiveLinks past).world)) :
    let s := (Stage.idle p.1 known).run Stage.onLiveLinks events
    let t := (Stage.idle p.2 known).run Stage.onLiveLinks events
    s.sights = t.sights ∧ s.known = t.known ∧ r.Twins (s.world, t.world) := by
  obtain ⟨ha, hw⟩ := Stage.agree_run (c := r.unseen) (I := r.Twins)
    (fun he h => h.later he) (fun e _ hi => Likeness.onLiveLinks_eq hi e)
    (fun _ hi hadmits => Likeness.agree_event hi hadmits)
    (Stage.agree_idle p.1 p.2 known) h events together
  exact ⟨ha.sights_eq, ha.known, hw⟩

/-! ## Records with secrets -/

namespace Session

/-- A user with a password that can be written but not read. -/
def user (password : HostValue) : Record where
  label := "user"
  properties := ⟨[("password", password)]⟩
  policy := some ⟨none, some ["password"], none, none, none⟩
  kind := .active ⟨false, [], ⟨∅, ∅, ∅⟩, none, none⟩

/-- A world with a link on a user, in a realm that tracks new properties. -/
def userWorld (password : HostValue) : World Session :=
  { World.empty (ofRecords #[user password]) with
    links := #[⟨0, .hosted 0, ∅, true⟩]
    realms := #[.fresh .trackCreated]
    held := [.value (.link 0)] }

/-- Records that are alike one by one make sessions that are alike. -/
theorem alike_ofRecords {records records' : Array Record} (hs : records.size = records'.size)
    (h : ∀ i (hi : i < records.size), records[i].Alike (records'[i])) :
    (ofRecords records).Alike (ofRecords records') := by
  refine ⟨rfl, hs, fun id => ?_⟩
  simp only [record, ofRecords]
  by_cases hi : id < records.size
  · rw [Array.getElem?_eq_getElem hi, Array.getElem?_eq_getElem (hs ▸ hi)]
    exact h id hi
  · have hle := Nat.not_lt.mp hi
    rw [Array.getElem?_eq_none hle, Array.getElem?_eq_none (hs ▸ hle)]
    exact ⟨rfl, rfl, rfl, .nil⟩

theorem twins_user (v v' : HostValue) : secrecy.Twins (userWorld v, userWorld v') where
  same := rfl
  alike := by
    refine alike_ofRecords rfl ?_
    intro i hi
    match i with
    | 0 => exact ⟨rfl, rfl, rfl, .cons ⟨rfl, .inr fun hp => by cases hp; rfl⟩ .nil⟩
  created {id l _ _} hl _ _ hname := by
    match id with
    | 0 => cases hl; exact absurd hname List.not_mem_nil
    | _ + 1 => cases hl

/-- One user has itself for a password, the other none. The password is read in vain, described,
    overwritten, and read in vain again. -/
theorem unreadable_values_unseen_user :
    let p := (userWorld (.object (.hosted 0)), userWorld .null)
    let events : List Event := [.start 0 (.member (.link 0) "password"),
      .start 0 (.describe (.link 0)), .start 0 (.put (.link 0) "password" .null),
      .answer 2 (.ok .undefined), .start 0 (.member (.link 0) "password"), .chore .collect]
    let s := (Stage.idle p.1 [.link 0]).run Stage.onLiveLinks events
    let t := (Stage.idle p.2 [.link 0]).run Stage.onLiveLinks events
    secrecy.Twins p ∧
      (∀ past, past <+: events →
        ¬ World.Parted (((Stage.idle p.1 [.link 0]).run Stage.onLiveLinks past).world,
          ((Stage.idle p.2 [.link 0]).run Stage.onLiveLinks past).world)) ∧
      s.activities.length = 4 ∧ s.sights = t.sights ∧ s.known = t.known := by
  intro p events s t
  have h : secrecy.Twins p := twins_user _ _
  have hlive : ∀ past ∈ events.inits,
      ((Stage.idle p.1 [.link 0]).run Stage.onLiveLinks past).world.liveness =
        ((Stage.idle p.2 [.link 0]).run Stage.onLiveLinks past).world.liveness := by
    decide +kernel
  have together : ∀ past, past <+: events →
      ¬ World.Parted (((Stage.idle p.1 [.link 0]).run Stage.onLiveLinks past).world,
        ((Stage.idle p.2 [.link 0]).run Stage.onLiveLinks past).world) := fun past hp =>
    World.not_parted_of_liveness_eq (hlive past ((List.mem_inits past events).mpr hp))
  obtain ⟨hsights, hknown, -⟩ := Secrecy.unreadable_values_unseen h [.link 0] events together
  exact ⟨h, together, by decide +kernel, hsights, hknown⟩

/-- A world in which the script holds links on a parent and on a keeper. A link on the child has
    created `x`, and an object that holds that link is kept by the keeper: openly, and perhaps by a
    secret, too. -/
def keepsakeWorld (secret : HostValue) : World Session :=
  { World.empty (ofRecords #[
      ⟨"parent", ⟨[("child", .object (.hosted 1))]⟩, some ⟨some ["child"], none, none, none, none⟩,
        .passive false⟩,
      ⟨"child", ⟨[("x", .number .zero)]⟩, none, .passive false⟩,
      ⟨"keeper", ⟨[("secret", secret), ("open", .object (.bookmark 0 (.object 0)))]⟩,
        some ⟨none, some ["open"], none, none, none⟩,
        .active ⟨false, [], ⟨∅, ∅, ∅⟩, none, none⟩⟩]) with
    objects := #[⟨⟨[("link", .link 1)]⟩, none, none⟩]
    links := #[⟨0, .hosted 0, ∅, true⟩, ⟨0, .hosted 1, ⟨["x"]⟩, true⟩, ⟨0, .hosted 2, ∅, true⟩]
    realms := #[⟨.trackCreated, [], .empty,
      ⟨[(.hosted 0, 0), (.hosted 1, 1), (.hosted 2, 2)], 64⟩⟩]
    nextNative := 1
    held := [.value (.link 0), .value (.link 2)] }

/-- A secret shows through what it keeps alive: the script takes the open bookmark away and gets the
    child from the parent. A bookmark in the secret still keeps the link that has created `x`, so
    that the script gets the same link again and may read `x`; without it the script gets a link
    that has created nothing, and may not. -/
theorem secret_bookmark_shows :
    let p := (keepsakeWorld (.object (.bookmark 0 (.object 0))), keepsakeWorld .null)
    let events : List Event := [.start 0 (.put (.link 2) "open" .null), .answer 0 (.ok .undefined),
      .start 0 (.member (.link 0) "child"), .answer 1 (.ok .undefined)]
    let s := (Stage.idle p.1 [.link 0, .link 2]).run Stage.onLiveLinks events
    let t := (Stage.idle p.2 [.link 0, .link 2]).run Stage.onLiveLinks events
    secrecy.Twins p ∧ (p.1.collect []).liveness = p.1.liveness ∧
      (p.2.collect []).liveness = p.2.liveness ∧ World.Parted (s.world, t.world) ∧
      s.sights ≠ t.sights ∧ s.known.head? = some (.link 1) ∧ t.known.head? = some (.link 3) ∧
      (((ValueOperation.member (.link 1) "x").step 0).settle s.world).1.sight ≠
        (((ValueOperation.member (.link 3) "x").step 0).settle t.world).1.sight := by
  refine ⟨⟨rfl, alike_ofRecords rfl fun i hi => ?_, fun {id l host name} hl _ hn hname => ?_⟩,
    by decide +kernel, by decide +kernel, ?_, fun h => ?_, ?_, ?_, fun h => ?_⟩
  · match i with
    | 0 => exact ⟨rfl, rfl, rfl, .cons ⟨rfl, .inl rfl⟩ .nil⟩
    | 1 => exact ⟨rfl, rfl, rfl, .cons ⟨rfl, .inl rfl⟩ .nil⟩
    | 2 =>
      exact ⟨rfl, rfl, rfl,
        .cons ⟨rfl, .inr fun hp => by cases hp; rfl⟩ (.cons ⟨rfl, .inl rfl⟩ .nil)⟩
  · match id with
    | 0 => cases hl; exact absurd hname List.not_mem_nil
    | 1 => cases hl; cases hn; exact rfl
    | 2 => cases hl; exact absurd hname List.not_mem_nil
    | _ + 3 => cases hl
  · exact ⟨.link, 1, ⟨0, .hosted 1, true⟩, ⟨0, .hosted 1, false⟩, by decide +kernel,
      by decide +kernel, by decide⟩
  · exact absurd (congrArg (List.map fun x => x.2.reply?) h) (by decide +kernel)
  · decide +kernel
  · decide +kernel
  · exact absurd (congrArg Sight.request? h) (by decide +kernel)

end Session

end ScriptSandbox
