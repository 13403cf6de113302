import ScriptSandbox.Proofs.Guard.Errand
import ScriptSandbox.Proofs.Guard.Integrity

/-
  When a link forgets a name, and when it keeps it.

  A delete through a link forgets the name exactly if it waited for the host and came out with
  `true`; one that comes out at once, because the host object has no such property, leaves what the
  link remembers as it is (`deleted_name_forgotten`). A name that was created through a link stays
  accessible through it, whatever the host and the caches do, until it is deleted through it; and
  the realm goes on giving that link for the host object as long as it is alive
  (`created_name_accessible`). Both are about the memory of one link: a link that is made anew
  after the old one is lost remembers nothing.
-/

namespace ScriptSandbox

/-- An object of the embedding is known by its key. -/
theorem Native.eq_hosted_of_key {n : Native} {host : HostId}
    (h : n.key = (Native.hosted host).key) : n = .hosted host := by
  cases n <;> cases h
  rfl

namespace World

variable {E : Type} [Embedding E] {w : World E} {l : Link} {name : String}

/-- Without a tracked name reading and writing are left to the policy of the host object. -/
theorem allows_of_not_created (h : name ∉ l.created) :
    w.allowsRead l name = ((w.policy? l.native).map (·.allowsRead name)).getD false ∧
      w.allowsWrite l name = ((w.policy? l.native).map (·.allowsWrite name)).getD false := by
  have hcreated : w.createdByScript l name = false := by
    rw [createdByScript, Bool.eq_false_iff.mpr fun hc => h (NameSet.contains_iff.mp hc),
      Bool.and_false]
  rw [allowsRead, allowsWrite, hcreated, Bool.or_false, Bool.or_false]
  exact ⟨rfl, rfl⟩

/-- A tracked name may be read and written whatever the policy says. -/
theorem allows_of_created (ht : (w.realm l.realm).newProperties = .trackCreated)
    (h : name ∈ l.created) : w.allowsRead l name = true ∧ w.allowsWrite l name = true := by
  have hcreated : w.createdByScript l name = true := by
    rw [createdByScript, ht, NameSet.contains_iff.mpr h]
    rfl
  rw [allowsRead, allowsWrite, hcreated, Bool.or_true, Bool.or_true]
  exact ⟨rfl, rfl⟩

end World

namespace Scene

variable {E : Type} [Embedding E] {link : LinkId} {name : String} {realm : RealmId} {host : HostId}
  {s : Scene E}

/-- The scene has come about by a run from an empty world. -/
def Reachable (s : Scene E) : Prop := ∃ e events, s = (idle (World.empty e)).run events

theorem Reachable.minds (h : s.Reachable) : s.Minds link name := by
  obtain ⟨e, events, rfl⟩ := h
  exact (recalls_run (minds_idle _) events).2

theorem Reachable.keyed (h : s.Reachable) : s.world.Keyed link := by
  obtain ⟨e, events, rfl⟩ := h
  -- what is cached has nothing to do with the name
  have hminds : (idle (World.empty e)).Minds link "" := minds_idle _
  obtain ⟨⟨f, hrun⟩, -⟩ := recalls_run hminds events
  exact hrun.keyed (World.keyed_empty e)

/-! ## Forgetting -/

theorem moved?_of_answered? {e : Occurrence E} {a : Errand E} (h : s.answered? e = some a) :
    s.moved? e = some a := by
  cases e with
  | wrapper e => exact h
  | host change => exact h
  | script e =>
    cases e with
    | start realm op => cases h
    | _ => exact h

/-- By a delete that comes out with `true` the link forgets the name, unless it comes out at
    once: then the link remembers the name if it did before. -/
theorem CompletesDelete.recalls_iff {e : Occurrence E} (h : s.CompletesDelete link name e)
    (p : Prop) : (p ∨ s.Creates link name e) ∧ ¬ s.Deletes link name e ↔
      s.answered? e = none ∧ p := by
  obtain ⟨a, ha, hdeleted⟩ := h
  cases hanswered : s.answered? e with
  | none => simp [Creates, Deletes, hanswered]
  | some b =>
    obtain rfl : b = a := Option.some_inj.mp ((moved?_of_answered? hanswered).symm.trans ha)
    have hdeletes : s.Deletes link name e := ⟨b, hanswered, hdeleted⟩
    simp [hdeletes]

/-- Once a delete through a link comes out with `true`, the link remembers the name just if the
    delete came out at once and the name was remembered before. If it is forgotten, then after every
    run in which it is not created through the link again, whatever the host does, reading and
    writing it through the link are left to the policy of the host object. -/
theorem deleted_name_forgotten (hs : s.Reachable) {e : Occurrence E} {l : Link}
    (hl : s.world.links[link]? = some l) (hdelete : s.CompletesDelete link name e) :
    (∃ l', (s.advance e).world.links[link]? = some l' ∧
      (name ∈ l'.created ↔ s.answered? e = none ∧ name ∈ l.created)) ∧
    ((s.answered? e).isSome = true ∨ name ∉ l.created →
      ∀ after, (s.advance e).Never (Creates link name) after →
        let w := ((s.advance e).run after).world
        ∃ l', w.links[link]? = some l' ∧ l'.realm = l.realm ∧ l'.native = l.native ∧
          name ∉ l'.created ∧
          w.allowsRead l' name = ((w.policy? l'.native).map (·.allowsRead name)).getD false ∧
          w.allowsWrite l' name =
            ((w.policy? l'.native).map (·.allowsWrite name)).getD false) := by
  have hminds : s.Minds link name := hs.minds
  obtain ⟨hnow, hminds⟩ := recalls_advance hminds e
  obtain ⟨created, live, hl₁, hmem, -⟩ := hnow.kept hl
  have hmem : name ∈ created ↔ s.answered? e = none ∧ name ∈ l.created :=
    hmem.trans (hdelete.recalls_iff _)
  refine ⟨⟨_, hl₁, hmem⟩, fun hforgets after hafter => ?_⟩
  have hgone : name ∉ created := fun hin => by
    obtain ⟨hnone, hin⟩ := hmem.mp hin
    rcases hforgets with hsome | hnot
    · rw [hnone] at hsome
      cases hsome
    · exact hnot hin
  obtain ⟨f, hf, hlater⟩ := run_forgets hminds hafter
  obtain ⟨created', live', hl₂, hmem', -⟩ := hlater.kept hl₁
  have hgone' : name ∉ created' := fun hin => hgone (hf _ (hmem'.mp hin))
  exact ⟨_, hl₂, rfl, rfl, hgone', World.allows_of_not_created hgone'⟩

end Scene

namespace Session

open Scene

/-- A realm that tracks new properties and nothing else but an account. -/
def opening : Scene Session :=
  (idle (World.empty (ofRecords #[account]))).run [.wrapper (.newRealm .trackCreated)]

/-- The realm is asked for the link of the account. -/
def linking : Occurrence Session := .wrapper (.link 0 (.object (.hosted 0)))

/-- The link is held, and a memo is written through it. -/
def writing : List (Occurrence Session) :=
  [.script (.chore (.hold [.value (.link 0)])), .script (.start 0 (.put (.link 0) "memo" .null))]

/-- The checkpoint of an operation is passed. -/
def passing (index : Nat) : Occurrence Session := .script (.answer index (.ok .undefined))

/-- The memo is deleted through the link. -/
def deleting : Occurrence Session := .script (.start 0 (.delete (.link 0) "memo"))

/-- The host takes the memo away. -/
def taking : Occurrence Session := .host fun s => (onRecord 0 (Record.delete "memo") s).2

/-- The host writes a memo of its own. -/
def defining : Occurrence Session :=
  .host fun s => (onRecord 0 (fun r => ((), r.define "memo" .null)) s).2

theorem reachable_opening (events : List (Occurrence Session)) :
    (opening.run events).Reachable :=
  ⟨ofRecords #[account], .wrapper (.newRealm .trackCreated) :: events, rfl⟩

/-- The memo was written through the link, and its delete has passed the checkpoint. -/
theorem deleted_name_forgotten_memo :
    let s := opening.run (linking :: writing ++ [passing 0, deleting])
    let w := ((s.advance (passing 1)).run [defining]).world
    (s.Reachable ∧ s.CompletesDelete 0 "memo" (passing 1) ∧
      (s.advance (passing 1)).Never (Creates 0 "memo") [defining]) ∧
    s.world.links[0]?.map (·.created.names) = some ["memo"] ∧
    w.hasProperty (.hosted 0) "memo" = true ∧
    ∃ l, w.links[0]? = some l ∧ w.allowsRead l "memo" = false ∧ w.allowsWrite l "memo" = false := by
  intro s w
  have hs : s.Reachable := reachable_opening _
  have hdelete : s.CompletesDelete 0 "memo" (passing 1) := by decide +kernel
  have hafter : (s.advance (passing 1)).Never (Creates 0 "memo") [defining] := by decide +kernel
  have hnames : s.world.links[0]?.map (·.created.names) = some ["memo"] := by decide +kernel
  have hnative : s.world.links[0]?.map (·.native) = some (.hosted 0) := by decide +kernel
  obtain ⟨l, hl, hl'⟩ := Option.map_eq_some_iff.mp hnative
  obtain ⟨-, hforgets⟩ := deleted_name_forgotten hs hl hdelete
  obtain ⟨l₁, hl₁, -, hnative₁, -, hread, hwrite⟩ :=
    hforgets (.inl (by decide +kernel)) [defining] hafter
  have hpolicy : w.policy? (.hosted 0) = account.policy := by rfl
  rw [hnative₁, hl', hpolicy] at hread hwrite
  exact ⟨⟨hs, hdelete, hafter⟩, hnames, by decide +kernel, l₁, hl₁, hread, hwrite⟩

/-- When the host has taken the memo away, its delete comes out with `true` at once, and the link
    goes on remembering it: a memo that the host then writes may be read and written through the
    link, though it is on no list. -/
theorem deleted_at_once_remembered :
    let s := opening.run (linking :: writing ++ [passing 0, taking])
    let w := ((s.advance deleting).run [defining]).world
    s.Reachable ∧ s.CompletesDelete 0 "memo" deleting ∧
      (s.advance deleting).Never (Creates 0 "memo") [defining] ∧
      (∀ policy, w.policy? (.hosted 0) = some policy →
        policy.allowsRead "memo" = false ∧ policy.allowsWrite "memo" = false) ∧
      ∃ l, w.links[0]? = some l ∧ l.native = .hosted 0 ∧
        w.allowsRead l "memo" = true ∧ w.allowsWrite l "memo" = true := by
  intro s w
  have hpolicy : w.policy? (.hosted 0) = account.policy := by rfl
  refine ⟨reachable_opening _, by decide +kernel, by decide +kernel, fun policy hp => ?_, ?_⟩
  · rw [hpolicy] at hp
    cases hp
    decide
  · have haccess : w.links[0]?.any (fun l => decide (l.native = .hosted 0) &&
        (w.allowsRead l "memo" && w.allowsWrite l "memo")) = true := by decide +kernel
    obtain ⟨l, hl, h⟩ := (Option.any_eq_true _ _).mp haccess
    rw [Bool.and_eq_true, Bool.and_eq_true] at h
    exact ⟨l, hl, of_decide_eq_true h.1, h.2⟩

end Session

namespace Scene

variable {E : Type} [Embedding E] {link : LinkId} {name : String} {realm : RealmId} {host : HostId}
  {s : Scene E}

/-! ## Keeping -/

/-- The scene has come about by a run in which a tracking realm was asked for the link of a host
    object, with no well-known value in its place, and gave this link. -/
def GivesLink (realm : RealmId) (host : HostId) (link : LinkId) (s : Scene E) : Prop :=
  ∃ s₀ : Scene E, s₀.Reachable ∧ (s₀.world.realm realm).newProperties = .trackCreated ∧
    s₀.world.wellKnown? realm (.hosted host) = none ∧
    (s₀.world.link realm (.object (.hosted host))).1 = .link link ∧
    ∃ events, s = (s₀.advance (.wrapper (.link realm (.object (.hosted host))))).run events

theorem GivesLink.minds (h : s.GivesLink realm host link) : s.Minds link name := by
  obtain ⟨s₀, hs, -, -, -, events, rfl⟩ := h
  exact (recalls_run (recalls_advance hs.minds _).2 events).2

omit [Embedding E] in
/-- A realm that tracks new properties exists. -/
theorem lt_size_of_tracking {w : World E} (h : (w.realm realm).newProperties = .trackCreated) :
    realm < w.realms.size := by
  rcases Nat.lt_or_ge realm w.realms.size with hlt | hge
  · exact hlt
  · rw [World.realm, Array.getElem?_eq_none hge] at h
    cases h

/-- Ever since, the link has belonged to the realm and the host object, the realm has had it for the
    host object, and it tracks new properties. -/
theorem GivesLink.caches (h : s.GivesLink realm host link) :
    s.world.Caches link realm (.hosted host) ∧
      (∃ l, s.world.links[link]? = some l ∧ l.realm = realm ∧ l.native = .hosted host) ∧
      (s.world.realm realm).newProperties = .trackCreated := by
  obtain ⟨s₀, hs, htracks, hknown, hgiven, events, rfl⟩ := h
  have hrealm : realm < s₀.world.realms.size := lt_size_of_tracking htracks
  have hlink : s₀.world.link realm (.object (.hosted host)) =
      s₀.world.newestLink realm (.hosted host) := by
    rw [World.link, hknown]
    rfl
  have hworld : (s₀.advance (.wrapper (.link realm (.object (.hosted host))))).world =
      (s₀.world.newestLink realm (.hosted host)).2 := by
    have hexists : (WrapperEvent.link realm (.object (.hosted host))).realm?.all
        (· < s₀.world.realms.size) = true := decide_eq_true hrealm
    show WrapperEvent.apply s₀.world _ = _
    rw [WrapperEvent.apply, if_pos hexists, ← hlink]
    rfl
  rw [hlink] at hgiven
  obtain ⟨hcached, l, hl, hr, hkey⟩ := World.caches_newestLink hrealm hs.keyed hgiven
  rw [← hworld] at hcached hl
  -- the caches are the same for every name
  have hminds : s₀.Minds link "" := hs.minds
  obtain ⟨hnow, hminds⟩ := recalls_advance hminds (.wrapper (.link realm (.object (.hosted host))))
  obtain ⟨⟨f, hlater⟩, -⟩ := recalls_run hminds events
  obtain ⟨created, live, hl', -⟩ := hlater.kept hl
  refine ⟨hlater.cached realm _ (Array.getElem?_eq_some_iff.mp hl).1 hcached,
    ⟨_, hl', hr, Native.eq_hosted_of_key hkey⟩,
    hlater.tracking realm (hnow.tracking realm htracks)⟩

/-- Let a write be accepted that creates a property of a host object through the link that a
    tracking realm gave for it. After every later run in which the property is not deleted through
    the link, whatever else is dropped, made or swept and whatever the host does: if the link is
    still alive, the property may be read and written through it, and it is the link that the realm
    gives for the host object, unless a well-known value stands for it. -/
theorem created_name_accessible (hs : s.GivesLink realm host link) {e : Occurrence E}
    (hput : s.Creates link name e) (later : List (Occurrence E))
    (hlater : (s.advance e).Never (Deletes link name) later)
    (hlive : ((s.advance e).run later).world.linkLive link = true) :
    let w := ((s.advance e).run later).world
    (∃ l, w.links[link]? = some l ∧ l.realm = realm ∧ l.native = .hosted host ∧
      w.allowsRead l name = true ∧ w.allowsWrite l name = true) ∧
    (w.wellKnown? realm (.hosted host) = none →
      w.link realm (.object (.hosted host)) = (.link link, w)) := by
  intro w
  obtain ⟨hcached, ⟨l, hlink, rfl, hhost⟩, htracks⟩ := hs.caches
  have hminds : s.Minds link name := hs.minds
  obtain ⟨hnow, hminds⟩ := recalls_advance hminds e
  obtain ⟨f, hf, hrest⟩ := run_remembers hminds hlater
  have hend : World.Recalls link name _ s.world w := hnow.trans hrest
  obtain ⟨created', live', hl, hmem, -⟩ := hend.kept hlink
  -- the errand that created the property is no delete
  have hdeletes : ¬ s.Deletes link name e := by
    rintro ⟨b, hb, hdeleted⟩
    obtain ⟨a, ha, hcreated⟩ := hput
    obtain rfl : a = b := Option.some_inj.mp (ha.symm.trans hb)
    exact hcreated.1.not_deleting hdeleted.1
  have hin : name ∈ created' := hmem.mpr (hf _ ⟨.inr hput, hdeletes⟩)
  refine ⟨⟨_, hl, rfl, hhost, World.allows_of_created (hend.tracking _ htracks) hin⟩,
    fun hknown => ?_⟩
  have hlt : link < s.world.links.size := (Array.getElem?_eq_some_iff.mp hlink).1
  have hfound : w.wrapperOf? .link l.realm (.hosted host) = some link :=
    hend.cached _ _ hlt hcached hlive
  have hgiven : w.newestLink l.realm (.hosted host) = (.link link, w) := World.wrap_of_some hfound
  rw [World.link, hknown]
  exact hgiven

end Scene

namespace Session

open Scene

/-- What happens after the memo was written: the host replaces it, the caches are swept, and the
    realm is asked for the link again. -/
def upkeep : List (Occurrence Session) :=
  [taking, defining, .script (.chore .collect), .wrapper (.purge 0), linking]

theorem created_name_accessible_memo :
    let s := opening.run (linking :: writing)
    let w := ((s.advance (passing 0)).run upkeep).world
    (s.GivesLink 0 0 0 ∧ s.Creates 0 "memo" (passing 0) ∧
      (s.advance (passing 0)).Never (Deletes 0 "memo") upkeep ∧ w.linkLive 0 = true) ∧
    (∃ l, w.links[0]? = some l ∧ w.allowsRead l "memo" = true ∧ w.allowsWrite l "memo" = true) ∧
    w.link 0 (.object (.hosted 0)) = (.link 0, w) := by
  intro s w
  have hs : s.GivesLink 0 0 0 :=
    ⟨opening, reachable_opening [], by decide +kernel, by decide +kernel, by decide +kernel,
      writing, rfl⟩
  have hput : s.Creates 0 "memo" (passing 0) := by decide +kernel
  have hlater : (s.advance (passing 0)).Never (Deletes 0 "memo") upkeep := by decide +kernel
  have hlive : w.linkLive 0 = true := by decide +kernel
  obtain ⟨⟨l, hl', -, -, hread, hwrite⟩, hgiven⟩ :=
    created_name_accessible hs hput upkeep hlater hlive
  exact ⟨⟨hs, hput, hlater, hlive⟩, ⟨l, hl', hread, hwrite⟩, hgiven (by decide +kernel)⟩

/-- When the script lets go of the link, the realm makes a new one for the account, and that one
    does not let the script at the memo, though nobody has taken the memo away. -/
theorem created_name_lost :
    let s := opening.run (linking :: writing)
    let later := [.script (.chore (.letGo [.value (.link 0)])), .script (.chore .collect)]
    let w := ((s.advance (passing 0)).run later).world
    let w' := (w.link 0 (.object (.hosted 0))).2
    s.GivesLink 0 0 0 ∧ s.Creates 0 "memo" (passing 0) ∧
      (s.advance (passing 0)).Never (Deletes 0 "memo") later ∧
      w.hasProperty (.hosted 0) "memo" = true ∧
      (w.link 0 (.object (.hosted 0))).1 = .link 1 ∧
      ∃ l, w'.links[1]? = some l ∧ l.native = .hosted 0 ∧
        w'.allowsRead l "memo" = false ∧ w'.allowsWrite l "memo" = false := by
  intro s later w w'
  refine ⟨⟨opening, reachable_opening [], by decide +kernel, by decide +kernel, by decide +kernel,
    writing, rfl⟩, by decide +kernel, by decide +kernel, by decide +kernel, by decide +kernel, ?_⟩
  have haccess : w'.links[1]?.any (fun l => decide (l.native = .hosted 0) &&
      (!w'.allowsRead l "memo" && !w'.allowsWrite l "memo")) = true := by decide +kernel
  obtain ⟨l, hl, h⟩ := (Option.any_eq_true _ _).mp haccess
  rw [Bool.and_eq_true, Bool.and_eq_true, Bool.not_eq_true', Bool.not_eq_true'] at h
  exact ⟨l, hl, of_decide_eq_true h.1, h.2⟩

end Session

end ScriptSandbox
