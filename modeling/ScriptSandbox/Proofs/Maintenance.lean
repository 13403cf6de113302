import Mathlib.Data.List.Forall2
import ScriptSandbox.Proofs.Guard.Errand
import ScriptSandbox.Proofs.Lockstep
import ScriptSandbox.Proofs.Operation.Overlooking
import ScriptSandbox.Proofs.World.Upkeep

/-
  Maintenance of caches.

  On a course scripts, realms and hosts act in any order, and it is kept what the script gets hold
  of and what the realms give. A course that is maintained has upkeep besides: between any two
  events, and at any node of a step that an event runs (`Course.Maintained`). Since upkeep leaves a
  world alike and every event overlooks it, the two courses stay alike (`Course.alike_maintained`,
  by induction on the maintained run). What shows of alike courses is the same, so maintenance
  cannot be observed.
-/

namespace ScriptSandbox

variable {E : Type}

/-! ## Alike stages -/

theorem Step.Front.Similar.sight_eq {R : World E → World E → Prop} {f g : Front (World E) Reply}
    (h : f.Similar R g) : f.sight = g.sight := by
  cases f <;> cases g <;> first | exact h.elim | skip
  · exact congrArg Sight.outcome h
  · exact congrArg Sight.fault h
  · exact congrArg Sight.request h.1

theorem Step.Front.Similar.values_eq {R : World E → World E → Prop} {f g : Front (World E) Reply}
    (h : f.Similar R g) : f.values = g.values := values_eq_of_sight_eq h.sight_eq

/-- The same operation, at fronts that alike worlds do not tell apart. -/
structure Activity.Alike (a b : Activity E) : Prop where
  operation : a.operation = b.operation
  front : a.front.Similar World.Alike b.front

/-- The same activities and the same values in alike worlds. -/
structure Stage.Alike (s t : Stage E) : Prop where
  world : s.world.Alike t.world
  activities : List.Forall₂ Activity.Alike s.activities t.activities
  known : s.known = t.known

theorem forall₂_set {α β : Type} {R : α → β → Prop} {xs : List α} {ys : List β} {x : α} {y : β}
    (h : List.Forall₂ R xs ys) (hxy : R x y) (index : Nat) :
    List.Forall₂ R (xs.set index x) (ys.set index y) := by
  induction h generalizing index with
  | nil => exact .nil
  | cons hab _ ih =>
    cases index with
    | zero => exact .cons hxy ‹_›
    | succ index => exact .cons hab (ih index)

namespace Stage

/-- The stage on which an operation was started that came to a front, and with it to a world. -/
def started (s : Stage E) (op : ValueOperation) (front : Step.Front (World E) Reply)
    (w : World E) : Stage E :=
  ⟨w, s.activities ++ [⟨op, front⟩], front.values ++ s.known⟩

/-- The stage on which an activity went on to a front, and with it to a world. -/
def resumed (s : Stage E) (index : Nat) (op : ValueOperation) (front : Step.Front (World E) Reply)
    (w : World E) : Stage E :=
  ⟨w, s.activities.set index ⟨op, front⟩, front.values ++ s.known⟩

namespace Alike

variable {s t : Stage E} (h : s.Alike t)

include h

theorem sights_eq : s.sights = t.sights := by
  have hsights : List.Forall₂ Eq s.sights t.sights := List.rel_map
    (fun _ _ hab => congrArg₂ Prod.mk hab.operation hab.front.sight_eq) h.activities
  rwa [List.forall₂_eq_eq_eq] at hsights

/-- The activity of the other stage at the same place. -/
theorem counterpart (index : Nat) :
    (s.activities[index]? = none ∧ t.activities[index]? = none) ∨
      ∃ a b, s.activities[index]? = some a ∧ t.activities[index]? = some b ∧ a.Alike b := by
  have hlen := h.activities.length_eq
  by_cases hi : index < s.activities.length
  · exact .inr ⟨_, _, List.getElem?_eq_getElem hi, List.getElem?_eq_getElem (hlen ▸ hi),
      h.activities.get hi (hlen ▸ hi)⟩
  · rw [List.getElem?_eq_none_iff, List.getElem?_eq_none_iff]
    exact .inl ⟨by omega, by omega⟩

variable {front front' : Step.Front (World E) Reply} {w w' : World E}

theorem started (op : ValueOperation) (hf : front.Similar World.Alike front') (hw : w.Alike w') :
    (s.started op front w).Alike (t.started op front' w') where
  world := hw
  activities := List.rel_append h.activities (.cons ⟨rfl, hf⟩ .nil)
  known := congrArg₂ (· ++ ·) hf.values_eq h.known

theorem resumed (index : Nat) (op : ValueOperation) (hf : front.Similar World.Alike front')
    (hw : w.Alike w') : (s.resumed index op front w).Alike (t.resumed index op front' w') where
  world := hw
  activities :=
    have hnew : Activity.Alike (⟨op, front⟩ : Activity E) ⟨op, front'⟩ := ⟨rfl, hf⟩
    forall₂_set h.activities hnew index
  known := congrArg₂ (· ++ ·) hf.values_eq h.known

end Alike

end Stage

/-! ## Events overlook upkeep -/

/-- Alike worlds and upkeep in one of them make no difference to where a step gets. -/
theorem Step.Similar.settle_upkeep {α : Type} {s t : Evaluation E α} {w w' v : World E}
    {front : Step.Front (World E) α} (hs : s.Similar World.Alike t) (hw : w.Alike w')
    (h : t.SettlesAmid World.Upkeep w' front v) :
    (s.settle w).1.Similar World.Alike front ∧ (s.settle w).2.Alike v :=
  hs.settle (fun _ _ _ ha hu => ha.upkeep hu) hw h

variable [Embedding E]

theorem Chore.overlooks_perform (ch : Chore) : World.Overlooks (E := E) ch.perform := by
  intro w w' h
  cases ch with
  | object o =>
    obtain ⟨hv, hw⟩ := World.overlooks_newObject o h
    exact ⟨congrArg some hv, hw⟩
  | array elements =>
    obtain ⟨hv, hw⟩ := World.overlooks_newArray elements h
    exact ⟨congrArg some hv, hw⟩
  | text s =>
    obtain ⟨hv, hw⟩ := World.overlooks_newString s h
    exact ⟨congrArg some hv, hw⟩
  | inherit id prototype => exact ⟨rfl, (World.overlooks_setPrototype id prototype h).2⟩
  | hold things => exact ⟨rfl, h.hold things⟩
  | letGo things => exact ⟨rfl, h.letGo things⟩
  | collect => exact ⟨rfl, h.collect []⟩

/-- What comes of the host value of an event that brings one in. -/
def WrapperEvent.entered (w : World E) : WrapperEvent → Option (Except MissingRealm Value)
  | wrap k realm n => some (.ok (w.wrap k realm n).1)
  | link realm value => some (.ok (w.link realm value).1)
  | fromHost realm? value => some (w.fromHostIn realm? value).1
  | _ => none

theorem WrapperEvent.entered_eq {w w' : World E} (h : w.Alike w') (e : WrapperEvent) :
    e.entered w = e.entered w' := by
  cases e with
  | wrap k realm n =>
    exact congrArg (fun v => some (Except.ok v)) (World.overlooks_wrap k realm n h).1
  | link realm value =>
    exact congrArg (fun v => some (Except.ok v)) (World.overlooks_link realm value h).1
  | fromHost realm? value => exact congrArg some (World.overlooks_fromHostIn realm? value h).1
  | _ => rfl

theorem WrapperEvent.alike_effect {w w' : World E} (h : w.Alike w') (e : WrapperEvent) :
    (e.effect w).Alike (e.effect w') := by
  cases e with
  | newRealm p => exact (World.overlooks_newRealm p h).2
  | registerWellKnown realm n v => exact h.registerWellKnown realm n v
  | wrap k realm n => exact (World.overlooks_wrap k realm n h).2
  | link realm value => exact (World.overlooks_link realm value h).2
  | fromHost realm? value => exact (World.overlooks_fromHostIn realm? value h).2
  | expire dies => exact h.expire dies
  | collect hand => exact h.collect hand
  | purge realm => exact h.purge realm

namespace Stage.Alike

variable {s t : Stage E} (h : s.Alike t)

include h

/-- An operation that is started comes to the same point, whatever upkeep goes on. -/
theorem start {realm : RealmId} {op : ValueOperation} {front : Step.Front (World E) Reply}
    {w : World E} (hs : (op.step realm).SettlesAmid World.Upkeep t.world front w) :
    (s.advance (.start realm op)).Alike (t.started op front w) := by
  obtain ⟨hf, hw⟩ := Step.Similar.settle_upkeep (op.overlooks_step realm) h.world hs
  exact h.started op hf hw

/-- So does an activity that is answered. -/
theorem answer {index : Nat} {flow : Flow Value} {op : ValueOperation} {r : Request}
    {release : World E → World E} {resume : Flow Value → Evaluation E Reply}
    (ha : t.activities[index]? = some ⟨op, .waiting r release resume⟩)
    {front : Step.Front (World E) Reply} {w : World E}
    (hs : (resume flow).SettlesAmid World.Upkeep t.world front w) :
    (s.advance (.answer index flow)).Alike (t.resumed index op front w) := by
  rcases h.counterpart index with ⟨-, hnone⟩ | ⟨⟨op', front'⟩, b, ha', hb, hab⟩
  · rw [ha] at hnone
    cases hnone
  · rw [ha, Option.some_inj] at hb
    subst hb
    obtain ⟨hop, hfront⟩ := hab
    cases hop
    cases front' <;> first | exact hfront.elim | skip
    obtain ⟨hf, hw⟩ := (hfront.2.2 flow).settle_upkeep h.world hs
    simp only [Stage.advance, ha']
    exact h.resumed index op hf hw

theorem advance (e : Event) : (s.advance e).Alike (t.advance e) := by
  cases e with
  | start realm op => exact h.start (Step.settlesAmid_settle _ t.world)
  | answer index flow =>
    rcases h.counterpart index with ⟨hs, ht⟩ | ⟨⟨op, f⟩, ⟨op', g⟩, hs, ht, ha⟩
    · simp only [Stage.advance, hs, ht]
      exact h
    cases f <;> cases g <;> first | exact ha.front.elim | skip
    · simp only [Stage.advance, hs, ht]
      exact h
    · simp only [Stage.advance, hs, ht]
      exact h
    · have hnew : (s.advance (.answer index flow)).Alike _ :=
        h.answer ht (Step.settlesAmid_settle _ t.world)
      simp only [Stage.advance, ht] at hnew ⊢
      exact hnew
  | abandon index =>
    rcases h.counterpart index with ⟨hs, ht⟩ | ⟨⟨op, f⟩, ⟨op', g⟩, hs, ht, ha⟩
    · simp only [Stage.advance, hs, ht]
      exact h
    cases f <;> cases g <;> first | exact ha.front.elim | simp only [Stage.advance, hs, ht]
    · exact h
    · exact h
    · refine ⟨ha.front.2.1 h.world, ?_, h.known⟩
      rw [List.eraseIdx_eq_take_drop_succ, List.eraseIdx_eq_take_drop_succ]
      exact List.rel_append (List.forall₂_take index h.activities)
        (List.forall₂_drop (index + 1) h.activities)
  | chore ch =>
    obtain ⟨hv, hw⟩ := ch.overlooks_perform h.world
    exact ⟨hw, h.activities, congrArg₂ (· ++ ·) (congrArg Option.toList hv) h.known⟩

end Stage.Alike

/-! ## Courses -/

/-- A stage, together with what the realms gave. -/
structure Course (E : Type) where
  stage : Stage E
  /-- What came of the host values that were brought in, the latest first. -/
  given : List (Except MissingRealm Value)

namespace Course

/-- A course that begins in a world in which nothing was started and nothing is known. -/
def begin (w : World E) : Course E := ⟨.idle w [], []⟩

/-- The course in another world. -/
def inWorld (c : Course E) (w : World E) : Course E :=
  { c with stage := { c.stage with world := w } }

/-- What an event does. An event of a realm that does not exist does not occur. -/
def advance (c : Course E) : Occurrence E → Course E
  | .script e => { c with stage := c.stage.advance e }
  | .wrapper e =>
    if e.realm?.all (· < c.stage.world.realms.size) then
      { c.inWorld (e.effect c.stage.world) with
        given := (e.entered c.stage.world).toList ++ c.given }
    else c
  | .host change => c.inWorld (c.stage.world.modifyEmbedding change)

/-- The events of a list one after the other. -/
def run (c : Course E) (events : List (Occurrence E)) : Course E := events.foldl advance c

/-- The events of a list lead from one course to another, with any upkeep between them and at any
    node of the steps that they run. -/
inductive Maintained : Course E → List (Occurrence E) → Course E → Prop where
  | done {c : Course E} : Maintained c [] c
  | upkeep {c d : Course E} {w : World E} {events : List (Occurrence E)}
    (hw : c.stage.world.Upkeep w) (h : Maintained (c.inWorld w) events d) : Maintained c events d
  | event {c d : Course E} {e : Occurrence E} {events : List (Occurrence E)}
    (h : Maintained (c.advance e) events d) : Maintained c (e :: events) d
  | start {c d : Course E} {realm : RealmId} {op : ValueOperation} {w : World E}
    {front : Step.Front (World E) Reply} {events : List (Occurrence E)}
    (hs : (op.step realm).SettlesAmid World.Upkeep c.stage.world front w)
    (h : Maintained { c with stage := c.stage.started op front w } events d) :
    Maintained c (.script (.start realm op) :: events) d
  | answer {c d : Course E} {index : Nat} {flow : Flow Value} {op : ValueOperation} {r : Request}
    {release : World E → World E} {resume : Flow Value → Evaluation E Reply} {w : World E}
    {front : Step.Front (World E) Reply} {events : List (Occurrence E)}
    (ha : c.stage.activities[index]? = some ⟨op, .waiting r release resume⟩)
    (hs : (resume flow).SettlesAmid World.Upkeep c.stage.world front w)
    (h : Maintained { c with stage := c.stage.resumed index op front w } events d) :
    Maintained c (.script (.answer index flow) :: events) d

/-- The same stage in alike worlds, and the same was given. -/
structure Alike (c d : Course E) : Prop where
  stage : c.stage.Alike d.stage
  given : c.given = d.given

omit [Embedding E] in
theorem Alike.inWorld {c d : Course E} (h : c.Alike d) {w w' : World E} (hw : w.Alike w') :
    (c.inWorld w).Alike (d.inWorld w') :=
  ⟨⟨hw, h.stage.activities, h.stage.known⟩, h.given⟩

theorem Alike.advance {c d : Course E} (h : c.Alike d) (e : Occurrence E) :
    (c.advance e).Alike (d.advance e) := by
  cases e with
  | script e => exact ⟨h.stage.advance e, h.given⟩
  | host change => exact h.inWorld (h.stage.world.modifyEmbedding change)
  | wrapper e =>
    have hsize := h.stage.world.realms.size_eq
    simp only [Course.advance, hsize]
    split
    · have hentered := WrapperEvent.entered_eq h.stage.world e
      exact ⟨(h.inWorld (WrapperEvent.alike_effect h.stage.world e)).stage,
        congrArg₂ (· ++ ·) (congrArg Option.toList hentered) h.given⟩
    · exact h

/-- With upkeep the events lead to an alike course. -/
theorem alike_maintained {c c' d : Course E} (hc : c.Alike c') {events : List (Occurrence E)}
    (h : Maintained c' events d) : (c.run events).Alike d := by
  induction h generalizing c with
  | done => exact hc
  | upkeep hw _ ih => exact ih (hc.inWorld (hc.stage.world.upkeep hw))
  | event _ ih => exact ih (hc.advance _)
  | start hs _ ih => exact ih ⟨hc.stage.start hs, hc.given⟩
  | answer ha hs _ ih => exact ih ⟨hc.stage.answer ha hs, hc.given⟩

/-- What shows of a course is the same of another one, and the worlds differ in their caches at
    most. -/
structure Indistinguishable (c d : Course E) : Prop where
  /-- The heap, the embedding and what is alive are the same. -/
  world : d.stage.world = c.stage.world.withRealms d.stage.world.realms
  /-- Host values that were brought in came in as the same values. -/
  given : d.given = c.given
  known : d.stage.known = c.stage.known
  /-- All operations came to the same outcomes and requests. -/
  sights : d.stage.sights = c.stage.sights
  /-- Wrapping a host object hits the same wrapper, or misses. -/
  wrapperOf? : ∀ k realm n, d.stage.world.wrapperOf? k realm n = c.stage.world.wrapperOf? k realm n
  wellKnown? : ∀ realm n, d.stage.world.wellKnown? realm n = c.stage.world.wellKnown? realm n
  cached : ∀ k realm, d.stage.world.cached k realm = c.stage.world.cached k realm

omit [Embedding E] in
theorem Alike.indistinguishable {c d : Course E} (h : c.Alike d) : c.Indistinguishable d where
  world := by
    have hw := h.stage.world
    revert hw
    generalize d.stage.world = w
    rintro ⟨rs, -⟩
    rfl
  given := h.given.symm
  known := h.stage.known.symm
  sights := h.stage.sights_eq.symm
  wrapperOf? k realm n := (h.stage.world.wrapperOf?_eq k realm n).symm
  wellKnown? realm n := (h.stage.world.wellKnown?_eq realm n).symm
  cached k realm := (h.stage.world.cached_eq k realm).symm

/-- Whatever scripts, realms and hosts do, purges at any points and sweeps at any other times do
    not show, as long as no host object with a well-known value is lost when its realm is purged. -/
theorem maintenance_unobservable {w : World E} (hw : ∀ k, World.Faithful k w)
    {events : List (Occurrence E)} {d : Course E} (h : Maintained (begin w) events d) :
    ((begin w).run events).Indistinguishable d := by
  have hbegin : (begin w).Alike (begin w) := ⟨⟨World.Faithful.alike hw, .nil, rfl⟩, rfl⟩
  exact (alike_maintained hbegin h).indistinguishable

/-- Two links are lost, and the realm is purged before one of their host objects is linked anew, and
    again while a property is read. Without the purges an entry of the other one is still there. -/
theorem maintenance_unobservable_purged :
    let w := World.empty (Session.ofRecords #[])
    let events : List (Occurrence Session) := [.wrapper (.newRealm .allow),
      .wrapper (.registerWellKnown 0 (.hosted 3) .null), .wrapper (.wrap .link 0 (.hosted 0)),
      .wrapper (.wrap .link 0 (.hosted 1)), .wrapper (.wrap .link 0 (.hosted 2)),
      .wrapper (.collect [.value (.link 2), .native (.hosted 3)]),
      .wrapper (.wrap .link 0 (.hosted 0)), .script (.start 0 (.member (.link 2) "name"))]
    let c := (begin w).run events
    (∀ k, World.Faithful k w) ∧ ∃ d, Maintained (begin w) events d ∧
      (c.stage.world.realm 0).links.entries.map (·.2) = [3, 2, 1] ∧
      (d.stage.world.realm 0).links.entries.map (·.2) = [3, 2] ∧ c.Indistinguishable d := by
  intro w events c
  have hw : ∀ k, World.Faithful k w := fun k => World.faithful_empty k _
  have hrun : ∃ d, Maintained (begin w) events d ∧
      (d.stage.world.realm 0).links.entries.map (·.2) = [3, 2] :=
    ⟨_, .event (.event (.event (.event (.event (.event
      (.upkeep (.purge 0 (by decide +kernel)) (.event
        (.start (.interrupted (.purge 0 (by decide +kernel)) (Step.settlesAmid_settle _ _))
          .done)))))))), by decide +kernel⟩
  obtain ⟨d, hd, hentries⟩ := hrun
  exact ⟨hw, d, hd, by decide +kernel, hentries, maintenance_unobservable hw hd⟩

end Course

end ScriptSandbox
