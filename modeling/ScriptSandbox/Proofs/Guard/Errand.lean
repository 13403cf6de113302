import ScriptSandbox.Proofs.Guard.Deciding

/-
  Errands.

  An errand is an operation on its way that knows whether it set out to create a property through a
  link. On a scene the script, the realms and the host act in any order: operations are started,
  answered and abandoned, wrappers are made and lost, caches are swept, and the host changes its
  objects on its own. What one event does to a name that a link remembers is said by the errand that
  it answers (`recalls_advance`), since every errand minds the name (`minds_advance`). By induction
  a run without a delete of the name through the link keeps it (`run_remembers`), and a run without
  a creating write brings it not back (`run_forgets`).
-/

namespace ScriptSandbox

variable {E : Type}

/-- An operation that was started, and whether it set out to create a property through a link. -/
structure Errand (E : Type) extends Activity E where
  creates : Bool

/-- A world with the operations that were started in it. -/
structure Scene (E : Type) where
  world : World E
  errands : List (Errand E)

/-- What can happen on a scene. -/
inductive Occurrence (E : Type) where
  | script (e : Event)
  | wrapper (e : WrapperEvent)
  /-- The host changes its objects on its own. -/
  | host (change : E → E)

namespace Errand

/-- The result of an errand that has one. -/
def reply? (a : Errand E) : Option Reply :=
  match a.front with
  | .finished (.ok r) => some r
  | _ => none

theorem reply?_eq_some {a : Errand E} {r : Reply} :
    a.reply? = some r ↔ a.front = .finished (.ok r) := by
  unfold reply?
  split <;> simp_all

variable (link : LinkId) (name : String)

/-- The errand is a write that set out to create the property through the link. -/
def Creating (a : Errand E) : Prop :=
  a.creates = true ∧ a.operation.writing? = some (.link link, name)

/-- The errand is a delete of the property through the link. -/
def Deleting (a : Errand E) : Prop := a.operation.deleting? = some (.link link, name)

/-- The write is done: the host accepted it. -/
def Created (a : Errand E) : Prop := a.Creating link name ∧ a.reply? = some (.result .done)

/-- The delete came out with `true`. -/
def Deleted (a : Errand E) : Prop := a.Deleting link name ∧ a.reply? = some (.result (.flag true))

instance (a : Errand E) : Decidable (a.Creating link name) := inferInstanceAs (Decidable (_ ∧ _))

instance (a : Errand E) : Decidable (a.Deleting link name) := inferInstanceAs (Decidable (_ = _))

instance (a : Errand E) : Decidable (a.Created link name) := inferInstanceAs (Decidable (_ ∧ _))

instance (a : Errand E) : Decidable (a.Deleted link name) := inferInstanceAs (Decidable (_ ∧ _))

variable {link name} in
theorem Creating.not_deleting {a : Errand E} (h : a.Creating link name) :
    ¬ a.Deleting link name := by
  rw [Deleting, ValueOperation.deleting?_of_writing? h.2]
  exact nofun

/-- What is still to come of the errand treats the name as its operation may: it decides about the
    name, or it is steady. -/
structure Minds (a : Errand E) : Prop where
  creating : a.Creating link name → a.front.Decides link name (.adopts (.result .done))
  deleting : a.Deleting link name → a.front.Decides link name (.drops (.result (.flag true)))
  other : ¬ a.Creating link name → ¬ a.Deleting link name →
    a.front.Makes (World.Steady link name)

end Errand

open World (Recalls Steady)

variable {link : LinkId} {name : String}

namespace Errand

/-- Nothing is to come of an errand that has ended. -/
theorem minds_of_ended {a : Errand E}
    (h : (∃ flow, a.front = .finished flow) ∨ ∃ e, a.front = .faulted e) : a.Minds link name := by
  rcases h with ⟨flow, h⟩ | ⟨e, h⟩ <;>
  · refine ⟨fun _ => ?_, fun _ => ?_, fun _ _ => ?_⟩ <;>
    · rw [h]
      trivial

/-- An errand that gets its answer goes on minding the name. The name is remembered from then on if
    this was a creating write that is now done, and forgotten if it was a delete that came out with
    `true`. -/
theorem Minds.answered {a : Errand E} {r : Request} {release : World E → World E}
    {resume : Flow Value → Evaluation E Reply} (h : a.Minds link name)
    (hf : a.front = .waiting r release resume) (flow : Flow Value) (w : World E) {a' : Errand E}
    (ha : a' = { a with front := ((resume flow).settle w).1 }) :
    Recalls link name (fun p => (p ∨ a'.Created link name) ∧ ¬ a'.Deleted link name) w
        ((resume flow).settle w).2 ∧ a'.Minds link name := by
  have hfront : a'.front = ((resume flow).settle w).1 := by rw [ha]
  have hcreating : a'.Creating link name ↔ a.Creating link name := by rw [ha]; rfl
  have hdeleting : a'.Deleting link name ↔ a.Deleting link name := by rw [ha]; rfl
  by_cases hc : a.Creating link name
  · have hd : ¬ a'.Deleted link name := fun hd => hc.not_deleting (hdeleting.mp hd.1)
    have hdone := h.creating hc
    rw [hf] at hdone
    rcases (hdone.2 flow w).ended with ⟨outcome, hs, hw⟩ | ⟨e, hs, hw⟩
    · refine ⟨hw.congr fun p => ?_, minds_of_ended (.inl ⟨outcome, hfront.trans hs⟩)⟩
      have hcreated : a'.Created link name ↔ outcome = .ok (.result .done) := by
        rw [Created, and_iff_right (hcreating.mpr hc), reply?_eq_some, hfront, hs]
        simp
      simp [Verdict.adopts, hcreated, hd]
    · refine ⟨hw.congr fun p => ?_, minds_of_ended (.inr ⟨e, hfront.trans hs⟩)⟩
      have hcreated : ¬ a'.Created link name := fun hcreated => by
        have hreply := reply?_eq_some.mp hcreated.2
        rw [hfront, hs] at hreply
        cases hreply
      simp [hcreated, hd]
  have hcreated : ¬ a'.Created link name := fun hcreated => hc (hcreating.mp hcreated.1)
  by_cases hd : a.Deleting link name
  · have hgone := h.deleting hd
    rw [hf] at hgone
    rcases (hgone.2 flow w).ended with ⟨outcome, hs, hw⟩ | ⟨e, hs, hw⟩
    · refine ⟨hw.congr fun p => ?_, minds_of_ended (.inl ⟨outcome, hfront.trans hs⟩)⟩
      have hdeleted : a'.Deleted link name ↔ outcome = .ok (.result (.flag true)) := by
        rw [Deleted, and_iff_right (hdeleting.mpr hd), reply?_eq_some, hfront, hs]
        simp
      simp [Verdict.drops, hcreated, hdeleted]
    · refine ⟨hw.congr fun p => ?_, minds_of_ended (.inr ⟨e, hfront.trans hs⟩)⟩
      have hdeleted : ¬ a'.Deleted link name := fun hdeleted => by
        have hreply := reply?_eq_some.mp hdeleted.2
        rw [hfront, hs] at hreply
        cases hreply
      simp [hcreated, hdeleted]
  · have hdeleted : ¬ a'.Deleted link name := fun hdeleted => hd (hdeleting.mp hdeleted.1)
    have hsteady := h.other hc hd
    rw [hf] at hsteady
    obtain ⟨hw, hmakes⟩ := Step.makes_settle (R := Steady link name) .refl
      (fun h h' => h.trans h') (hsteady.2 flow w)
    refine ⟨hw.congr fun p => by simp [hcreated, hdeleted], fun hc' => ?_, fun hd' => ?_,
      fun _ _ => hfront ▸ hmakes⟩
    · exact (hc (hcreating.mp hc')).elim
    · exact (hd (hdeleting.mp hd')).elim

/-- Nothing becomes of the name when an errand is abandoned. -/
theorem Minds.abandoned {a : Errand E} {r : Request} {release : World E → World E}
    {resume : Flow Value → Evaluation E Reply} (h : a.Minds link name)
    (hf : a.front = .waiting r release resume) (w : World E) :
    Steady link name w (release w) := by
  by_cases hc : a.Creating link name
  · have hdone := h.creating hc
    rw [hf] at hdone
    exact hdone.1 w
  by_cases hd : a.Deleting link name
  · have hgone := h.deleting hd
    rw [hf] at hgone
    exact hgone.1 w
  · have hsteady := h.other hc hd
    rw [hf] at hsteady
    exact hsteady.1 w

variable [Embedding E]

/-- A new errand minds every name, and nothing has become of the name yet. -/
theorem minds_start (link : LinkId) (name : String) (realm : RealmId) (op : ValueOperation)
    (w : World E) : Steady link name w ((op.step realm).settle w).2 ∧
      Minds link name ⟨⟨op, ((op.step realm).settle w).1⟩, op.creates w⟩ := by
  by_cases hc : Creating link name (⟨⟨op, ((op.step realm).settle w).1⟩, op.creates w⟩ : Errand E)
  · obtain ⟨hw, hf⟩ := ValueOperation.decides_creating realm hc.2 hc.1
    exact ⟨hw, fun _ => hf, fun hd => (hc.not_deleting hd).elim, fun hn => (hn hc).elim⟩
  by_cases hd : op.deleting? = some (.link link, name)
  · obtain ⟨hw, hf⟩ := ValueOperation.decides_deleting realm (w := w) hd
    exact ⟨hw, fun h => (hc h).elim, fun _ => hf, fun _ hn => (hn hd).elim⟩
  · have hsteady : (op.step realm : Evaluation E Reply).Makes (Steady link name) w :=
      ValueOperation.steady_step realm
        (fun hw => Bool.eq_false_iff.mpr fun hcreates => hc ⟨hcreates, hw⟩) hd
    obtain ⟨hw, hf⟩ := Step.makes_settle (R := Steady link name) .refl (fun h h' => h.trans h')
      hsteady
    exact ⟨hw, fun h => (hc h).elim, fun h => (hd h).elim, fun _ _ => hf⟩

end Errand

/-! ## Scenes -/

namespace Scene

/-- A scene on which nothing was started yet. -/
def idle (w : World E) : Scene E := ⟨w, []⟩

/-- The errand that an event answers, as it comes out. -/
def answered? (s : Scene E) : Occurrence E → Option (Errand E)
  | .script (.answer index flow) =>
    match s.errands[index]? with
    | some ⟨⟨op, .waiting _ _ resume⟩, creates⟩ =>
      some ⟨⟨op, ((resume flow).settle s.world).1⟩, creates⟩
    | _ => none
  | _ => none

section

variable (link : LinkId) (name : String)

/-- With the event a write is done that set out to create the property through the link. -/
def Creates (s : Scene E) (e : Occurrence E) : Prop :=
  ∃ a ∈ s.answered? e, a.Created link name

/-- With the event a delete through the link that waited for the host comes out with `true`. -/
def Deletes (s : Scene E) (e : Occurrence E) : Prop :=
  ∃ a ∈ s.answered? e, a.Deleted link name

/-- Every errand minds the name. -/
def Minds (s : Scene E) : Prop := ∀ a ∈ s.errands, a.Minds link name

end

instance (s : Scene E) (e : Occurrence E) : Decidable (s.Creates link name e) :=
  decidable_of_iff ((s.answered? e).any fun a => decide (a.Created link name)) (by
    simp [Creates, Option.any_eq_true])

instance (s : Scene E) (e : Occurrence E) : Decidable (s.Deletes link name e) :=
  decidable_of_iff ((s.answered? e).any fun a => decide (a.Deleted link name)) (by
    simp [Deletes, Option.any_eq_true])

theorem minds_idle (w : World E) : (idle w).Minds link name := fun a ha => by cases ha

/-- An event that answers nothing is steady. -/
theorem recalls_of_steady {s : Scene E} {e : Occurrence E} (ha : s.answered? e = none)
    {w' : World E} (h : Steady link name s.world w') :
    Recalls link name (fun p => (p ∨ s.Creates link name e) ∧ ¬ s.Deletes link name e)
      s.world w' :=
  h.congr fun p => by simp [Creates, Deletes, ha]

variable [Embedding E]

/-- The errand that an event starts or answers, as it comes out. -/
def moved? (s : Scene E) : Occurrence E → Option (Errand E)
  | .script (.start realm op) =>
    some ⟨⟨op, ((op.step realm).settle s.world).1⟩, op.creates s.world⟩
  | e => s.answered? e

/-- With the event a delete through the link comes out with `true`, at once or behind a
    checkpoint. -/
def CompletesDelete (link : LinkId) (name : String) (s : Scene E) (e : Occurrence E) : Prop :=
  ∃ a ∈ s.moved? e, a.Deleted link name

instance (s : Scene E) (e : Occurrence E) : Decidable (s.CompletesDelete link name e) :=
  decidable_of_iff ((s.moved? e).any fun a => decide (a.Deleted link name)) (by
    simp [CompletesDelete, Option.any_eq_true])

/-- What an event does. -/
def advance (s : Scene E) : Occurrence E → Scene E
  | .script (.start realm op) =>
    let (front, w) := (op.step realm).settle s.world
    ⟨w, s.errands ++ [⟨⟨op, front⟩, op.creates s.world⟩]⟩
  | .script (.answer index flow) =>
    match s.errands[index]? with
    | some ⟨⟨op, .waiting _ _ resume⟩, creates⟩ =>
      let (front, w) := (resume flow).settle s.world
      ⟨w, s.errands.set index ⟨⟨op, front⟩, creates⟩⟩
    | _ => s
  | .script (.abandon index) =>
    match s.errands[index]? with
    | some ⟨⟨_, .waiting _ release _⟩, _⟩ => ⟨release s.world, s.errands.eraseIdx index⟩
    | _ => s
  | .script (.chore c) => ⟨(c.perform s.world).2, s.errands⟩
  | .wrapper e => ⟨e.apply s.world, s.errands⟩
  | .host change => ⟨s.world.modifyEmbedding change, s.errands⟩

/-- The events of a list one after the other. -/
def run (s : Scene E) (events : List (Occurrence E)) : Scene E := events.foldl advance s

/-- None of the events of a run does what `happens` says. -/
def Never (happens : Scene E → Occurrence E → Prop) : Scene E → List (Occurrence E) → Prop
  | _, [] => True
  | s, e :: rest => ¬ happens s e ∧ Never happens (s.advance e) rest

instance decidableNever (happens : Scene E → Occurrence E → Prop)
    [∀ s e, Decidable (happens s e)] :
    ∀ (s : Scene E) (events : List (Occurrence E)), Decidable (s.Never happens events)
  | _, [] => isTrue trivial
  | s, e :: rest =>
    have := decidableNever happens (s.advance e) rest
    inferInstanceAs (Decidable (_ ∧ _))

variable {s : Scene E}

/-! ## One event -/

/-- What an event does to the name is said by the errand that it answers, and all errands go on
    minding the name. -/
theorem recalls_advance (hs : s.Minds link name) (e : Occurrence E) :
    Recalls link name (fun p => (p ∨ s.Creates link name e) ∧ ¬ s.Deletes link name e)
        s.world (s.advance e).world ∧ (s.advance e).Minds link name := by
  cases e with
  | wrapper e => exact ⟨recalls_of_steady rfl (World.steady_apply s.world e), hs⟩
  | host change => exact ⟨recalls_of_steady rfl (Steady.of_eq rfl rfl), hs⟩
  | script e =>
    cases e with
    | chore ch =>
      exact ⟨recalls_of_steady rfl (World.steady_of_changes (ch.changes_perform s.world)), hs⟩
    | start realm op =>
      obtain ⟨hw, hnew⟩ := Errand.minds_start link name realm op s.world
      refine ⟨recalls_of_steady rfl hw, fun a ha => ?_⟩
      rcases List.mem_append.mp ha with ha | ha
      · exact hs a ha
      · exact List.mem_singleton.mp ha ▸ hnew
    | answer index flow =>
      simp only [advance]
      split
      · next op r release resume creates ha =>
        have hanswered : s.answered? (.script (.answer index flow)) =
            some ⟨⟨op, ((resume flow).settle s.world).1⟩, creates⟩ := by
          simp only [answered?, ha]
        obtain ⟨hw, hnew⟩ := (hs _ (List.mem_of_getElem? ha)).answered rfl flow s.world rfl
        refine ⟨hw.congr fun p => by simp [Creates, Deletes, hanswered], fun a hmem => ?_⟩
        rcases List.mem_or_eq_of_mem_set hmem with hmem | rfl
        · exact hs a hmem
        · exact hnew
      · next hnone =>
        refine ⟨recalls_of_steady ?_ (.refl s.world), hs⟩
        simp only [answered?]
    | abandon index =>
      simp only [advance]
      split
      · next op r release resume creates ha =>
        have hw := (hs _ (List.mem_of_getElem? ha)).abandoned rfl s.world
        exact ⟨recalls_of_steady rfl hw, fun a hmem => hs a (List.mem_of_mem_eraseIdx hmem)⟩
      · exact ⟨recalls_of_steady rfl (.refl s.world), hs⟩

/-! ## Runs -/

theorem recalls_run (hs : s.Minds link name) (events : List (Occurrence E)) :
    (∃ f, Recalls link name f s.world (s.run events).world) ∧
      (s.run events).Minds link name := by
  induction events generalizing s with
  | nil => exact ⟨⟨_, Steady.refl s.world⟩, hs⟩
  | cons e rest ih =>
    obtain ⟨hw, hnext⟩ := recalls_advance hs e
    obtain ⟨⟨f, hf⟩, hend⟩ := ih hnext
    exact ⟨⟨_, hw.trans hf⟩, hend⟩

/-- A name that the link remembers it goes on remembering, unless it is deleted through the link. -/
theorem run_remembers (hs : s.Minds link name) {events : List (Occurrence E)}
    (h : s.Never (Deletes link name) events) :
    ∃ f : Prop → Prop, (∀ p, p → f p) ∧ Recalls link name f s.world (s.run events).world := by
  induction events generalizing s with
  | nil => exact ⟨_, fun _ hp => hp, Steady.refl s.world⟩
  | cons e rest ih =>
    obtain ⟨hw, hnext⟩ := recalls_advance hs e
    obtain ⟨f, hf, hrest⟩ := ih hnext h.2
    exact ⟨_, fun p hp => hf _ ⟨.inl hp, h.1⟩, hw.trans hrest⟩

/-- A name that the link does not remember it does not come to remember, unless it is created
    through the link. -/
theorem run_forgets (hs : s.Minds link name) {events : List (Occurrence E)}
    (h : s.Never (Creates link name) events) :
    ∃ f : Prop → Prop, (∀ p, f p → p) ∧ Recalls link name f s.world (s.run events).world := by
  induction events generalizing s with
  | nil => exact ⟨_, fun _ hp => hp, Steady.refl s.world⟩
  | cons e rest ih =>
    obtain ⟨hw, hnext⟩ := recalls_advance hs e
    obtain ⟨f, hf, hrest⟩ := ih hnext h.2
    exact ⟨_, fun p hp => (hf _ hp).1.resolve_right h.1, hw.trans hrest⟩

end Scene

end ScriptSandbox
