import ScriptSandbox.Proofs.Operation.Scripting
import ScriptSandbox.Proofs.Guard.Errand
import ScriptSandbox.Proofs.Step.Debt

/-
  Joins give their marks back.

  A join owes the mark of its array until it ends or is abandoned. Nothing else that an operation
  does touches a mark, so every operation owes just the marks of the joins that it is in
  (`ValueOperation.owes_step`), and so does whatever scripts make of operations (`Scripted.owes`).
  Hence no mark is left over when no operation is in progress, whatever was started, answered and
  abandoned before, and none when the driver ends or stops a run (`marks_given_back`).
-/

namespace ScriptSandbox

variable {E α β : Type} {start w : World E} {id : ArrayId}

open World (Bears SameMarks)

/-! ## Operations -/

/-- A step that touches no mark owes none. -/
theorem Step.Makes.owes_marks {s : Evaluation E α} (h : s.Makes SameMarks w) :
    s.Owes (Bears start id) 0 w := h.owes fun hw hb => hb.sameMarks hw

theorem World.Bears.hold {total : Nat} (h : Bears start id total w) (things : List Thing) :
    Bears start id total (w.hold things) := h.sameMarks (.of_arrays_eq rfl)

theorem World.Bears.letGo {total : Nat} (h : Bears start id total w) (things : List Thing) :
    Bears start id total (w.letGo things) := h.sameMarks (.of_arrays_eq rfl)

section

variable [Embedding E]

/-- A step that marks no array owes none. -/
theorem Step.Makes.owes_unmarked {allows : World.Allowance} (hm : ¬ allows.marks)
    {s : Evaluation E α} (h : s.Touches allows w) : s.Owes (Bears start id) 0 w :=
  (h.mono fun hc => hc.sameMarks hm).owes_marks

/-- In the course of a coercion only joins owe something, and they pay. -/
theorem Evaluation.discipline_owes (start : World E) (id : ArrayId) :
    Discipline fun _ s w => s.Owes (Bears start id) 0 w where
  plain h := h.owes_unmarked fun hf => hf
  inspect h := h
  andThen h hf := h.andThen hf
  holding {_ things _ _} h :=
    ⟨0, fun _ hb => hb.hold things, (h _).releasing_free fun _ _ hb => hb.letGo things⟩
  holdingAtFirst {_ things _ _} h :=
    ⟨0, fun _ hb => hb.hold things, (h _).untilRequest fun _ _ hb => hb.letGo things⟩
  joining {_ joined _ _} hw h := by
    refine ⟨World.marksOf id joined + 0, fun others hb => ?_, ?_⟩
    · rw [Nat.zero_add] at hb
      exact hb.mark hw
    · exact (h _).releasing fun _ _ hb => hb.unmark

theorem ValueOperation.owes_step (op : ValueOperation) (realm : RealmId) :
    (op.step realm : Evaluation E Reply).Owes (Bears start id) 0 w := by
  have hP := (Evaluation.discipline_owes (E := E) start id).coercing
  by_cases hc : op.converts = true
  · cases op with
    | toPrimitive v hint => exact hP.map hP.toPrimitive _
    | unary op v => exact hP.map (hP.unary op v) _
    | binary op a b => exact hP.map (hP.binaryOperation op a b) _
    | _ => cases hc
  · have htouches : (op.step realm : Evaluation E Reply).Touches
        ⟨fun _ _ => True, fun _ _ => True, False⟩ w :=
      touches_step realm (fun _ _ _ _ => trivial) (fun _ _ _ => trivial) hc
    exact htouches.owes_unmarked fun hf => hf

/-- A script owes no more than its operations. -/
theorem Scripted.owes {s : Evaluation E α} (h : Scripted s w) : s.Owes (Bears start id) 0 w := by
  induction h with
  | done flow w => rfl
  | fault e w => rfl
  | inspect _ ih => exact ih
  | modify hc _ ih => exact ⟨0, fun _ hb => hb.sameMarks hc, ih⟩
  | ask r hr _ ih =>
    refine ⟨fun others w' hb => ?_, ih⟩
    rw [Nat.zero_add] at hb
    exact hb.sameMarks (hr w')
  | operation realm op w => exact op.owes_step realm
  | andThen _ _ ih ihf => exact ih.andThen ihf
  | onFlow _ _ ih ihf => exact ih.onFlow ihf
  | releasing hu _ ih => exact ih.releasing_free fun _ w' hb => hb.sameMarks (hu w')
  | untilRequest hu _ ih => exact ih.untilRequest fun _ w' hb => hb.sameMarks (hu w')

/-! ## Scenes -/

theorem World.sameMarks_apply (w : World E) (event : WrapperEvent) :
    SameMarks w (event.apply w) := by
  have hchanges {w' : World E} (h : World.Changes .nothing w w') : SameMarks w w' :=
    h.sameMarks fun hf => hf
  unfold WrapperEvent.apply
  split
  · cases event with
    | wrap k r n =>
      cases k with
      | bridge => exact hchanges (.single (.bridge r n w))
      | link => exact hchanges (.single (.link r n w))
    | link r value => exact hchanges (World.changes_link r value w)
    | fromHost realm? value => exact hchanges (World.changes_fromHostIn realm? value w)
    | collect hand => exact hchanges (.single (.collect hand w))
    | _ => exact .of_arrays_eq rfl
  · exact .refl w

namespace Scene

/-- No operation is in progress. -/
def AtRest (s : Scene E) : Prop :=
  ∀ a ∈ s.errands, ∀ r release resume, a.front ≠ .waiting r release resume

/-- The errands that wait owe the marks that are there now but were not at the start. -/
def Accounts (start : World E) (id : ArrayId) (s : Scene E) : Prop :=
  ∃ total, OwesAll (fun a : Errand E => a.front.Owes (Bears start id)) s.errands total ∧
    Bears start id total s.world

theorem Accounts.advance {s : Scene E} (h : s.Accounts start id) (e : Occurrence E) :
    (s.advance e).Accounts start id := by
  obtain ⟨total, herrands, hworld⟩ := h
  cases e with
  | wrapper e => exact ⟨total, herrands, hworld.sameMarks (World.sameMarks_apply s.world e)⟩
  | host change => exact ⟨total, herrands, hworld.sameMarks (.of_arrays_eq rfl)⟩
  | script e =>
    cases e with
    | chore ch =>
      have hchanges : World.Changes .nothing s.world (ch.perform s.world).2 :=
        ch.changes_perform s.world
      exact ⟨total, herrands, hworld.sameMarks (hchanges.sameMarks fun hf => hf)⟩
    | start realm op =>
      obtain ⟨owed, hchange, hfront⟩ := (op.owes_step realm).settle (w := s.world)
      rw [← Nat.zero_add total] at hworld
      exact ⟨owed + total, herrands.append_singleton hfront, hchange total hworld⟩
    | answer index flow =>
      simp only [Scene.advance]
      split
      · next op r release resume creates ha =>
        obtain ⟨owed, others, hwaits, rfl, -, hset⟩ := herrands.pick ha
        obtain ⟨owed', hchange, hfront⟩ := (hwaits.2 flow s.world).settle
        exact ⟨owed' + others, hset _ owed' hfront, hchange others hworld⟩
      · exact ⟨total, herrands, hworld⟩
    | abandon index =>
      simp only [Scene.advance]
      split
      · next op r release resume creates ha =>
        obtain ⟨owed, others, hwaits, rfl, herase, -⟩ := herrands.pick ha
        exact ⟨others, herase, hwaits.1 others s.world hworld⟩
      · exact ⟨total, herrands, hworld⟩

theorem accounts_run {s : Scene E} (h : s.Accounts start id) (events : List (Occurrence E)) :
    (s.run events).Accounts start id := by
  induction events generalizing s with
  | nil => exact h
  | cons e rest ih => exact ih (h.advance e)

omit [Embedding E] in
/-- On a scene at rest the mark is what it was at the start. -/
theorem Accounts.joining_eq {s : Scene E} (h : s.Accounts start id) (hs : s.AtRest) :
    (s.world.array id).joining = (start.array id).joining := by
  obtain ⟨total, herrands, hworld⟩ := h
  have hzero : total = 0 := herrands.eq_zero fun a ha owed howes => by
    cases hf : a.front with
    | finished flow =>
      rw [hf] at howes
      exact howes
    | faulted e =>
      rw [hf] at howes
      exact howes
    | waiting r release resume => exact absurd hf (hs a ha r release resume)
  exact (hzero ▸ hworld).joining_eq

end Scene

/-- Whenever no operation is in progress, every array has the mark that it had at the start: after
    operations were started, answered and abandoned in any order, and when the driver has ended or
    stopped a run, whatever operations the handler performs for its requests. -/
theorem marks_given_back (start : World E) :
    (∀ events : List (Occurrence E), ((Scene.idle start).run events).AtRest →
      ∀ id, (((Scene.idle start).run events).world.array id).joining =
        (start.array id).joining) ∧
    ∀ {α : Type} (s : Evaluation E α) (handler : Handler (World E)), Scripted s start →
      (∀ r w, Scripted (handler r) w) → ∀ fuel limits,
        (Driver.runWithin fuel limits handler s start).1.Orderly →
          ∀ id, ((Driver.runWithin fuel limits handler s start).2.array id).joining =
            (start.array id).joining := by
  refine ⟨fun events hrest id => ?_, fun s handler hs hh fuel limits hout id => ?_⟩
  · have hidle : (Scene.idle start).Accounts start id := ⟨0, rfl, World.bears_start start id⟩
    exact (Scene.accounts_run hidle events).joining_eq hrest
  · have hbears : Bears start id 0 (Driver.runWithin fuel limits handler s start).2 :=
      Driver.runWithin_owes hs.owes (fun r w => (hh r w).owes) (World.bears_start start id) fuel hout
    exact hbears.joining_eq

end

/-- A world with an array that holds itself, between another array and an object. The text of the
    object is what a script function gives, and that yields and then converts the array again. -/
def Session.rosterWorld : World Session :=
  { World.empty (ofRecords #[]) with
    objects := #[⟨⟨[("toString", .object 1)]⟩, none, none⟩, ⟨∅, none, some ⟨0, none⟩⟩]
    arrays := #[⟨#[.object 0], false⟩, ⟨#[.array 0, .array 1, .object 0], false⟩]
    realms := #[.fresh .allow]
    embedding := { ofRecords #[] with
      slots := ⟨[("roster", .array 1)]⟩
      realms := ⟨[("main", 0)]⟩
      functions := [(0, [.yields (.performs "main" (.toPrimitive (.slot "roster") .string))])] } }

/-- While the script function runs, both arrays are marked. They are not when the conversion has
    been abandoned there, nor when the budget is used up inside the function. -/
theorem Session.marks_given_back_roster :
    let convert : Occurrence Session := .script (.start 0 (.toPrimitive (.array 1) .string))
    let suspended := (Scene.idle rosterWorld).run [convert]
    let dropped := (Scene.idle rosterWorld).run [convert, .script (.abandon 0)]
    let stopped := Driver.runWithin 1 ⟨some 1, fun _ => false⟩ Session.respond
      ((ValueOperation.toPrimitive (.array 1) .string).step 0) rosterWorld
    ((suspended.world.array 0).joining = true ∧ (suspended.world.array 1).joining = true) ∧
      (∀ id, (dropped.world.array id).joining = (rosterWorld.array id).joining) ∧
      stopped.1 = .stopped (.budgetExhausted 1) ∧
      ∀ id, (stopped.2.array id).joining = (rosterWorld.array id).joining := by
  intro convert suspended dropped stopped
  have hrest : dropped.AtRest := by
    intro a ha
    have herrands : dropped.errands = [] := by rfl
    rw [herrands] at ha
    cases ha
  have hstopped : stopped.1 = .stopped (.budgetExhausted 1) :=
    congrArg Prod.fst (Driver.Runs.runWithin_eq
      (.asked (by rfl) (.ended (by rfl))) (Nat.le_refl 1)).1
  have horderly : stopped.1.Orderly := by
    rw [hstopped]
    exact trivial
  exact ⟨by constructor <;> decide +kernel, (marks_given_back rosterWorld).1 _ hrest, hstopped,
    (marks_given_back rosterWorld).2 _ Session.respond (.operation _ _ _) Session.scripted_respond 1
      _ horderly⟩

end ScriptSandbox
