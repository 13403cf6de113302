import ScriptSandbox.Proofs.Step.Guarantee
import ScriptSandbox.Proofs.Step.Run

/-
  Steps that pay back.

  What a computation takes from the state for a while, it owes. `bears total w` says of a state that
  all computations in it together owe `total`. A step that owes something (`Step.Owes`) changes the
  state and its debt alike, owes nothing once it has ended, and pays when it is abandoned at a
  request; what others owe is no concern of it. So wherever a run of the driver ends or is stopped,
  however many steps are suspended there, nothing is owed any more (`Driver.runWithin_owes`).
-/

namespace ScriptSandbox

/-- The debts of all members of a list make up a total. -/
def OwesAll {α : Type} (owes : α → Nat → Prop) : List α → Nat → Prop
  | [], total => total = 0
  | x :: rest, total => ∃ owed others, owes x owed ∧ OwesAll owes rest others ∧ total = owed + others

namespace OwesAll

variable {α : Type} {owes : α → Nat → Prop} {l : List α} {total owed : Nat} {x : α}

theorem append_singleton (h : OwesAll owes l total) (hx : owes x owed) :
    OwesAll owes (l ++ [x]) (owed + total) := by
  induction l generalizing total with
  | nil => exact ⟨owed, 0, hx, rfl, congrArg (owed + ·) h⟩
  | cons y rest ih =>
    obtain ⟨mine, others, hy, hrest, rfl⟩ := h
    exact ⟨mine, owed + others, hy, ih hrest, by omega⟩

/-- One member may be replaced or left out; the others owe what they owe. -/
theorem pick (h : OwesAll owes l total) {index : Nat} (hx : l[index]? = some x) :
    ∃ owed others, owes x owed ∧ total = owed + others ∧ OwesAll owes (l.eraseIdx index) others ∧
      ∀ y owed', owes y owed' → OwesAll owes (l.set index y) (owed' + others) := by
  induction l generalizing total index with
  | nil => cases hx
  | cons z rest ih =>
    obtain ⟨mine, others, hz, hrest, rfl⟩ := h
    cases index with
    | zero =>
      cases hx
      exact ⟨mine, others, hz, rfl, hrest, fun y owed' hy => ⟨owed', others, hy, hrest, rfl⟩⟩
    | succ index =>
      obtain ⟨owed, others', hx, rfl, herase, hset⟩ := ih hrest hx
      refine ⟨owed, mine + others', hx, by omega, ⟨mine, others', hz, herase, rfl⟩, ?_⟩
      intro y owed' hy
      exact ⟨mine, owed' + others', hz, hset y owed' hy, by omega⟩

theorem eq_zero (h : OwesAll owes l total) (hl : ∀ x ∈ l, ∀ owed, owes x owed → owed = 0) :
    total = 0 := by
  induction l generalizing total with
  | nil => exact h
  | cons x rest ih =>
    obtain ⟨owed, others, hx, hrest, rfl⟩ := h
    obtain ⟨hmine, hothers⟩ := List.forall_mem_cons.mp hl
    rw [hmine owed hx, ih hrest hothers]

end OwesAll

section

variable {σ α β : Type}

/-- The step owes `owed`, from `w` up to its first request and, behind each request, from whatever
    state it is resumed in. -/
def Step.Owes (bears : Nat → σ → Prop) : Step σ α → (owed : Nat) → σ → Prop
  | .done _, owed, _ | .fault _, owed, _ => owed = 0
  | .inspect next, owed, w => Owes bears (next w) owed w
  | .modify change next, owed, w =>
    ∃ owed', (∀ others, bears (owed + others) w → bears (owed' + others) (change w)) ∧
      Owes bears next owed' (change w)
  | .ask _ release resume, owed, _ =>
    (∀ others w', bears (owed + others) w' → bears others (release w')) ∧
      ∀ answer w', Owes bears (resume answer) owed w'

/-- A suspended step owes as much until it is released or resumed. -/
def Pending.Owes (bears : Nat → σ → Prop) (p : Pending σ α) (owed : Nat) : Prop :=
  (∀ others w, bears (owed + others) w → bears others (p.release w)) ∧
    ∀ answer w, (p.resume answer).Owes bears owed w

/-- What is owed at a front. -/
def Step.Front.Owes (bears : Nat → σ → Prop) : Step.Front σ α → (owed : Nat) → Prop
  | .finished _, owed | .faulted _, owed => owed = 0
  | .waiting _ release resume, owed => Pending.Owes bears ⟨release, resume⟩ owed

namespace Step

variable {bears : Nat → σ → Prop} {owed : Nat} {w : σ}

theorem Owes.settle {s : Step σ α} (h : s.Owes bears owed w) :
    ∃ owed', (∀ others, bears (owed + others) w → bears (owed' + others) (s.settle w).2) ∧
      (s.settle w).1.Owes bears owed' := by
  induction s generalizing owed w with
  | done flow => exact ⟨owed, fun _ hw => hw, h⟩
  | fault e => exact ⟨owed, fun _ hw => hw, h⟩
  | inspect next ih => exact ih w h
  | modify change next ih =>
    obtain ⟨mid, hchange, hnext⟩ := h
    obtain ⟨owed', hrest, hfront⟩ := ih hnext
    exact ⟨owed', fun others hw => hrest others (hchange others hw), hfront⟩
  | ask r release resume ih => exact ⟨owed, fun _ hw => hw, h⟩

/-! ## Rules -/

/-- Changes that no debt notices are free. -/
theorem Makes.owes {R : σ → σ → Prop} (hR : ∀ {u v total}, R u v → bears total u → bears total v)
    {s : Step σ α} (h : s.Makes R w) : s.Owes bears 0 w := by
  induction s generalizing w with
  | done flow => rfl
  | fault e => rfl
  | inspect next ih => exact ih w h
  | modify change next ih => exact ⟨0, fun _ hw => hR h.1 hw, ih h.2⟩
  | ask r release resume ih =>
    refine ⟨fun others w' hw => ?_, fun answer w' => ih answer (h.2 answer w')⟩
    rw [Nat.zero_add] at hw
    exact hR (h.1 w') hw

theorem Owes.andThen {s : Step σ α} {f : α → Step σ β} (h : s.Owes bears owed w)
    (hf : ∀ a w', (f a).Owes bears 0 w') : (s.andThen f).Owes bears owed w := by
  induction s generalizing owed w with
  | done flow =>
    cases h
    cases flow with
    | ok a => exact hf a w
    | error c => rfl
  | fault e => exact h
  | inspect next ih => exact ih w h
  | modify change next ih =>
    obtain ⟨owed', hchange, hnext⟩ := h
    exact ⟨owed', hchange, ih hnext⟩
  | ask r release resume ih => exact ⟨h.1, fun answer w' => ih answer (h.2 answer w')⟩

theorem Owes.onFlow {s : Step σ α} {f : Flow α → Step σ β} (h : s.Owes bears owed w)
    (hf : ∀ flow w', (f flow).Owes bears 0 w') : (s.onFlow f).Owes bears owed w := by
  induction s generalizing owed w with
  | done flow =>
    cases h
    exact hf flow w
  | fault e => exact h
  | inspect next ih => exact ih w h
  | modify change next ih =>
    obtain ⟨owed', hchange, hnext⟩ := h
    exact ⟨owed', hchange, ih hnext⟩
  | ask r release resume ih => exact ⟨h.1, fun answer w' => ih answer (h.2 answer w')⟩

/-- A step that undoes something owes that as well. -/
theorem Owes.releasing {undo : σ → σ} {taken : Nat}
    (hu : ∀ total w', bears (taken + total) w' → bears total (undo w')) {s : Step σ α}
    (h : s.Owes bears owed w) : (s.releasing undo).Owes bears (taken + owed) w := by
  have settled {w : σ} (others : Nat) (hw : bears (taken + 0 + others) w) :
      bears (0 + others) (undo w) := by
    rw [Nat.add_zero] at hw
    rw [Nat.zero_add]
    exact hu others w hw
  induction s generalizing owed w with
  | done flow =>
    cases h
    exact ⟨0, settled, rfl⟩
  | fault e =>
    cases h
    exact ⟨0, settled, rfl⟩
  | inspect next ih => exact ih w h
  | modify change next ih =>
    obtain ⟨owed', hchange, hnext⟩ := h
    refine ⟨taken + owed', fun others hw => ?_, ih hnext⟩
    rw [Nat.add_assoc, Nat.add_left_comm] at hw ⊢
    exact hchange _ hw
  | ask r release resume ih =>
    refine ⟨fun others w' hw => ?_, fun answer w' => ih answer (h.2 answer w')⟩
    rw [Nat.add_assoc, Nat.add_left_comm] at hw
    exact hu others _ (h.1 _ w' hw)

/-- What no debt notices may be undone by anyone. -/
theorem Owes.releasing_free {undo : σ → σ}
    (hu : ∀ total w', bears total w' → bears total (undo w')) {s : Step σ α}
    (h : s.Owes bears owed w) : (s.releasing undo).Owes bears owed w := by
  have hreleasing : (s.releasing undo).Owes bears (0 + owed) w := by
    refine h.releasing fun total w' hw => ?_
    rw [Nat.zero_add] at hw
    exact hu total w' hw
  rwa [Nat.zero_add] at hreleasing

/-- What is undone at the first stop is no debt. -/
theorem Owes.untilRequest {undo : σ → σ} (hu : ∀ total w', bears total w' → bears total (undo w'))
    {s : Step σ α} (h : s.Owes bears owed w) : (s.untilRequest undo).Owes bears owed w := by
  induction s generalizing owed w with
  | done flow => exact ⟨owed, fun _ hw => hu _ _ hw, h⟩
  | fault e => exact ⟨owed, fun _ hw => hu _ _ hw, h⟩
  | inspect next ih => exact ih w h
  | modify change next ih =>
    obtain ⟨owed', hchange, hnext⟩ := h
    exact ⟨owed', hchange, ih hnext⟩
  | ask r release resume ih => exact ⟨owed, fun _ hw => hu _ _ hw, h⟩

end Step

/-! ## Runs of the driver -/

/-- The run came to its end, or it was stopped in front of a request. -/
def Outcome.Orderly : Outcome α → Prop
  | .finished _ | .stopped _ => True
  | .faulted _ | .unfinished => False

namespace Driver

/-- What the suspended steps of a run owe. -/
def Owing (bears : Nat → σ → Prop) (stack : List (Pending σ Value)) (base : Pending σ α)
    (total : Nat) : Prop :=
  ∃ above bottom, OwesAll (Pending.Owes bears) stack above ∧ base.Owes bears bottom ∧
    total = above + bottom

/-- What a task owes. -/
def Task.Owes (bears : Nat → σ → Prop) : Task σ α → (total : Nat) → σ → Prop
  | .main s, total, w => s.Owes bears total w
  | .answering s stack base, total, w =>
    ∃ owed others, s.Owes bears owed w ∧ Owing bears stack base others ∧ total = owed + others

/-- A move keeps account of the debts; an orderly end leaves none. -/
def Move.Owes (bears : Nat → σ → Prop) : Move σ α → Prop
  | .ended outcome w => outcome.Orderly → bears 0 w
  | .resumed task w => ∃ total, task.Owes bears total w ∧ bears total w
  | .asked _ stack base w => ∃ total, Owing bears stack base total ∧ bears total w

variable {bears : Nat → σ → Prop} {limits : Limits σ} {handler : Handler σ} {total steps : Nat}
  {stack : List (Pending σ Value)} {base : Pending σ α} {task : Task σ α} {w : σ}

theorem Owing.abandon (h : Owing bears stack base total) (hw : bears total w) :
    bears 0 (abandon stack base w) := by
  obtain ⟨above, bottom, habove, hbase, rfl⟩ := h
  induction stack generalizing above w with
  | nil =>
    cases habove
    refine hbase.1 0 w ?_
    rwa [Nat.zero_add] at hw
  | cons p rest ih =>
    obtain ⟨owed, others, hp, hrest, rfl⟩ := habove
    rw [Nat.add_assoc] at hw
    exact ih others hrest (hp.1 _ w hw)

theorem Owing.unwound (h : Owing bears stack base total) (answer : Flow Value) (w : σ) :
    (unwound answer stack base).Owes bears total w := by
  obtain ⟨above, bottom, habove, hbase, rfl⟩ := h
  cases stack with
  | nil =>
    cases habove
    rw [Nat.zero_add]
    exact hbase.2 answer w
  | cons p rest =>
    obtain ⟨owed, others, hp, hrest, rfl⟩ := habove
    exact ⟨owed, others + bottom, hp.2 answer w, ⟨others, bottom, hrest, hbase, rfl⟩,
      Nat.add_assoc ..⟩

/-- The move at a request: all suspended steps pay, or go on owing. -/
theorem Owing.request (h : Owing bears stack base total) (hw : bears total w) (r : Request) :
    (Move.request limits steps r stack base w).Owes bears := by
  unfold Move.request
  split
  · exact fun _ => h.abandon hw
  · exact ⟨total, h, hw⟩

theorem Task.Owes.move (h : task.Owes bears total w) (hw : bears total w) (limits : Limits σ)
    (steps : Nat) : (move limits steps task w).Owes bears := by
  cases task with
  | main s =>
    obtain ⟨owed, hchange, hfront⟩ := Step.Owes.settle h
    have hbears : bears owed (s.settle w).2 := hchange 0 hw
    rw [Driver.move]
    cases hs : (s.settle w).1 with
    | finished flow =>
      rw [hs] at hfront
      cases hfront
      exact fun _ => hbears
    | faulted e => exact fun hout => hout.elim
    | waiting r release resume =>
      rw [hs] at hfront
      have howing : Owing bears [] ⟨release, resume⟩ owed :=
        ⟨0, owed, rfl, hfront, (Nat.zero_add owed).symm⟩
      exact howing.request hbears r
  | answering s stack base =>
    obtain ⟨mine, others, hmine, howing, rfl⟩ := h
    obtain ⟨owed, hchange, hfront⟩ := Step.Owes.settle hmine
    have hbears : bears (owed + others) (s.settle w).2 := hchange others hw
    rw [Driver.move]
    cases hs : (s.settle w).1 with
    | finished flow =>
      rw [hs] at hfront
      cases hfront
      rw [Nat.zero_add] at hbears
      exact ⟨others, howing.unwound flow _, hbears⟩
    | faulted e => exact fun hout => hout.elim
    | waiting r release resume =>
      rw [hs] at hfront
      obtain ⟨above, bottom, habove, hbase, rfl⟩ := howing
      have hstack : OwesAll (Pending.Owes bears) (⟨release, resume⟩ :: stack) (owed + above) :=
        ⟨owed, above, hfront, habove, rfl⟩
      exact Owing.request ⟨_, bottom, hstack, hbase, (Nat.add_assoc ..).symm⟩ hbears r

/-- A run with a handler that owes nothing to begin with leaves no debts when it ends or stops. -/
theorem work_owes (hh : ∀ r w, (handler r).Owes bears 0 w) (fuel : Nat)
    (h : task.Owes bears total w) (hw : bears total w) :
    (work limits handler fuel steps task w).1.Orderly →
      bears 0 (work limits handler fuel steps task w).2 := by
  induction fuel, steps, task, w using move_induct limits handler generalizing total with
  | step fuel steps task w hresumed hasked =>
    have hmove := h.move hw limits steps
    rw [work_eq]
    cases hm : move limits steps task w with
    | ended outcome w' =>
      rw [hm] at hmove
      exact hmove
    | resumed task' w' =>
      rw [hm] at hmove
      obtain ⟨total', htask, hw'⟩ := hmove
      exact hresumed task' w' hm htask hw'
    | asked r stack base w' =>
      rw [hm] at hmove
      obtain ⟨total', howing, hw'⟩ := hmove
      cases fuel with
      | zero => exact fun hout => hout.elim
      | succ fuel =>
        exact hasked r stack base w' hm fuel rfl
          ⟨0, total', hh r w', howing, (Nat.zero_add _).symm⟩ hw'

theorem runWithin_owes {s : Step σ α} (hs : s.Owes bears 0 w)
    (hh : ∀ r w, (handler r).Owes bears 0 w) (hw : bears 0 w) (fuel : Nat) :
    (runWithin fuel limits handler s w).1.Orderly →
      bears 0 (runWithin fuel limits handler s w).2 := by
  have htask : (Task.main s).Owes bears 0 w := hs
  exact work_owes hh fuel htask hw

end Driver

end

end ScriptSandbox
