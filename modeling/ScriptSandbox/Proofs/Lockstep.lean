import ScriptSandbox.Proofs.Interleaving
import ScriptSandbox.Proofs.Step.Parallel

/-
  Two stages side by side.

  Two stages agree when they have the same activities, each with fronts that cannot be told apart,
  and when the script got hold of the same values. An event that agrees with itself in both worlds
  keeps that or loses the pair of worlds (`Stage.agree_advance`), and so a run that loses them after
  none of its events keeps it, under a guard that decides the same on both sides
  (`Stage.agree_run`). What a script sees of its activities is then the same
  (`Stage.Agree.sights_eq`).
-/

namespace ScriptSandbox

variable {E : Type} {c : Contract (World E × World E)} {lost : World E × World E → Prop}

/-- What shows of an operation: how it came out, or what it waits for. -/
inductive Sight where
  | outcome (flow : Flow Reply)
  | fault (f : Fault)
  | request (r : Request)

namespace Sight

/-- The reply that shows, if the operation came to a result. -/
def reply? : Sight → Option Reply
  | .outcome (.ok r) => some r
  | _ => none

/-- The request that shows, if the operation waits. -/
def request? : Sight → Option Request
  | .request r => some r
  | _ => none

end Sight

def Step.Front.sight : Step.Front (World E) Reply → Sight
  | .finished flow => .outcome flow
  | .faulted f => .fault f
  | .waiting r _ _ => .request r

/-- What shows of all operations so far. -/
def Stage.sights (s : Stage E) : List (ValueOperation × Sight) :=
  s.activities.map fun a => (a.operation, a.front.sight)

/-- What comes out at a front shows. -/
theorem Step.Front.values_eq_of_sight_eq {f g : Front (World E) Reply} (h : f.sight = g.sight) :
    f.values = g.values := by
  cases f <;> cases g <;> cases h
  · rfl
  · rfl
  · rename_i r _ _ _ _
    cases r <;> rfl

theorem Step.Front.Agree.sight_eq {f g : Front (World E) Reply} {w : World E × World E}
    (h : f.Agree c lost g w) : f.sight = g.sight := by
  cases f <;> cases g <;> first | exact h.elim | skip
  · exact congrArg Sight.outcome h
  · exact congrArg Sight.fault h
  · exact congrArg Sight.request h.1

theorem Step.Front.Agree.values_eq {f g : Front (World E) Reply} {w : World E × World E}
    (h : f.Agree c lost g w) : f.values = g.values := values_eq_of_sight_eq h.sight_eq

/-- Two activities are at the same point of the same operation. -/
structure Activity.Agree (c : Contract (World E × World E)) (lost : World E × World E → Prop)
    (w : World E × World E) (a b : Activity E) : Prop where
  operation : a.operation = b.operation
  front : a.front.Agree c lost b.front w

theorem Activity.Agree.later {a b : Activity E} {w w' : World E × World E}
    (he : c.evolves w w') (h : a.Agree c lost w b) : a.Agree c lost w' b :=
  ⟨h.operation, h.front.later he⟩

/-- Two stages with the same activities and the same values. -/
structure Stage.Agree (c : Contract (World E × World E)) (lost : World E × World E → Prop)
    (s t : Stage E) : Prop where
  length : s.activities.length = t.activities.length
  activities : ∀ {i : Nat} {a b : Activity E}, s.activities[i]? = some a →
    t.activities[i]? = some b → a.Agree c lost (s.world, t.world) b
  known : s.known = t.known

namespace Stage

theorem agree_idle (w w' : World E) (known : List Value) :
    (idle w known).Agree c lost (idle w' known) :=
  ⟨rfl, fun h => (by cases h), rfl⟩

/-- The activity of the other stage at the same place. -/
theorem Agree.counterpart {s t : Stage E} (h : s.Agree c lost t) (i : Nat) :
    (s.activities[i]? = none ∧ t.activities[i]? = none) ∨
      ∃ a b, s.activities[i]? = some a ∧ t.activities[i]? = some b ∧
        a.Agree c lost (s.world, t.world) b := by
  have hlen := h.length
  by_cases hi : i < s.activities.length
  · have hs := List.getElem?_eq_getElem hi
    have ht := List.getElem?_eq_getElem (hlen ▸ hi : i < t.activities.length)
    exact .inr ⟨_, _, hs, ht, h.activities hs ht⟩
  · rw [List.getElem?_eq_none_iff, List.getElem?_eq_none_iff]
    exact .inl ⟨by omega, by omega⟩

theorem Agree.sights_eq {s t : Stage E} (h : s.Agree c lost t) : s.sights = t.sights := by
  refine List.ext_getElem? ?_
  intro i
  simp only [sights, List.getElem?_map]
  rcases h.counterpart i with ⟨hs, ht⟩ | ⟨a, b, hs, ht, ha⟩
  · rw [hs, ht]
  · rw [hs, ht, Option.map_some, Option.map_some, ha.operation, ha.front.sight_eq]

end Stage

variable [Embedding E]

/-- The event does the same on both sides, unless the worlds get lost. -/
def Event.Agree (c : Contract (World E × World E)) (lost : World E × World E → Prop)
    (w : World E × World E) : Event → Prop
  | .start realm op => Step.Agree c lost (op.step realm) (op.step realm) w
  | .answer _ _ | .abandon _ => True
  | .chore ch => lost ((ch.perform w.1).2, (ch.perform w.2).2) ∨
      (ch.perform w.1).1 = (ch.perform w.2).1 ∧
        c.evolves w ((ch.perform w.1).2, (ch.perform w.2).2)

namespace Stage

theorem agree_advance {s t : Stage E} {e : Event} (h : s.Agree c lost t)
    (he : e.Agree c lost (s.world, t.world)) :
    lost ((s.advance e).world, (t.advance e).world) ∨
      c.evolves (s.world, t.world) ((s.advance e).world, (t.advance e).world) ∧
        (s.advance e).Agree c lost (t.advance e) := by
  have hlen := h.length
  cases e with
  | start realm op =>
    rcases Step.agree_settle he with hl | ⟨hw, hf⟩
    · exact .inl hl
    refine .inr ⟨hw, ?_, fun {i a b} ha hb => ?_, ?_⟩
    · simp only [advance, List.length_append, hlen]
      rfl
    · simp only [advance, List.getElem?_append, hlen] at ha hb
      split at ha
      · next hi =>
        rw [if_pos hi] at hb
        exact (h.activities ha hb).later hw
      · next hi =>
        rw [if_neg hi] at hb
        rw [List.getElem?_singleton] at ha hb
        split at ha
        · next hz =>
          rw [if_pos hz] at hb
          cases ha
          cases hb
          exact ⟨rfl, hf⟩
        · cases ha
    · simp only [advance, hf.values_eq, h.known]
  | answer index flow =>
    rcases h.counterpart index with ⟨hs, ht⟩ | ⟨⟨op, f⟩, ⟨op', g⟩, hs, ht, ha⟩
    · simp only [advance, hs, ht]
      exact .inr ⟨c.refl _, h⟩
    cases ha.operation
    cases f <;> cases g <;> first | exact ha.front.elim | simp only [advance, hs, ht]
    · exact .inr ⟨c.refl _, h⟩
    · exact .inr ⟨c.refl _, h⟩
    · rcases Step.agree_settle (ha.front.2.2 flow _ (c.refl _)) with hl | ⟨hw, hf⟩
      · exact .inl hl
      refine .inr ⟨hw, ?_, fun {i a b} ha hb => ?_, ?_⟩
      · simp only [List.length_set, hlen]
      · simp only [List.getElem?_set, hlen] at ha hb
        split at ha
        · next hi =>
          rw [if_pos hi] at hb
          split at ha
          · next hlt =>
            rw [if_pos hlt] at hb
            cases ha
            cases hb
            exact ⟨rfl, hf⟩
          · cases ha
        · next hi =>
          rw [if_neg hi] at hb
          exact (h.activities ha hb).later hw
      · simp only [hf.values_eq, h.known]
  | abandon index =>
    rcases h.counterpart index with ⟨hs, ht⟩ | ⟨⟨op, f⟩, ⟨op', g⟩, hs, ht, ha⟩
    · simp only [advance, hs, ht]
      exact .inr ⟨c.refl _, h⟩
    cases ha.operation
    cases f <;> cases g <;> first | exact ha.front.elim | simp only [advance, hs, ht]
    · exact .inr ⟨c.refl _, h⟩
    · exact .inr ⟨c.refl _, h⟩
    · have hw := ha.front.2.1 _ (c.refl _)
      refine .inr ⟨hw, ?_, fun {i a b} ha hb => ?_, h.known⟩
      · simp only [List.length_eraseIdx, hlen]
      · simp only [List.getElem?_eraseIdx] at ha hb
        split at ha <;> next hi =>
          simp only [hi, if_true, if_false] at hb
          exact (h.activities ha hb).later hw
  | chore ch =>
    rcases he with hl | ⟨hr, hw⟩
    · exact .inl hl
    refine .inr ⟨hw, hlen, fun ha hb => (h.activities ha hb).later hw, ?_⟩
    simp only [advance, hr, h.known]

/-- What every admitted event keeps of two stages that agree, a run keeps, if the guard decides the
    same on both sides and no event loses the worlds. -/
theorem agree_run {admits : Stage E → Event → Bool} {I : World E × World E → Prop}
    (later : ∀ {w w'}, c.evolves w w' → I w → I w')
    (same : ∀ {s t : Stage E} e, s.Agree c lost t → I (s.world, t.world) → admits s e = admits t e)
    (step : ∀ {s : Stage E} {w : World E} e, I (s.world, w) → admits s e = true →
      e.Agree c lost (s.world, w))
    {s t : Stage E} (h : s.Agree c lost t) (hi : I (s.world, t.world)) (events : List Event)
    (kept : ∀ past, past <+: events →
      ¬ lost ((s.run admits past).world, (t.run admits past).world)) :
    (s.run admits events).Agree c lost (t.run admits events) ∧
      I ((s.run admits events).world, (t.run admits events).world) := by
  induction events generalizing s t with
  | nil => exact ⟨h, hi⟩
  | cons e rest ih =>
    have hrun (s : Stage E) (past : List Event) : s.run admits (e :: past) =
        (if admits s e then s.advance e else s).run admits past := rfl
    have hkept (past : List Event) (hp : past <+: rest) := kept (e :: past) (by simpa using hp)
    simp only [hrun, ← same e h hi] at hkept ⊢
    split
    · next ha =>
      simp only [if_pos ha] at hkept
      obtain ⟨hw, hs⟩ := (agree_advance h (step e hi ha)).resolve_left (hkept [] List.nil_prefix)
      exact ih hs (later hw hi) hkept
    · next ha =>
      simp only [if_neg ha] at hkept
      exact ih h hi hkept

end Stage

end ScriptSandbox
