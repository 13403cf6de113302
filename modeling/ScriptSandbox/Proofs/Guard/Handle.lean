import ScriptSandbox.Proofs.Guard.Reaching

/-
  Handles and direct operations.

  A handle keeps the access that its link granted when it was taken, and the link is asked again
  when the handle is used. So a handle adds refusals and nothing else: whatever has changed since,
  its operation is the direct one, as a step, or it refuses (`PropertyUse.step_through`). In the
  state where a handle was just taken, the link would refuse most of what the handle refuses. The
  one exception is a change to an existing property that may be written and not read, which the
  handle withholds (`handle_within_link`).

  A refusal is thrown in a realm: that of the link for the direct operation, and the one at hand for
  a handle. Where these are the same the two refusals are the same.
-/

namespace ScriptSandbox

/-! ## Steps that agree in a state -/

namespace Step

variable {σ α : Type}

/-- Nothing tells the steps apart when they are run in the state: they come to the same front and
    leave the same state there, and so every run makes the same requests and has the same end. -/
structure AgreeIn (w : σ) (s t : Step σ α) : Prop where
  settle : s.settle w = t.settle w
  run : ∀ fuel limits handler,
    Driver.runWithin fuel limits handler s w = Driver.runWithin fuel limits handler t w
  requests : ∀ fuel limits handler,
    Driver.requestsWithin fuel limits handler s w = Driver.requestsWithin fuel limits handler t w

theorem runWithin_of_settle_eq {s t : Step σ α} {w : σ} (h : s.settle w = t.settle w) (fuel : Nat)
    (limits : Limits σ) (handler : Handler σ) :
    Driver.runWithin fuel limits handler s w = Driver.runWithin fuel limits handler t w := by
  have hmove : Driver.move limits 0 (.main s) w = Driver.move limits 0 (.main t) w := by
    rw [Driver.move, Driver.move, h]
  rw [Driver.runWithin, Driver.runWithin, Driver.work_eq, hmove, ← Driver.work_eq]

theorem agreeIn_of_settle_eq {s t : Step σ α} {w : σ} (h : s.settle w = t.settle w) :
    AgreeIn w s t where
  settle := h
  run := runWithin_of_settle_eq h
  requests fuel limits handler := by
    have hrecorded : s.recorded.settle (w, []) = t.recorded.settle (w, []) := by
      rw [settle_recorded, settle_recorded, h]
    rw [Driver.requestsWithin, Driver.requestsWithin, runWithin_of_settle_eq hrecorded]

end Step

variable {E α β : Type} [Embedding E]

/-! ## Refusals -/

namespace Evaluation

/-- The step ends at once with the type error of a failure, thrown in a realm, and leaves the host
    alone. -/
structure Refuses (s : Evaluation E α) (realm : RealmId) (f : Failure) (w : World E) : Prop where
  ends : s.settle w = (.finished (.error (w.typeError realm f.message).1),
    (w.typeError realm f.message).2)
  threw : (s.settle w).1.Threw
  calm : w.Calm (s.settle w).2

theorem refuses_of_settle_eq {s : Evaluation E α} {realm : RealmId} {f : Failure} {w : World E}
    (h : s.settle w = (fail realm f : Evaluation E α).settle w) : s.Refuses realm f w where
  ends := h
  threw := by
    rw [h]
    exact threw_fail realm f w
  calm := by
    rw [h]
    exact World.calm_scriptError realm _ _ w

theorem refuses_bind {s : Evaluation E α} {realm : RealmId} {f : Failure} {w : World E}
    (h : s.settle w = (fail realm f : Evaluation E α).settle w) (k : α → Evaluation E β) :
    Refuses (s >>= k) realm f w := by
  apply refuses_of_settle_eq
  rw [Step.bind_eq_andThen, Step.settle_andThen, h]
  rfl

theorem refuses_fail_bind (realm : RealmId) (f : Failure) (k : α → Evaluation E β) (w : World E) :
    Refuses (fail realm f >>= k) realm f w :=
  refuses_bind rfl k

end Evaluation

open Evaluation

/-! ## Uses of a property -/

/-- What a script does with a property, directly or through a handle. -/
inductive PropertyUse where
  | read
  | write (value : Value)
  | delete
deriving DecidableEq

namespace PropertyUse

def direct (base : Value) (name : String) : PropertyUse → ValueOperation
  | .read => .member base name
  | .write value => .put base name value
  | .delete => .delete base name

def through (r : Reference) : PropertyUse → ValueOperation
  | .read => .get r
  | .write value => .set r value
  | .delete => .remove r

/-- How the use of a protected property fails. -/
def refusal (name : String) : PropertyUse → Failure
  | .read => .protectedRead name
  | .write _ => .protectedWrite name
  | .delete => .protectedDelete name

/-- Whether a link allows it on an existing property. -/
def allowed (w : World E) (l : Link) (name : String) : PropertyUse → Bool
  | .read => w.allowsRead l name
  | .write _ | .delete => w.allowsWrite l name

/-- Whether a handle lets it through. -/
def Admitted (access : Access) : PropertyUse → Prop
  | .read | .delete => access ≠ .sealed
  | .write _ => access = .allowed

/-- What a handle refuses although the link allows it: a change to an existing property that may be
    written and not read. -/
def Withheld (w : World E) (l : Link) (name : String) (u : PropertyUse) : Prop :=
  u ≠ .read ∧ w.hasProperty l.native name = true ∧ w.allowsRead l name = false ∧
    w.allowsWrite l name = true

variable {u : PropertyUse} {r : Reference} {w : World E} {id : LinkId} {l : Link} {name : String}

/-- What a handle lets through is the direct operation. -/
theorem step_through_of_admitted (h : u.Admitted r.access) (realm : RealmId) :
    ((u.through r).step realm : Evaluation E Reply) = (u.direct r.base r.name).step realm := by
  cases u with
  | read => simp only [through, direct, ValueOperation.step, Reference.get, if_neg h]
  | write value =>
    have hset : (r.set value realm : Evaluation E Unit) = r.base.put r.name value realm :=
      if_neg (not_not_intro h)
    simp only [through, direct, ValueOperation.step, hset]
  | delete => simp only [through, direct, ValueOperation.step, Reference.delete, if_neg h]

theorem refuses_through (h : ¬ u.Admitted r.access) (realm : RealmId) (w : World E) :
    Refuses ((u.through r).step realm) realm (u.refusal r.name) w := by
  cases u with
  | read =>
    simp only [through, ValueOperation.step, Reference.get, if_pos (not_not.mp h)]
    exact refuses_fail_bind ..
  | write value =>
    have hset : (r.set value realm : Evaluation E Unit) = fail realm (.protectedWrite r.name) :=
      if_pos h
    simp only [through, ValueOperation.step, hset]
    exact refuses_fail_bind ..
  | delete =>
    simp only [through, ValueOperation.step, Reference.delete, if_pos (not_not.mp h)]
    exact refuses_fail_bind ..

/-- A use of a handle is the direct operation, or it refuses whatever the state is. -/
theorem step_through (u : PropertyUse) (r : Reference) (realm : RealmId) :
    ((u.through r).step realm : Evaluation E Reply) = (u.direct r.base r.name).step realm ∨
      ∀ w : World E, Refuses ((u.through r).step realm) realm (u.refusal r.name) w := by
  by_cases h : u.Admitted r.access
  · exact .inl (step_through_of_admitted h realm)
  · exact .inr (refuses_through h realm)

/-! ## Uses of a link -/

/-- What a link does not allow on an existing property it refuses in its own realm. -/
theorem refuses_direct (hl : w.links[id]? = some l) (hhas : w.hasProperty l.native name = true)
    (hdenied : u.allowed w l name = false) (realm : RealmId) :
    Refuses ((u.direct (.link id) name).step realm) l.realm (u.refusal name) w := by
  cases u with
  | read =>
    have hread : ¬ w.allowsRead l name = true := Bool.eq_false_iff.mp hdenied
    refine refuses_bind ?_ _
    rw [Link.settle_member hl, if_pos hhas, if_neg hread, refusal]
  | write value =>
    have hboth : (w.hasProperty l.native name && !w.allowsWrite l name) = true := by
      simpa [allowed, hhas] using hdenied
    refine refuses_bind ?_ _
    rw [Link.settle_put hl, if_pos hboth, refusal]
  | delete =>
    have hwrite : ¬ w.allowsWrite l name = true := Bool.eq_false_iff.mp hdenied
    refine refuses_bind ?_ _
    rw [Link.settle_delete hl, if_pos hhas, if_neg hwrite, refusal]

/-- What a link allows on an existing property waits in front of the host, a write provided that its
    value has a host form. -/
theorem waits_direct (hl : w.links[id]? = some l) (hhas : w.hasProperty l.native name = true)
    (hallowed : u.allowed w l name = true)
    (hvalue : ∀ value, u = .write value → (w.toHost value).1.isSome = true) (realm : RealmId) :
    (((u.direct (.link id) name).step realm : Evaluation E Reply).settle w).1.Waits := by
  cases u with
  | read => exact Step.waits_map.mpr ((Link.waits_member hl name realm).mpr ⟨hhas, hallowed⟩)
  | write value =>
    have hwaits := Link.waits_put hl name (hvalue value rfl) realm
    exact Step.waits_map.mpr (hwaits.mpr fun _ => hallowed)
  | delete => exact Step.waits_map.mpr ((Link.waits_delete hl name realm).mpr ⟨hhas, hallowed⟩)

theorem Withheld.not_admitted (h : u.Withheld w l name) : ¬ u.Admitted (w.linkAccess l name) := by
  obtain ⟨hu, hhas, hread, -⟩ := h
  have hsealed : w.linkAccess l name = .sealed := by simp [World.linkAccess, hhas, hread]
  rw [hsealed]
  cases u with
  | read => exact (hu rfl).elim
  | write value => rintro ⟨⟩
  | delete => exact fun hadmitted => hadmitted rfl

/-- What a handle that was just taken does not let through, the link refuses too, unless the handle
    withholds it. -/
theorem denied_of_not_admitted (h : ¬ u.Admitted (w.linkAccess l name))
    (hwithheld : ¬ u.Withheld w l name) :
    w.hasProperty l.native name = true ∧ u.allowed w l name = false := by
  unfold World.linkAccess at h
  split at h
  · exact absurd (by cases u <;> simp [Admitted]) h
  · next hhas =>
    have hhas : w.hasProperty l.native name = true := by simpa using hhas
    refine ⟨hhas, ?_⟩
    split at h
    · next hread =>
      have hread : w.allowsRead l name = false := by simpa using hread
      cases u with
      | read => exact hread
      | write value =>
        exact Bool.eq_false_iff.mpr fun hwrite => hwithheld ⟨nofun, hhas, hread, hwrite⟩
      | delete =>
        exact Bool.eq_false_iff.mpr fun hwrite => hwithheld ⟨nofun, hhas, hread, hwrite⟩
    · split at h
      · next hwrite =>
        have hwrite : w.allowsWrite l name = false := by simpa using hwrite
        cases u with
        | read => exact absurd nofun h
        | write value => exact hwrite
        | delete => exact hwrite
      · exact absurd (by cases u <;> simp [Admitted]) h

end PropertyUse

/-! ## Handles on links -/

open PropertyUse

/-- A handle on a property of a link, which was taken in one state and is used in another. Its use
    is the use of the link itself, as a step, or it refuses at once, whatever has changed between.
    Used in the state in which it was taken, it refuses what it withholds, which the link would have
    taken to the host. In all else it agrees with the link, except that where both refuse the link
    throws in its own realm and the handle in the realm at hand. -/
theorem handle_within_link (taken : World E) (id : LinkId) (name : String) (u : PropertyUse)
    (realm : RealmId) :
    let handle : Evaluation E Reply :=
      (u.through (taken.reference (.link id) name)).step realm
    let direct : Evaluation E Reply := (u.direct (.link id) name).step realm
    (handle = direct ∨ ∀ w, Refuses handle realm (u.refusal name) w) ∧
    ∀ l, taken.links[id]? = some l →
      (u.Withheld taken l name →
        Refuses handle realm (u.refusal name) taken ∧
          ((∀ value, u = .write value → (taken.toHost value).1.isSome = true) →
            (direct.settle taken).1.Waits)) ∧
      (¬ u.Withheld taken l name →
        (realm = l.realm → Step.AgreeIn taken handle direct) ∧
          (handle = direct ∨
            Refuses handle realm (u.refusal name) taken ∧
              Refuses direct l.realm (u.refusal name) taken)) := by
  intro handle direct
  refine ⟨u.step_through (taken.reference (.link id) name) realm, fun l hl => ?_⟩
  have haccess : (taken.reference (.link id) name).access = taken.linkAccess l name := by
    simp only [World.reference, hl, Option.map_some, Option.getD_some]
  have hrefuses (h : ¬ u.Admitted (taken.linkAccess l name)) :
      Refuses handle realm (u.refusal name) taken :=
    refuses_through (haccess ▸ h) realm taken
  refine ⟨fun hwithheld => ⟨hrefuses hwithheld.not_admitted, fun hvalue => ?_⟩,
    fun hwithheld => ?_⟩
  · obtain ⟨hu, hhas, -, hwrite⟩ := hwithheld
    have hallowed : u.allowed taken l name = true := by
      cases u with
      | read => exact (hu rfl).elim
      | write value => exact hwrite
      | delete => exact hwrite
    exact waits_direct hl hhas hallowed hvalue realm
  · by_cases hadmitted : u.Admitted (taken.linkAccess l name)
    · have hsame : handle = direct := step_through_of_admitted (haccess ▸ hadmitted) realm
      exact ⟨fun _ => Step.agreeIn_of_settle_eq (by rw [hsame]), .inl hsame⟩
    · obtain ⟨hhas, hdenied⟩ := denied_of_not_admitted hadmitted hwithheld
      have hdirect : Refuses direct l.realm (u.refusal name) taken :=
        refuses_direct hl hhas hdenied realm
      have hhandle := hrefuses hadmitted
      refine ⟨fun hrealm => Step.agreeIn_of_settle_eq ?_, .inr ⟨hhandle, hdirect⟩⟩
      rw [hhandle.ends, hdirect.ends, hrealm]

namespace Session

/-- A handle on a slot that can be written and not read refuses the write that the link takes to the
    host. A read fails through both alike. -/
theorem handle_within_link_dropbox :
    let l : Link := ⟨0, .hosted 0, ∅, true⟩
    let r := dropboxWorld.reference (.link 0) "slot"
    dropboxWorld.links[0]? = some l ∧
      Withheld dropboxWorld l "slot" (.write .null) ∧
      Refuses ((ValueOperation.set r .null).step 0) 0 (.protectedWrite "slot") dropboxWorld ∧
      (((ValueOperation.put (.link 0) "slot" .null).step 0 : Evaluation Session Reply).settle
        dropboxWorld).1.Waits ∧
      Step.AgreeIn dropboxWorld ((ValueOperation.get r).step 0)
        ((ValueOperation.member (.link 0) "slot").step 0) := by
  intro l r
  have hl : dropboxWorld.links[0]? = some l := rfl
  have hwithheld : Withheld dropboxWorld l "slot" (.write .null) :=
    ⟨nofun, by decide, by decide, by decide⟩
  have hwrite := (handle_within_link dropboxWorld 0 "slot" (.write .null) 0).2 l hl
  have hread := (handle_within_link dropboxWorld 0 "slot" .read 0).2 l hl
  obtain ⟨hrefuses, hwaits⟩ := hwrite.1 hwithheld
  refine ⟨hl, hwithheld, hrefuses, hwaits ?_, (hread.2 fun h => h.1 rfl).1 rfl⟩
  rintro _ ⟨⟩
  rfl

end Session

end ScriptSandbox
