import ScriptSandbox.Proofs.Operation.Prototype

/-
  Reads along a prototype chain.

  A property is read from the first object on the chain that owns it (`FirstOwner`), so writing or
  deleting it on one object shows through every object for which that one is the first owner and
  through no other (`inherited_reads`). A write changes no chain, so both reads are walks along the
  same chain that ask every object but one the same (`Walks.unchanged`). What a deleted property
  leaves is what the chain gives beyond its owner; that the owner is not met there a second time is
  what the chains' being acyclic is needed for (`Walks.removed`).
-/

namespace ScriptSandbox

namespace World

variable {E β : Type} {w w' : World E} {x o p : ObjectId}

/-! ## The first to answer -/

/-- On a walk from `x` outward, `o` is the first object that gives an answer. -/
inductive FirstToAnswer (w : World E) (answer : ObjectId → Option β) : ObjectId → ObjectId → Prop
  | self {x : ObjectId} (h : (answer x).isSome) : FirstToAnswer w answer x x
  | outward {x parent o : ObjectId} (h : answer x = none) (hp : w.parent? x = some parent)
      (rest : FirstToAnswer w answer parent o) : FirstToAnswer w answer x o

section

variable {answer answer' : ObjectId → Option β} {result result' : Option β}

namespace FirstToAnswer

theorem answers (h : w.FirstToAnswer answer x o) : (answer o).isSome := by
  induction h with
  | self h => exact h
  | outward _ _ _ ih => exact ih

theorem descends (h : w.FirstToAnswer answer x o) : w.Descends x o := by
  induction h with
  | self _ => exact .refl
  | outward _ hp _ ih => exact .head hp ih

theorem walks (h : w.FirstToAnswer answer x o) : w.Walks answer x (answer o) := by
  induction h with
  | self h =>
    obtain ⟨b, hb⟩ := Option.isSome_iff_exists.mp h
    exact hb ▸ .answered hb
  | outward h hp _ ih => exact .outward h hp ih

/-- One object is the first to answer. -/
theorem unique (h : w.FirstToAnswer answer x o) (h' : w.FirstToAnswer answer x p) : o = p := by
  induction h with
  | self h =>
    cases h' with
    | self _ => rfl
    | outward hnone => simp [hnone] at h
  | outward hnone hp _ ih =>
    cases h' with
    | self h' => simp [hnone] at h'
    | outward _ hp' rest' =>
      cases hp.symm.trans hp'
      exact ih rest'

/-- An object that was the first to answer still is when it goes on answering and nobody else
    answers otherwise. -/
theorem of_answers (h : w.FirstToAnswer answer x o) (ho : (answer' o).isSome)
    (hothers : ∀ p, p ≠ o → answer' p = answer p) : w.FirstToAnswer answer' x o := by
  induction h with
  | self _ => exact .self ho
  | @outward x parent o h hp rest ih =>
    have hne : x ≠ o := by
      rintro rfl
      have hsome := rest.answers
      rw [h] at hsome
      cases hsome
    exact .outward ((hothers x hne).trans h) hp (ih ho hothers)

end FirstToAnswer

/-- A walk has one result. -/
theorem Walks.unique (h : w.Walks answer x result) (h' : w.Walks answer x result') :
    result = result' := by
  induction h with
  | answered h =>
    cases h' with
    | answered h' => exact h.symm.trans h'
    | ended h' | outward h' => cases h.symm.trans h'
  | ended h hp =>
    cases h' with
    | answered h' => cases h.symm.trans h'
    | ended => rfl
    | outward _ hp' => cases hp.symm.trans hp'
  | outward h hp _ ih =>
    cases h' with
    | answered h' => cases h.symm.trans h'
    | ended _ hp' => cases hp.symm.trans hp'
    | outward _ hp' rest' =>
      cases hp.symm.trans hp'
      exact ih rest'

/-- The answer of one object does not matter where it is the first to answer neither before nor
    after. -/
theorem Walks.unchanged (h : w.Walks answer x result)
    (hothers : ∀ p, p ≠ o → answer' p = answer p) (hbefore : ¬ w.FirstToAnswer answer x o)
    (hafter : ¬ w.FirstToAnswer answer' x o) : w.Walks answer' x result := by
  have silent {x : ObjectId} (hnone : answer x = none) (hafter : ¬ w.FirstToAnswer answer' x o) :
      answer' x = none := by
    by_cases hx : x = o
    · subst hx
      exact Option.not_isSome_iff_eq_none.mp fun hsome => hafter (.self hsome)
    · exact (hothers x hx).trans hnone
  induction h with
  | @answered x b h =>
    have hx : x ≠ o := by
      rintro rfl
      exact hbefore (.self (Option.isSome_iff_exists.mpr ⟨b, h⟩))
    exact .answered ((hothers x hx).trans h)
  | ended h hp => exact .ended (silent h hafter) hp
  | outward h hp _ ih =>
    have hnone := silent h hafter
    exact .outward hnone hp
      (ih (fun hfirst => hbefore (.outward h hp hfirst))
        fun hfirst => hafter (.outward hnone hp hfirst))

/-- When the first object to answer falls silent, a walk goes on as it does from its parent. -/
theorem Walks.removed (hacyclic : w.Acyclic) (hfirst : w.FirstToAnswer answer x o)
    (hnone : answer' o = none) (hothers : ∀ p, p ≠ o → answer' p = answer p)
    (hend : w.parent? o = none → result = none)
    (hrest : ∀ parent, w.parent? o = some parent → w.Walks answer parent result) :
    w.Walks answer' x result := by
  have not_answering (y : ObjectId) : ¬ w.FirstToAnswer answer' y o := by
    intro h
    have hsome := h.answers
    rw [hnone] at hsome
    cases hsome
  induction hfirst with
  | @self o h =>
    cases hp : w.parent? o with
    | none => exact hend hp ▸ .ended hnone hp
    | some parent =>
      have hbeyond : ¬ w.FirstToAnswer answer parent o := fun hback =>
        hacyclic o (.head' hp hback.descends)
      exact .outward hnone hp ((hrest parent hp).unchanged hothers hbeyond (not_answering parent))
  | @outward x parent o h hp rest ih =>
    have hne : x ≠ o := by
      rintro rfl
      have hsome := rest.answers
      rw [h] at hsome
      cases hsome
    exact .outward ((hothers x hne).trans h) hp (ih hnone hothers hend hrest not_answering)

end

/-! ## Owners -/

/-- The value of a property that the object has itself. -/
def own? (w : World E) (name : String) (o : ObjectId) : Option Value :=
  (w.object o).properties.find? name

/-- On the chain of `x`, with `x` itself, `o` is the first object that has the property itself. -/
abbrev FirstOwner (w : World E) (name : String) (x o : ObjectId) : Prop :=
  w.FirstToAnswer (w.own? name) x o

/-- What the chain gives for a name beyond an object. -/
def beyond (w : World E) (o : ObjectId) (name : String) : Value :=
  ((w.parent? o).bind (w.lookup? · name)).getD .undefined

theorem WellLinked.walks_lookup? (h : w.WellLinked) (hx : x < w.objects.size) (name : String) :
    w.Walks (w.own? name) x (w.lookup? x name) := h.walks_chain hx _

/-- A world in which one object has other properties. -/
structure Reshaped (w w' : World E) (o : ObjectId) : Prop where
  parents : w'.parent? = w.parent?
  size : w'.objects.size = w.objects.size
  others : ∀ name p, p ≠ o → w'.own? name p = w.own? name p

namespace Reshaped

variable {name : String}

theorem chainWithin (h : Reshaped w w' o) (steps : Nat) (x : ObjectId) :
    w'.chainWithin steps x = w.chainWithin steps x := by
  induction steps generalizing x with
  | zero => rfl
  | succ steps ih => simp only [World.chainWithin, h.parents, ih]

theorem walks_lookup? (h : Reshaped w w' o) (hw : w.WellLinked) (hx : x < w.objects.size)
    (name : String) : w.Walks (w'.own? name) x (w'.lookup? x name) := by
  have hchain : w'.chain x = w.chain x := by
    rw [chain, chain, h.size, h.chainWithin]
  rw [lookup?, hchain]
  exact hw.walks_chain hx (w'.own? name)

theorem firstToAnswer_iff (h : Reshaped w w' o) {answer : ObjectId → Option β} {y : ObjectId} :
    w'.FirstToAnswer answer x y ↔ w.FirstToAnswer answer x y := by
  have along {v v' : World E} (hp : v'.parent? = v.parent?)
      (hfirst : v.FirstToAnswer answer x y) : v'.FirstToAnswer answer x y := by
    induction hfirst with
    | self hself => exact .self hself
    | outward hnone hparent _ ih => exact .outward hnone (hp ▸ hparent) ih
  exact ⟨along h.parents.symm, along h.parents⟩

/-- Reading goes past an object that is not the first owner, neither before nor after. -/
theorem lookup?_eq (h : Reshaped w w' o) (hw : w.WellLinked) (hx : x < w.objects.size)
    (hbefore : ¬ w.FirstOwner name x o) (hafter : ¬ w'.FirstOwner name x o) :
    w'.lookup? x name = w.lookup? x name :=
  (h.walks_lookup? hw hx name).unique ((hw.walks_lookup? hx name).unchanged (h.others name) hbefore
    (h.firstToAnswer_iff.not.mp hafter))

/-- A property that the object has as before is read as before. -/
theorem lookup?_of_own (h : Reshaped w w' o) (hw : w.WellLinked) (hx : x < w.objects.size)
    (hown : w'.own? name o = w.own? name o) : w'.lookup? x name = w.lookup? x name := by
  have hsame : w'.own? name = w.own? name := by
    funext p
    by_cases hp : p = o
    · exact hp ▸ hown
    · exact h.others name p hp
  have hwalks := h.walks_lookup? hw hx name
  rw [hsame] at hwalks
  exact hwalks.unique (hw.walks_lookup? hx name)

/-- The value that the object has for the name now is read where the object is the first owner now;
    all other reads are as they were. -/
theorem lookup?_of_written (h : Reshaped w w' o) (hw : w.WellLinked) (hx : x < w.objects.size)
    (read : String) {v : Value} (hself : w'.own? name o = some v)
    (hnames : ∀ m, m ≠ name → w'.own? m o = w.own? m o) :
    (read = name ∧ w'.FirstOwner name x o → w'.lookup? x read = some v) ∧
      (¬ (read = name ∧ w'.FirstOwner name x o) → w'.lookup? x read = w.lookup? x read) := by
  refine ⟨?_, fun hother => ?_⟩
  · rintro ⟨rfl, hfirst⟩
    exact ((h.walks_lookup? hw hx read).unique (h.firstToAnswer_iff.mp hfirst).walks).trans hself
  · by_cases hname : read = name
    · subst hname
      have hsome : (w'.own? read o).isSome := by rw [hself, Option.isSome_some]
      have hafter : ¬ w'.FirstOwner read x o := fun hfirst => hother ⟨rfl, hfirst⟩
      -- the object has the property now, so it would be the first owner now had it been before
      refine h.lookup?_eq hw hx (fun hbefore => hafter ?_) hafter
      exact h.firstToAnswer_iff.mpr (hbefore.of_answers hsome (h.others read))
    · exact h.lookup?_of_own hw hx (hnames read hname)

/-- The name is read beyond the object where the object was the first owner and has lost the
    property; all other reads are as they were. -/
theorem lookup?_of_removed (h : Reshaped w w' o) (hw : w.WellLinked) (hx : x < w.objects.size)
    (read : String) (hself : w'.own? name o = none)
    (hnames : ∀ m, m ≠ name → w'.own? m o = w.own? m o) :
    (read = name ∧ w.FirstOwner name x o →
      w'.lookup? x read = (w.parent? o).bind (w.lookup? · name)) ∧
      (¬ (read = name ∧ w.FirstOwner name x o) → w'.lookup? x read = w.lookup? x read) := by
  refine ⟨?_, fun hother => ?_⟩
  · rintro ⟨rfl, hfirst⟩
    refine (h.walks_lookup? hw hx read).unique
      (Walks.removed hw.acyclic hfirst hself (h.others read) (fun hp => by rw [hp]; rfl) ?_)
    intro parent hp
    rw [hp]
    exact hw.walks_lookup? (hw.inherits_lt hp) read
  · by_cases hname : read = name
    · subst hname
      refine h.lookup?_eq hw hx (fun hbefore => hother ⟨rfl, hbefore⟩) fun hafter => ?_
      have hsome := hafter.answers
      rw [hself] at hsome
      cases hsome
    · exact h.lookup?_of_own hw hx (hnames read hname)

end Reshaped

/-! ## Writing and deleting -/

section

variable (f : Table Value → Table Value)

/-- Changes to the properties of an object leave all prototypes and all other objects alone. -/
theorem reshaped_modifyObject (o : ObjectId) (w : World E) :
    Reshaped w (w.modifyObject o fun ob => { ob with properties := f ob.properties }) o where
  parents := by
    funext x
    obtain h | ⟨-, -, h⟩ := object_modifyObject
      (fun ob => { ob with properties := f ob.properties }) o x w
    · simp only [parent?, h]
    · simp only [parent?, h]
  size := Array.size_modify
  others name p hp := by
    obtain h | ⟨he, -⟩ := object_modifyObject
      (fun ob => { ob with properties := f ob.properties }) o p w
    · rw [own?, own?, h]
    · exact absurd he hp

theorem own?_modifyObject {o : ObjectId} {w : World E} (ho : o < w.objects.size) (name : String) :
    (w.modifyObject o fun ob => { ob with properties := f ob.properties }).own? name o =
      (f (w.object o).properties).find? name := by
  have hself : (w.modifyObject o fun ob => { ob with properties := f ob.properties }).object o =
      { w.object o with properties := f (w.object o).properties } := by
    simp [object, modifyObject, Array.getElem?_modify, Array.getElem?_eq_getElem ho]
  rw [own?, hself]

end

variable [Embedding E]

/-- A member is read in one world as it is in another one. -/
def ReadsAlike (w w' : World E) (realm : RealmId) (v : Value) (name : String) : Prop :=
  ∃ u, w.ReadsMember realm v name u ∧ w'.ReadsMember realm v name u

theorem readsMember_of_lookup? {realm : RealmId} {name : String} {found : Option Value}
    (h : w.lookup? x name = found) :
    w.ReadsMember realm (.object x) name (found.getD .undefined) := by
  subst h
  rfl

/-- In a heap that is built from the empty one, a property that is written on an object is read
    through the objects whose first owner that object now is, and all other reads stay as they
    were. A property that is deleted from an object changes the reads through the objects whose
    first owner it was: they give what the chain gives beyond it. -/
theorem inherited_reads (e : E) (events : List (ObjectEvent E)) (realm : RealmId)
    (o x : ObjectId) (name read : String) :
    let w := ObjectEvent.run (World.empty e) events
    w.HasObject (.object o) → w.HasObject (.object x) →
      (∀ v, ∃ w', ((Value.object o).put name v realm).settle w = (.finished (.ok ()), w') ∧
        (read = name ∧ w'.FirstOwner name x o → w'.ReadsMember realm (.object x) read v) ∧
        (¬ (read = name ∧ w'.FirstOwner name x o) →
          w.ReadsAlike w' realm (.object x) read)) ∧
      ∃ w', ((Value.object o).delete name realm).settle w = (.finished (.ok true), w') ∧
        (read = name ∧ w.FirstOwner name x o →
          w'.ReadsMember realm (.object x) read (w.beyond o name)) ∧
        (¬ (read = name ∧ w.FirstOwner name x o) →
          w.ReadsAlike w' realm (.object x) read) := by
  intro w ho hx
  have hw : w.WellLinked := ObjectEvent.wellLinked_run (wellLinked_empty e) events
  rw [hasObject_object] at ho hx
  -- the same lookup is the same read
  have same {w' : World E} (h : w'.lookup? x read = w.lookup? x read) :
      w.ReadsAlike w' realm (.object x) read :=
    ⟨_, readsMember_of_lookup? rfl, readsMember_of_lookup? h⟩
  refine ⟨fun v => ?_, ?_⟩
  · have hr := reshaped_modifyObject (·.insert name v) o w
    have howns := own?_modifyObject (·.insert name v) ho
    obtain ⟨hmet, hmissed⟩ := hr.lookup?_of_written hw hx read
      ((howns name).trans (Table.find?_insert_self _ _ _))
      fun m hm => (howns m).trans (Table.find?_insert_ne _ hm v)
    exact ⟨_, rfl, fun h => readsMember_of_lookup? (hmet h), fun h => same (hmissed h)⟩
  · have hr := reshaped_modifyObject (·.erase name) o w
    have howns := own?_modifyObject (·.erase name) ho
    obtain ⟨hmet, hmissed⟩ := hr.lookup?_of_removed hw hx read
      ((howns name).trans (Table.find?_erase_self _ _))
      fun m hm => (howns m).trans (Table.find?_erase_ne _ hm)
    exact ⟨_, rfl, fun h => readsMember_of_lookup? (hmet h), fun h => same (hmissed h)⟩

/-- Two objects that inherit, one by way of the other, from an object with a property that the one
    in between has as well. A write on the far one does not show through the last one; once the one
    in between has lost its own, the far one is read. -/
theorem inherited_reads_shadowed :
    let w := ObjectEvent.run (World.empty (Session.ofRecords #[]))
      [.create none, .create (some (.object 0)), .create (some (.object 1)),
        .put 0 "p" (.boolean false), .put 1 "p" (.boolean true)]
    w.ReadsMember 0 (.object 2) "p" (.boolean true) ∧
      (∃ w', ((Value.object 0).put "p" .null 0).settle w = (.finished (.ok ()), w') ∧
        w'.ReadsMember 0 (.object 2) "p" (.boolean true)) ∧
      ∃ w', ((Value.object 1).delete "p" 0).settle w = (.finished (.ok true), w') ∧
        w'.ReadsMember 0 (.object 2) "p" (.boolean false) := by
  intro w
  have hbefore : w.ReadsMember 0 (.object 2) "p" (.boolean true) :=
    readsMember_of_lookup? (show w.lookup? 2 "p" = some (.boolean true) by decide)
  have reads := inherited_reads (Session.ofRecords #[])
    [.create none, .create (some (.object 0)), .create (some (.object 1)),
      .put 0 "p" (.boolean false), .put 1 "p" (.boolean true)] 0
  obtain ⟨hput, -⟩ := reads 0 2 "p" "p" (by decide) (by decide)
  obtain ⟨-, w', hdelete, hbeyond, -⟩ := reads 1 2 "p" "p" (by decide) (by decide)
  refine ⟨hbefore, ?_, w', hdelete, ?_⟩
  · obtain ⟨w', hwrite, -, hsame⟩ := hput .null
    refine ⟨w', hwrite, ?_⟩
    have hother : ¬ ("p" = "p" ∧ w'.FirstOwner "p" 2 0) := by
      cases hwrite
      rintro ⟨-, hfirst⟩
      have hbetween : (0 : ObjectId) = 1 :=
        hfirst.unique (.outward (by decide) (by decide) (.self (by decide)))
      cases hbetween
    obtain ⟨u, hu, hu'⟩ := hsame hother
    cases hbefore.symm.trans hu
    exact hu'
  · exact hbeyond ⟨rfl, .outward (by decide) (by decide) (.self (by decide))⟩

end World

end ScriptSandbox
