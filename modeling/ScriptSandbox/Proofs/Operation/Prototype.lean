import Mathlib.Data.List.Nodup
import Mathlib.Data.List.Perm.Subperm
import ScriptSandbox.Session.Basic
import ScriptSandbox.Proofs.Capability.Sealing

/-
  Prototype chains.

  An object inherits from the script object that is its prototype. An object that is made with a
  prototype is not on the chain of that prototype yet, and an object that gets a new one is refused
  when it is; nothing else changes who inherits from whom. So no chain in a heap that is built from
  the empty one comes back to where it was (`prototypes_stay_acyclic`), and the two walks along a
  chain end: the one that looks a property up and the one that the refusal itself rests on. The
  chain of the model has as many objects as the heap at most; `Walks` tells a walk without that
  bound, and `walks_chain` says that nothing is cut off.
-/

namespace ScriptSandbox

namespace World

variable {E β : Type} {w w' : World E} {id o parent : ObjectId}

/-! ## Inheriting -/

/-- An object has another one as its prototype. -/
def Inherits (w : World E) (id parent : ObjectId) : Prop := w.parent? id = some parent

/-- An object is on the chain of another one. -/
abbrev Descends (w : World E) : ObjectId → ObjectId → Prop := Relation.ReflTransGen w.Inherits

/-- Following prototypes never returns to an object already seen. -/
def Acyclic (w : World E) : Prop := ∀ id, ¬ Relation.TransGen w.Inherits id id

/-- An object, if it is one, is in the heap. -/
def HasObject (w : World E) (v : Value) : Prop := ∀ id, v = .object id → id < w.objects.size

/-- The objects of a heap refer to objects of the heap only, and no chain of prototypes comes back
    to where it was. -/
structure WellLinked (w : World E) : Prop where
  closed : ∀ id, ∀ u ∈ (w.object id).parts, w.HasObject u
  acyclic : w.Acyclic

theorem parent?_eq_some_iff :
    w.parent? id = some parent ↔ (w.object id).prototype = some (.object parent) := by
  unfold parent?
  split
  · next p hp => rw [hp, Option.some_inj, Option.some_inj, Value.object.injEq]
  · next hn => exact ⟨nofun, fun h => absurd h (hn parent)⟩

theorem hasObject_object : w.HasObject (.object id) ↔ id < w.objects.size :=
  ⟨fun h => h id rfl, fun h _ hid => Value.object.inj hid ▸ h⟩

theorem HasObject.mono {v : Value} (h : w.HasObject v) (hs : w.objects.size ≤ w'.objects.size) :
    w'.HasObject v := fun id hid => Nat.lt_of_lt_of_le (h id hid) hs

theorem WellLinked.inherits_lt (h : w.WellLinked) (hi : w.Inherits id parent) :
    parent < w.objects.size := by
  have hpart : Value.object parent ∈ (w.object id).parts :=
    List.mem_append_right _ (Option.mem_toList.mpr (parent?_eq_some_iff.mp hi))
  exact h.closed id _ hpart parent rfl

theorem WellLinked.descends_lt (h : w.WellLinked) (hid : id < w.objects.size)
    (hd : w.Descends id o) : o < w.objects.size := by
  cases hd with
  | refl => exact hid
  | tail _ hlast => exact h.inherits_lt hlast

/-! ## Walking along a chain -/

/-- A walk from an object outward ends with the first answer that an object on the way gives, or
    without one where the chain does. -/
inductive Walks (w : World E) (answer : ObjectId → Option β) : ObjectId → Option β → Prop
  | answered {id : ObjectId} {b : β} (h : answer id = some b) : Walks w answer id (some b)
  | ended {id : ObjectId} (h : answer id = none) (hp : w.parent? id = none) : Walks w answer id none
  | outward {id parent : ObjectId} {result : Option β} (h : answer id = none)
      (hp : w.parent? id = some parent) (rest : Walks w answer parent result) :
      Walks w answer id result

/-- A walk without an answer has been everywhere. -/
theorem Walks.all_none {answer : ObjectId → Option β} {result : Option β}
    (h : w.Walks answer id result) (hr : result = none) (hd : w.Descends id o) :
    answer o = none := by
  induction h with
  | answered _ => cases hr
  | ended h hp =>
    rcases Relation.ReflTransGen.cases_head hd with rfl | ⟨parent, hi, -⟩
    · exact h
    · rw [Inherits, hp] at hi
      cases hi
  | outward h hp _ ih =>
    rcases Relation.ReflTransGen.cases_head hd with rfl | ⟨parent, hi, hrest⟩
    · exact h
    · cases hp.symm.trans hi
      exact ih hr hrest

theorem descends_of_mem_chainWithin {steps : Nat} (h : o ∈ w.chainWithin steps id) :
    w.Descends id o := by
  induction steps generalizing id with
  | zero => cases h
  | succ steps ih =>
    rcases List.mem_cons.mp h with rfl | h
    · exact .refl
    · split at h
      · next parent hp => exact .head hp (ih h)
      · cases h

theorem nodup_chainWithin (h : w.Acyclic) (steps : Nat) (id : ObjectId) :
    (w.chainWithin steps id).Nodup := by
  induction steps generalizing id with
  | zero => exact .nil
  | succ steps ih =>
    rw [chainWithin]
    split
    · next parent hp =>
      refine List.nodup_cons.mpr ⟨fun hmem => ?_, ih parent⟩
      exact h id (.head' hp (descends_of_mem_chainWithin hmem))
    · exact List.nodup_singleton id

theorem WellLinked.length_chainWithin_le (h : w.WellLinked) (hid : id < w.objects.size)
    (steps : Nat) : (w.chainWithin steps id).length ≤ w.objects.size := by
  have hsub : w.chainWithin steps id ⊆ List.range w.objects.size := fun o ho =>
    List.mem_range.mpr (h.descends_lt hid (descends_of_mem_chainWithin ho))
  have hle := (List.subperm_of_subset (nodup_chainWithin h.acyclic steps id) hsub).length_le
  rwa [List.length_range] at hle

/-- A chain that one more object does not make longer is complete. -/
theorem walks_chainWithin {steps : Nat} (h : (w.chainWithin (steps + 1) id).length ≤ steps)
    (answer : ObjectId → Option β) :
    w.Walks answer id ((w.chainWithin steps id).findSome? answer) := by
  induction steps generalizing id with
  | zero => exact absurd h (by simp [chainWithin])
  | succ steps ih =>
    rw [chainWithin, List.length_cons, Nat.add_le_add_iff_right] at h
    rw [chainWithin, List.findSome?_cons]
    cases ha : answer id with
    | some b => exact .answered ha
    | none =>
      cases hp : w.parent? id with
      | none => exact .ended ha hp
      | some parent =>
        rw [hp] at h
        exact .outward ha hp (ih h)

/-- The walk from an object of the heap ends, with the first answer on the chain. -/
theorem WellLinked.walks_chain (h : w.WellLinked) (hid : id < w.objects.size)
    (answer : ObjectId → Option β) : w.Walks answer id ((w.chain id).findSome? answer) :=
  walks_chainWithin (h.length_chainWithin_le hid _) answer

/-- The receiver, and no other object, gives an answer. -/
def sameObject (receiver o : ObjectId) : Option Unit := if o = receiver then some () else none

theorem sameObject_eq_none_iff {receiver : ObjectId} :
    sameObject receiver o = none ↔ o ≠ receiver := by
  simp [sameObject]

theorem WellLinked.mem_chain_iff (h : w.WellLinked) (hid : id < w.objects.size) :
    o ∈ w.chain id ↔ w.Descends id o := by
  refine ⟨descends_of_mem_chainWithin, fun hd => ?_⟩
  by_contra hn
  have hfind : (w.chain id).findSome? (sameObject o) = none :=
    List.findSome?_eq_none_iff.mpr fun x hx => sameObject_eq_none_iff.mpr fun he => hn (he ▸ hx)
  have hnone := (h.walks_chain hid (sameObject o)).all_none hfind hd
  exact sameObject_eq_none_iff.mp hnone rfl

/-! ## Changing who inherits -/

/-- A walk where one object has got a new parent: as it was, or by way of that object. -/
theorem descends_of_rewired (hothers : ∀ x, x ≠ id → w'.parent? x = w.parent? x)
    (hid : ∀ parent, w'.parent? id = some parent → ¬ w.Descends parent id) {x y : ObjectId}
    (hd : w'.Descends x y) :
    w.Descends x y ∨
      ∃ parent, w'.parent? id = some parent ∧ w.Descends x id ∧ w.Descends parent y := by
  induction hd with
  | refl => exact .inl .refl
  | @tail y z _ hlast ih =>
    by_cases hy : y = id
    · subst hy
      rcases ih with hold | ⟨parent, hp, -, hback⟩
      · exact .inr ⟨z, hlast, hold, .refl⟩
      · exact absurd hback (hid parent hp)
    · have hlast' : w.Inherits y z := (hothers y hy).symm.trans hlast
      rcases ih with hold | ⟨parent, hp, hto, hfrom⟩
      · exact .inl (hold.tail hlast')
      · exact .inr ⟨parent, hp, hto, hfrom.tail hlast'⟩

/-- One object gets a parent that does not inherit from it. -/
theorem acyclic_of_rewired (h : w.Acyclic) (hothers : ∀ x, x ≠ id → w'.parent? x = w.parent? x)
    (hid : ∀ parent, w'.parent? id = some parent → ¬ w.Descends parent id) : w'.Acyclic := by
  intro x hx
  obtain ⟨y, hfirst, hrest⟩ := Relation.TransGen.head'_iff.mp hx
  have hcases := descends_of_rewired hothers hid hrest
  by_cases hxid : x = id
  · subst hxid
    rcases hcases with hback | ⟨parent, hp, -, hback⟩
    · exact hid y hfirst hback
    · exact hid parent hp hback
  · have hfirst' : w.Inherits x y := (hothers x hxid).symm.trans hfirst
    rcases hcases with hback | ⟨parent, hp, hto, hfrom⟩
    · exact h x (.head' hfirst' hback)
    · exact hid parent hp ((hfrom.tail hfirst').trans hto)

theorem acyclic_congr (h : w.Acyclic) (hp : w'.parent? = w.parent?) : w'.Acyclic := by
  have hi : w'.Inherits = w.Inherits := by
    funext x y
    rw [Inherits, hp, Inherits]
  rwa [Acyclic, hi]

/-! ## Events of the heap -/

theorem object_modifyObject (f : ScriptObject → ScriptObject) (id x : ObjectId) (w : World E) :
    (w.modifyObject id f).object x = w.object x ∨
      x = id ∧ id < w.objects.size ∧ (w.modifyObject id f).object x = f (w.object x) := by
  simp only [object, modifyObject, Array.getElem?_modify]
  split
  · next hx =>
    subst hx
    cases ho : w.objects[id]? with
    | none => exact .inl rfl
    | some o => exact .inr ⟨rfl, (Array.getElem?_eq_some_iff.mp ho).1, rfl⟩
  · exact .inl rfl

theorem object_newObject (o : ScriptObject) (x : ObjectId) (w : World E) :
    (w.newObject o).2.object x = if x = w.objects.size then o else w.object x := by
  simp only [object, newObject, Array.getElem?_push]
  split <;> rfl

theorem wellLinked_of_objects_eq (h : w.WellLinked) (ho : w'.objects = w.objects) :
    w'.WellLinked := by
  have hobject : w'.object = w.object := by funext x; rw [object, ho, object]
  refine ⟨fun x u hu => ?_, acyclic_congr h.acyclic ?_⟩
  · rw [hobject] at hu
    exact (h.closed x u hu).mono (Nat.le_of_eq (congrArg Array.size ho.symm))
  · funext x
    simp only [parent?, hobject]

/-- An object changes its properties or gets a prototype that does not inherit from it. -/
theorem wellLinked_modifyObject {f : ScriptObject → ScriptObject} (h : w.WellLinked)
    (hparts : ∀ o, ∀ u ∈ (f o).parts, u ∈ o.parts ∨ w.HasObject u)
    (hproto : ∀ o parent, (f o).prototype = some (.object parent) →
      o.prototype = some (.object parent) ∨ ¬ w.Descends parent id) :
    (w.modifyObject id f).WellLinked := by
  have hsize : (w.modifyObject id f).objects.size = w.objects.size := Array.size_modify
  have acyclic (hothers : ∀ x, x ≠ id → (w.modifyObject id f).parent? x = w.parent? x) :=
    acyclic_of_rewired h.acyclic hothers
  refine ⟨fun x u hu => ?_, acyclic (fun x hx => ?_) ?_⟩
  · refine HasObject.mono (w := w) ?_ (Nat.le_of_eq hsize.symm)
    rcases object_modifyObject f id x w with hx | ⟨-, -, hx⟩
    · exact h.closed x u (hx ▸ hu)
    · exact (hparts _ u (hx ▸ hu)).elim (h.closed x u) fun hnew => hnew
  · rcases object_modifyObject f id x w with he | ⟨he, -⟩
    · simp only [parent?, he]
    · exact absurd he hx
  · intro parent hp hback
    have hold : (w.object id).prototype = some (.object parent) → False := fun ho =>
      h.acyclic id (.head' (parent?_eq_some_iff.mpr ho) hback)
    rw [parent?_eq_some_iff] at hp
    rcases object_modifyObject f id id w with hx | ⟨-, -, hx⟩
    · exact hold (hx ▸ hp)
    · exact (hproto _ parent (hx ▸ hp)).elim hold fun hn => hn hback

/-- Nothing inherits from a new object yet. -/
theorem wellLinked_newObject {o : ScriptObject} (h : w.WellLinked)
    (ho : ∀ u ∈ o.parts, w.HasObject u) : (w.newObject o).2.WellLinked := by
  have hsize : (w.newObject o).2.objects.size = w.objects.size + 1 := Array.size_push o
  have acyclic (hothers : ∀ x, x ≠ w.objects.size → (w.newObject o).2.parent? x = w.parent? x) :=
    acyclic_of_rewired h.acyclic hothers
  refine ⟨fun x u hu => ?_, acyclic (fun x hx => ?_) ?_⟩
  · refine HasObject.mono (w := w) ?_ (by omega)
    rw [object_newObject] at hu
    split at hu
    · exact ho u hu
    · exact h.closed x u hu
  · simp only [parent?, object_newObject, if_neg hx]
  · intro parent hp hback
    rw [parent?_eq_some_iff, object_newObject, if_pos rfl] at hp
    have hlt : parent < w.objects.size :=
      ho _ (List.mem_append_right _ (Option.mem_toList.mpr hp)) parent rfl
    exact Nat.lt_irrefl _ (h.descends_lt hlt hback)

theorem wellLinked_newFunction (f : FunctionData) (h : w.WellLinked) :
    (w.newFunction f).2.WellLinked := by
  refine wellLinked_newObject (wellLinked_newObject h nofun) fun u hu => ?_
  rcases List.mem_append.mp hu with hu | hu
  · rcases Table.mem_write hu with hu | rfl
    · cases hu
    · exact hasObject_object.mpr (by simp)
  · cases hu

theorem parts_ofPrototype {prototype : Option Value} {u : Value}
    (hu : u ∈ ScriptObject.parts { (default : ScriptObject) with prototype := prototype }) :
    prototype = some u := by
  rcases List.mem_append.mp hu with hu | hu
  · cases hu
  · exact Option.mem_toList.mp hu

theorem wellLinked_setPrototype {prototype : Option Value} (h : w.WellLinked)
    (hp : ∀ v, prototype = some v → w.HasObject v) :
    (w.setPrototype id prototype).2.WellLinked := by
  have accepted (hfree : ∀ parent, prototype = some (.object parent) → ¬ w.Descends parent id) :
      (w.modifyObject id fun o => { o with prototype := prototype }).WellLinked := by
    refine wellLinked_modifyObject h (fun o u hu => ?_) fun o parent he => .inr (hfree parent he)
    rcases List.mem_append.mp hu with hu | hu
    · exact .inl (List.mem_append_left _ hu)
    · exact .inr (hp u (Option.mem_toList.mp hu))
  unfold setPrototype
  split
  · next parent =>
    split
    · exact h
    · next hn =>
      have hlt : parent < w.objects.size := hp _ rfl parent rfl
      refine accepted fun p he hd => hn ?_
      cases he
      exact List.contains_iff_mem.mpr ((h.mem_chain_iff hlt).mpr hd)
  · next hn => exact accepted fun parent he => absurd he (hn parent)

theorem objects_bridge (realm : RealmId) (n : Native) (w : World E) :
    (w.bridge realm n).2.objects = w.objects := by
  unfold bridge
  split <;> rfl

variable [Embedding E]

/-- Reading a member of a value gives a value at once and changes nothing. -/
def ReadsMember (w : World E) (realm : RealmId) (v : Value) (name : String) (u : Value) : Prop :=
  (v.member name realm).settle w = (.finished (.ok u), w)

theorem objects_scriptError (realm : RealmId) (name message : String) (w : World E) :
    (w.scriptError realm name message).2.objects = w.objects := by
  refine (objects_bridge realm _ ((w.collect []).newError name message).2).trans ?_
  show (w.collect []).objects = w.objects
  unfold collect
  split <;> rfl

theorem objects_refuse {α : Type} (v : Value) (realm : RealmId) (failure : String → Failure) :
    ((Step.read (·.debugText v) >>= fun text =>
      (Evaluation.fail realm (failure text) : Evaluation E α)).settle w).2.objects = w.objects :=
  objects_scriptError realm _ _ w

/-- The receiver for a construction is a new object whose prototype, if any, is a property of the
    function; or there is no new object at all. -/
theorem wellLinked_makeThisForNew {callee : Value} (h : w.WellLinked) (realm : RealmId) :
    ((callee.makeThisForNew realm).settle w).2.WellLinked := by
  have refused : ((Step.read (·.debugText callee) >>= fun text =>
      (Evaluation.fail realm (.notConstructor text) : Evaluation E Value)).settle w).2.WellLinked :=
    wellLinked_of_objects_eq h (objects_refuse callee realm .notConstructor)
  have plain : (w.newObject default).2.WellLinked := wellLinked_newObject h nofun
  rcases callee with p | id | id | id | id
  case primitive => exact refused
  case array => exact refused
  case object =>
    simp only [Value.makeThisForNew, Step.settle]
    split
    · refine wellLinked_newObject h fun u hu => ?_
      have hlookup := (Option.filter_eq_some_iff.mp (parts_ofPrototype hu)).1
      obtain ⟨o, -, hf⟩ := List.exists_of_findSome?_eq_some hlookup
      exact h.closed o u (List.mem_append_left _ (Table.mem_of_lookup hf))
    · exact refused
  case bridge =>
    simp only [Value.makeThisForNew, Step.settle]
    split
    · exact plain
    · exact refused
  case link =>
    simp only [Value.makeThisForNew, Step.settle]
    split
    · exact plain
    · exact refused

end World

/-! ## Runs -/

/-- What happens to the objects of a heap. -/
inductive ObjectEvent (E : Type) where
  | create (prototype : Option Value)
  | function (f : FunctionData)
  /-- The receiver for a construction is made. -/
  | construct (callee : Value) (realm : RealmId)
  | put (id : ObjectId) (name : String) (value : Value)
  | delete (id : ObjectId) (name : String)
  | setPrototype (id : ObjectId) (prototype : Option Value)
  /-- Everything but the objects becomes as it is in another world. -/
  | elsewhere (w : World E)

namespace World

variable {E : Type}

instance decidableHasObject (w : World E) : (v : Value) → Decidable (w.HasObject v)
  | .object _ => decidable_of_iff _ hasObject_object.symm
  | .primitive _ | .array _ | .bridge _ | .link _ => .isTrue nofun

end World

namespace ObjectEvent

variable {E : Type} [Embedding E] {w : World E}

/-- The values that go into an event. -/
def operands : ObjectEvent E → List Value
  | create prototype => prototype.toList
  | function _ => []
  | construct callee _ => [callee]
  | put id _ value => [.object id, value]
  | delete id _ => [.object id]
  | setPrototype id prototype => .object id :: prototype.toList
  | elsewhere _ => []

/-- What an event does to a world. -/
def effect (w : World E) : ObjectEvent E → World E
  | create prototype => (w.newObject { (default : ScriptObject) with prototype := prototype }).2
  | function f => (w.newFunction f).2
  | construct callee realm => ((callee.makeThisForNew realm).settle w).2
  | put id name value => (((Value.object id).put name value 0).settle w).2
  | delete id name => (((Value.object id).delete name 0).settle w).2
  | setPrototype id prototype => (w.setPrototype id prototype).2
  | elsewhere w' => { w' with objects := w.objects }

/-- The world after an event. There are no objects but those of the heap. -/
def apply (w : World E) (event : ObjectEvent E) : World E :=
  if ∀ v ∈ event.operands, w.HasObject v then event.effect w else w

/-- The world after some events. -/
def run (w : World E) (events : List (ObjectEvent E)) : World E := events.foldl apply w

theorem wellLinked_apply (h : w.WellLinked) (event : ObjectEvent E) :
    (event.apply w).WellLinked := by
  unfold apply
  split
  · next hin =>
    cases event with
    | create prototype =>
      exact World.wellLinked_newObject h fun u hu =>
        hin u (Option.mem_toList.mpr (World.parts_ofPrototype hu))
    | function f => exact World.wellLinked_newFunction f h
    | construct callee realm => exact World.wellLinked_makeThisForNew h realm
    | put id name value =>
      refine World.wellLinked_modifyObject h (fun o u hu => ?_) fun o parent he => .inl he
      rcases World.mem_parts_insert hu with hold | rfl
      · exact .inl hold
      · exact .inr (hin u (List.mem_cons_of_mem _ (List.mem_singleton_self u)))
    | delete id name =>
      exact World.wellLinked_modifyObject h (fun o u hu => .inl (World.mem_parts_erase hu))
        fun o parent he => .inl he
    | setPrototype id prototype =>
      exact World.wellLinked_setPrototype h fun v hv =>
        hin v (List.mem_cons_of_mem _ (Option.mem_toList.mpr hv))
    | elsewhere w' => exact World.wellLinked_of_objects_eq h rfl
  · exact h

theorem wellLinked_run (h : w.WellLinked) (events : List (ObjectEvent E)) :
    (run w events).WellLinked :=
  List.foldlRecOn events apply h fun _ hw event _ => wellLinked_apply hw event

end ObjectEvent

namespace World

variable {E : Type}

theorem wellLinked_empty (e : E) : (World.empty e).WellLinked where
  closed _ _ hu := nomatch hu
  acyclic id hi := by
    obtain ⟨y, hfirst, -⟩ := Relation.TransGen.head'_iff.mp hi
    cases hfirst

/-- A new prototype that the receiver inherits to, or that is the receiver. -/
def ClosesChain (w : World E) (id : ObjectId) (prototype : Option Value) : Prop :=
  ∃ parent, prototype = some (.object parent) ∧ w.Descends parent id

theorem WellLinked.setPrototype_eq_of_closes {w : World E} (h : w.WellLinked) {id : ObjectId}
    {prototype : Option Value} (hp : ∀ v, prototype = some v → w.HasObject v)
    (hc : w.ClosesChain id prototype) : w.setPrototype id prototype = (false, w) := by
  obtain ⟨parent, rfl, hd⟩ := hc
  have hmem : id ∈ w.chain parent := (h.mem_chain_iff (hp _ rfl parent rfl)).mpr hd
  rw [setPrototype, if_pos (List.contains_iff_mem.mpr hmem)]

theorem setPrototype_eq_of_not_closes {w : World E} {id : ObjectId} {prototype : Option Value}
    (hc : ¬ w.ClosesChain id prototype) :
    w.setPrototype id prototype =
      (true, w.modifyObject id fun o => { o with prototype := prototype }) := by
  unfold setPrototype
  split
  · next parent =>
    refine if_neg fun hmem => hc ⟨parent, rfl, ?_⟩
    exact descends_of_mem_chainWithin (List.contains_iff_mem.mp hmem)
  · rfl

variable [Embedding E]

/-- In every heap that is built from the empty one no chain of prototypes comes back to where it
    was. So a walk along a chain ends: looking up a property, with what the model finds, and looking
    for a receiver, which is there exactly when the model's chain has it. And a new prototype is
    refused, and nothing changes, exactly when it is a script object whose chain has the receiver;
    any other becomes the prototype, and nothing else changes. -/
theorem prototypes_stay_acyclic (e : E) (events : List (ObjectEvent E)) :
    let w := ObjectEvent.run (World.empty e) events
    w.Acyclic ∧
    (∀ id, w.HasObject (.object id) →
      (∀ name, w.Walks (fun o => (w.object o).properties.find? name) id (w.lookup? id name)) ∧
      ∀ receiver, ∃ found, w.Walks (sameObject receiver) id found ∧
        (found.isSome ↔ (w.chain id).contains receiver) ∧ (found.isSome ↔ w.Descends id receiver)) ∧
    ∀ id prototype, (∀ v, prototype = some v → w.HasObject v) →
      (w.setPrototype id prototype = (false, w) ↔ w.ClosesChain id prototype) ∧
      (¬ w.ClosesChain id prototype → w.setPrototype id prototype =
        (true, w.modifyObject id fun o => { o with prototype := prototype })) := by
  intro w
  have h : w.WellLinked := ObjectEvent.wellLinked_run (wellLinked_empty e) events
  refine ⟨h.acyclic, fun id hid => ?_, fun id prototype hp => ⟨⟨fun hr => ?_, ?_⟩, ?_⟩⟩
  · have hlt : id < w.objects.size := hasObject_object.mp hid
    refine ⟨fun name => h.walks_chain hlt _, fun receiver => ⟨_, h.walks_chain hlt _, ?_⟩⟩
    have hfound :
        ((w.chain id).findSome? (sameObject receiver)).isSome ↔ receiver ∈ w.chain id := by
      simp [sameObject, List.findSome?_isSome_iff]
    exact ⟨hfound.trans List.contains_iff_mem.symm, hfound.trans (h.mem_chain_iff hlt)⟩
  · by_contra hc
    rw [setPrototype_eq_of_not_closes hc] at hr
    cases congrArg Prod.fst hr
  · exact h.setPrototype_eq_of_closes hp
  · exact setPrototype_eq_of_not_closes

/-- Two objects that inherit from a function's `prototype`, one by way of the other: neither that
    object nor the one in between can be made to inherit from the last one. An array ends the
    chain of whoever gets it. -/
theorem closing_chains_refused :
    let w := ObjectEvent.run (World.empty (Session.ofRecords #[]))
      [.function ⟨0, none⟩, .construct (.object 1) 0, .create (some (.object 2))]
    w.chain 3 = [3, 2, 0] ∧
      (∀ id ∈ w.chain 3, w.setPrototype id (some (.object 3)) = (false, w)) ∧
      (w.setPrototype 0 (some (.array 0))).1 = true := by
  intro w
  obtain ⟨-, hwalks, hset⟩ := prototypes_stay_acyclic (Session.ofRecords #[])
    [.function ⟨0, none⟩, .construct (.object 1) 0, .create (some (.object 2))]
  have hin : w.HasObject (.object 3) := by decide
  refine ⟨by decide, fun id hid => ?_, ?_⟩
  · obtain ⟨found, -, hchain, hdescends⟩ := (hwalks 3 hin).2 id
    have hd : w.Descends 3 id := hdescends.mp (hchain.mpr (List.contains_iff_mem.mpr hid))
    exact (hset id _ fun v hv => Option.some_inj.mp hv ▸ hin).1.mpr ⟨3, rfl, hd⟩
  · rw [(hset 0 (some (.array 0)) (by rintro _ ⟨⟩; nofun)).2 (by rintro ⟨_, h, -⟩; cases h)]

end World

end ScriptSandbox
