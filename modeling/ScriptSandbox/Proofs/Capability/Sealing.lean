import Mathlib.Logic.Relation
import ScriptSandbox.Operation.Coercion

/-
  What a script can reach.

  From a value a script gets on to the properties and the prototype of an object and to the elements
  of an array. A value is sealed, for a set of trusted host objects, when every bridge on such a
  path wraps a trusted one. A set of values that is closed under getting on and whose bridges are
  trusted is sealed (`sealed_of_closed`), so what is sealed stays sealed while the heap only takes
  up sealed values and bridges keep their host objects (`Sealed.grow`).
-/

namespace ScriptSandbox

variable {E : Type}

/-- The values that an object leads on to. -/
def ScriptObject.parts (o : ScriptObject) : List Value :=
  o.properties.entries.map (·.2) ++ o.prototype.toList

namespace World

/-- A value leads on to another one. -/
def LeadsTo (w : World E) : Value → Value → Prop
  | .object id, u => u ∈ (w.object id).parts
  | .array id, u => u ∈ (w.array id).elements
  | _, _ => False

/-- A value leads on to another one in any number of steps. -/
abbrev Reaches (w : World E) : Value → Value → Prop := Relation.ReflTransGen w.LeadsTo

/-- Every bridge that can be reached wraps a trusted host object. -/
def Sealed (trusted : Native → Prop) (w : World E) (v : Value) : Prop :=
  ∀ id, w.Reaches v (.bridge id) → ∃ n, w.bridgeNative? id = some n ∧ trusted n

variable {trusted : Native → Prop} {w w' : World E} {v u : Value}

theorem sealed_of_closed {S : Value → Prop} (hv : S v)
    (closed : ∀ {v u}, S v → w.LeadsTo v u → S u)
    (bridges : ∀ {id}, S (.bridge id) → ∃ n, w.bridgeNative? id = some n ∧ trusted n) :
    w.Sealed trusted v := by
  have reached : ∀ {u}, w.Reaches v u → S u := by
    intro u hr
    induction hr with
    | refl => exact hv
    | tail _ hstep ih => exact closed ih hstep
  exact fun id hr => bridges (reached hr)

theorem Sealed.bridge {id : BridgeId} (h : w.Sealed trusted (.bridge id)) :
    ∃ n, w.bridgeNative? id = some n ∧ trusted n := h id .refl

theorem Sealed.reached (h : w.Sealed trusted v) (hr : w.Reaches v u) : w.Sealed trusted u :=
  fun id hu => h id (hr.trans hu)

theorem Sealed.leadsTo (h : w.Sealed trusted v) (hu : w.LeadsTo v u) : w.Sealed trusted u :=
  h.reached (.single hu)

/-- A value is sealed with everything that it leads on to, unless it is a bridge itself. -/
theorem sealed_of_leadsTo (hv : ∀ id, v ≠ .bridge id)
    (h : ∀ u, w.LeadsTo v u → w.Sealed trusted u) : w.Sealed trusted v := by
  intro id hr
  rcases Relation.ReflTransGen.cases_head hr with he | ⟨u, hu, hr⟩
  · exact absurd he (hv id)
  · exact h u hu id hr

theorem sealed_primitive (p : Primitive) : w.Sealed trusted (.primitive p) :=
  sealed_of_leadsTo (fun _ h => by cases h) fun _ h => h.elim

theorem sealed_link (id : LinkId) : w.Sealed trusted (.link id) :=
  sealed_of_leadsTo (fun _ h => by cases h) fun _ h => h.elim

theorem sealed_bridge {id : BridgeId} {n : Native} (hn : w.bridgeNative? id = some n)
    (ht : trusted n) : w.Sealed trusted (.bridge id) := by
  intro j hr
  rcases Relation.ReflTransGen.cases_head hr with he | ⟨u, hu, -⟩
  · cases he
    exact ⟨n, hn, ht⟩
  · exact hu.elim

/-! ## Growth -/

/-- The heap takes up sealed values only, and bridges keep their host objects. -/
structure Grows (trusted : Native → Prop) (w w' : World E) : Prop where
  leadsTo : ∀ {v u}, w'.LeadsTo v u → w.LeadsTo v u ∨ w.Sealed trusted u
  bridges : ∀ {id n}, w.bridgeNative? id = some n → w'.bridgeNative? id = some n

/-- What is sealed stays sealed. -/
theorem Sealed.grow (h : w.Sealed trusted v) (hg : Grows trusted w w') : w'.Sealed trusted v := by
  refine sealed_of_closed h (fun hv hu => ?_) fun hb => ?_
  · exact (hg.leadsTo hu).elim hv.leadsTo id
  · obtain ⟨n, hn, ht⟩ := hb.bridge
    exact ⟨n, hg.bridges hn, ht⟩

theorem leadsTo_of_eq (ho : w'.objects = w.objects) (ha : w'.arrays = w.arrays)
    (h : w'.LeadsTo v u) : w.LeadsTo v u := by
  have hobject : w'.object = w.object := by funext id; rw [object, ho, object]
  have harray : w'.array = w.array := by funext id; rw [array, ha, array]
  cases v with
  | object id => rwa [LeadsTo, hobject] at h
  | array id => rwa [LeadsTo, harray] at h
  | _ => exact h.elim

/-- The heap and the host objects of bridges are as they were. -/
theorem Grows.of_eq (ho : w'.objects = w.objects) (ha : w'.arrays = w.arrays)
    (hb : ∀ id, w'.bridgeNative? id = w.bridgeNative? id) : Grows trusted w w' where
  leadsTo h := .inl (leadsTo_of_eq ho ha h)
  bridges h := (hb _).trans h

/-! ## Changes of the heap -/

/-- An object changes into parts that it had or that are sealed. -/
theorem grows_modifyObject {id : ObjectId} {f : ScriptObject → ScriptObject}
    (hf : ∀ o u, u ∈ (f o).parts → u ∈ o.parts ∨ w.Sealed trusted u) :
    Grows trusted w (w.modifyObject id f) where
  leadsTo {v u} h := by
    cases v with
    | object j =>
      simp only [LeadsTo, object, modifyObject, Array.getElem?_modify] at h ⊢
      split at h
      · cases ho : w.objects[j]? with
        | none =>
          rw [ho] at h
          exact .inl h
        | some o =>
          rw [ho] at h
          exact hf o u h
      · exact .inl h
    | array j => exact .inl h
    | _ => exact h.elim
  bridges h := h

/-- An array changes into elements that it had or that are sealed. -/
theorem grows_modifyArray {id : ArrayId} {f : ScriptArray → ScriptArray}
    (hf : ∀ a u, u ∈ (f a).elements → u ∈ a.elements ∨ w.Sealed trusted u) :
    Grows trusted w (w.modifyArray id f) where
  leadsTo {v u} h := by
    cases v with
    | array j =>
      simp only [LeadsTo, array, modifyArray, Array.getElem?_modify] at h ⊢
      split at h
      · cases ha : w.arrays[j]? with
        | none =>
          rw [ha] at h
          exact .inl h
        | some a =>
          rw [ha] at h
          exact hf a u h
      · exact .inl h
    | object j => exact .inl h
    | _ => exact h.elim
  bridges h := h

theorem grows_newObject {o : ScriptObject} (h : ∀ u ∈ o.parts, w.Sealed trusted u) :
    Grows trusted w (w.newObject o).2 where
  leadsTo {v u} hv := by
    cases v with
    | object j =>
      simp only [LeadsTo, object, newObject, Array.getElem?_push] at hv ⊢
      split at hv
      · exact .inr (h u hv)
      · exact .inl hv
    | array j => exact .inl hv
    | _ => exact hv.elim
  bridges h := h

theorem grows_newArray {elements : Array Value} (h : ∀ u ∈ elements, w.Sealed trusted u) :
    Grows trusted w (w.newArray elements).2 where
  leadsTo {v u} hv := by
    cases v with
    | array j =>
      simp only [LeadsTo, array, newArray, Array.getElem?_push] at hv ⊢
      split at hv
      · exact .inr (h u hv)
      · exact .inl hv
    | object j => exact .inl hv
    | _ => exact hv.elim
  bridges h := h

theorem sealed_newObject {o : ScriptObject} (h : ∀ u ∈ o.parts, w.Sealed trusted u) :
    (w.newObject o).2.Sealed trusted (w.newObject o).1 := by
  refine sealed_of_leadsTo (fun _ h => by cases h) ?_
  intro u hu
  simp only [LeadsTo, object, newObject, Array.getElem?_push_size, Option.getD_some] at hu
  exact (h u hu).grow (grows_newObject h)

theorem sealed_newArray {elements : Array Value} (h : ∀ u ∈ elements, w.Sealed trusted u) :
    (w.newArray elements).2.Sealed trusted (w.newArray elements).1 := by
  refine sealed_of_leadsTo (fun _ h => by cases h) ?_
  intro u hu
  simp only [LeadsTo, array, newArray, Array.getElem?_push_size, Option.getD_some] at hu
  exact (h u hu).grow (grows_newArray h)

/-- A new bridge leaves the heap and the other bridges as they were. -/
theorem grows_pushBridge {b : Bridge} (ho : w'.objects = w.objects) (ha : w'.arrays = w.arrays)
    (hb : w'.bridges = w.bridges.push b) : Grows trusted w w' where
  leadsTo h := .inl (leadsTo_of_eq ho ha h)
  bridges {id n} h := by
    simp only [bridgeNative?, hb, Option.map_eq_some_iff] at h ⊢
    obtain ⟨b', hb, rfl⟩ := h
    have hlt := (Array.getElem?_eq_some_iff.mp hb).1
    exact ⟨b', by rw [Array.getElem?_push_lt hlt, ← Array.getElem?_eq_getElem hlt, hb], rfl⟩

/-! ## Properties and elements -/

theorem mem_parts_insert {o : ScriptObject} {name : String} {x : Value}
    (h : u ∈ ScriptObject.parts { o with properties := o.properties.insert name x }) :
    u ∈ o.parts ∨ u = x := by
  rcases List.mem_append.mp h with h | h
  · exact (Table.mem_write h).imp_left (List.mem_append_left _)
  · exact .inl (List.mem_append_right _ h)

theorem mem_parts_erase {o : ScriptObject} {name : String}
    (h : u ∈ ScriptObject.parts { o with properties := o.properties.erase name }) :
    u ∈ o.parts := by
  rcases List.mem_append.mp h with h | h
  · exact List.mem_append_left _ (Table.mem_erase h)
  · exact List.mem_append_right _ h

theorem mem_resize {elements : Array Value} {length : Nat}
    (h : u ∈ ScriptArray.resize elements length) : u ∈ elements ∨ u = .undefined := by
  unfold ScriptArray.resize at h
  split at h
  · obtain ⟨i, hi, rfl⟩ := Array.mem_extract_iff_getElem.mp h
    exact .inl (Array.getElem_mem _)
  · exact (Array.mem_append.mp h).imp_right fun h => (Array.mem_replicate.mp h).2

theorem mem_put {a : ScriptArray} {name : String} {x : Value} (h : u ∈ (a.put name x).elements) :
    u ∈ a.elements ∨ u = .undefined ∨ u = x := by
  unfold ScriptArray.put at h
  split at h
  · split at h
    · exact (mem_resize h).imp_right .inl
    · exact .inl h
  · split at h
    · split at h
      · rcases Array.mem_or_eq_of_mem_setIfInBounds h with h | h
        · split at h
          · exact (mem_resize h).imp_right .inl
          · exact .inl h
        · exact .inr (.inr h)
      · exact .inl h
    · exact .inl h

theorem mem_delete {a : ScriptArray} {name : String} (h : u ∈ (a.delete name).elements) :
    u ∈ a.elements ∨ u = .undefined := by
  unfold ScriptArray.delete at h
  split at h
  · split at h
    · exact Array.mem_or_eq_of_mem_setIfInBounds h
    · exact .inl h
  · exact .inl h

/-! ## Looking up -/

theorem reaches_chainWithin {steps : Nat} {id o : ObjectId} (h : o ∈ w.chainWithin steps id) :
    w.Reaches (.object id) (.object o) := by
  induction steps generalizing id with
  | zero => cases h
  | succ steps ih =>
    rcases List.mem_cons.mp h with rfl | h
    · exact .refl
    · split at h
      · next parent hp =>
        refine .head ?_ (ih h)
        refine List.mem_append_right _ (Option.mem_toList.mpr ?_)
        unfold parent? at hp
        split at hp
        · next hproto =>
          cases hp
          exact hproto
        · cases hp
      · cases h

theorem reaches_lookup? {id : ObjectId} {name : String} (h : w.lookup? id name = some v) :
    w.Reaches (.object id) v := by
  obtain ⟨o, ho, hf⟩ := List.exists_of_findSome?_eq_some h
  exact (reaches_chainWithin ho).tail (List.mem_append_left _ (Table.mem_of_lookup hf))

/-- A property of a sealed object is sealed. -/
theorem Sealed.lookup {id : ObjectId} (h : w.Sealed trusted (.object id)) (name : String) :
    w.Sealed trusted ((w.lookup? id name).getD .undefined) := by
  cases hv : w.lookup? id name with
  | none => exact sealed_primitive _
  | some v => exact h.reached (reaches_lookup? hv)

/-- An element of a sealed array is sealed. -/
theorem Sealed.member {id : ArrayId} (h : w.Sealed trusted (.array id)) (name : String) :
    w.Sealed trusted ((w.array id).member name) := by
  unfold ScriptArray.member
  split
  · exact sealed_primitive _
  · split
    · next i _ =>
      cases hi : (w.array id).elements[i]? with
      | none => exact sealed_primitive _
      | some x => exact h.leadsTo (Array.mem_of_getElem? hi)
    · exact sealed_primitive _

end World

end ScriptSandbox
