import ScriptSandbox.Proofs.Number.Word
import ScriptSandbox.Proofs.Operation.ArrayIndex
import ScriptSandbox.Proofs.Operation.Prototype

/-
  Arrays as a length and a map from indexes.

  An array is known by its length and by the value at each index, which is `undefined` from the
  length on (`ScriptArray.slot`). A write of an index changes the value there and lets the array
  grow up to it, a write of `length` cuts or fills, and every other write does nothing. An array
  grows to `2 ^ 24` elements at most, however it is written, so that bound holds along every
  sequence of operations (`size_run_le`); and the element that is written is always there
  (`putInRange?_eq`).
-/

namespace ScriptSandbox

open Binary64

namespace Binary64

variable {x y : Binary64}

/-- Finite doubles are equal as numbers when they have the same value. -/
theorem eqv_iff (hx : x.isFinite = true) (hy : y.isFinite = true) :
    x.eqv y = true ↔ x.value = y.value := by
  have hrank : x.rank = y.rank ↔ x.value = y.value := by
    simp only [le_antisymm_iff, ← not_lt, rank_lt_iff]
  simp [eqv, isNaN_of_isFinite hx, isNaN_of_isFinite hy, hrank]

theorem ofInt_represents {i : ℤ} (h : |i| < 2 ^ 53) : (ofInt i).Represents i := by
  obtain ⟨y, hy⟩ := exists_represents h
  exact (ofInt_nearest i).represents hy

end Binary64

/-- The value is a number that is a length. -/
def Value.SetsLength (v : Value) (k : ℕ) : Prop := ∃ x, v = .number x ∧ x.Represents k ∧ k ≤ 2 ^ 24

namespace ScriptArray

variable {a : ScriptArray} {name : String} {v : Value} {i k : ℕ}

/-! ## Lengths -/

/-- The numbers that are taken for a length are the integers up to `2 ^ 24`. -/
theorem exactLength?_eq_some_iff {x : Binary64} :
    exactLength? x = some k ↔ x.Represents k ∧ k ≤ 2 ^ 24 := by
  unfold exactLength?
  have hlimit : maxLength = 2 ^ 24 := rfl
  rw [hlimit]
  cases hx : x.isFinite with
  | false =>
    refine ⟨fun h => by simp at h, fun ⟨h, _⟩ => ?_⟩
    rw [h.isFinite] at hx
    cases hx
  | true =>
    simp only [Bool.not_true, Bool.false_eq_true, if_false, Option.ite_none_right_eq_some,
      Bool.and_eq_true, decide_eq_true_eq, Option.some_inj, x.truncate_eq]
    constructor
    · rintro ⟨⟨⟨heqv, hlow⟩, hhigh⟩, hk⟩
      have hexact : (ofInt (integerPart x.value)).Represents (integerPart x.value) :=
        ofInt_represents (by rw [abs_of_nonneg hlow]; omega)
      have hvalue : x.value = integerPart x.value := by
        rw [← hexact.value]
        exact ((eqv_iff hexact.isFinite hx).mp heqv).symm
      have hcast : integerPart x.value = (k : ℤ) := by omega
      refine ⟨⟨hx, ?_⟩, by omega⟩
      rw [hvalue, hcast, Int.cast_natCast]
    · rintro ⟨h, hk⟩
      have hpart : integerPart x.value = (k : ℤ) := by
        rw [h.value, ← Int.cast_natCast, integerPart_intCast]
      have hexact : (ofInt k).Represents ((k : ℤ) : ℚ) :=
        ofInt_represents (by rw [abs_of_nonneg (by omega)]; omega)
      rw [hpart]
      refine ⟨⟨⟨?_, by omega⟩, by omega⟩, by omega⟩
      rw [eqv_iff hexact.isFinite hx, hexact.value, h.value, Int.cast_natCast]

theorem bind_exactLength?_eq_some_iff :
    v.asNumber?.bind exactLength? = some k ↔ v.SetsLength k := by
  rw [Option.bind_eq_some_iff, Value.SetsLength]
  refine exists_congr fun x => and_congr ?_ exactLength?_eq_some_iff
  rcases v with (_ | _ | _ | y | _) | _ | _ | _ | _ <;> simp [Value.asNumber?]

/-! ## Elements -/

/-- The value at an index: `undefined` from the length on. -/
def slot (a : ScriptArray) (i : ℕ) : Value := a.elements[i]?.getD .undefined

theorem slot_of_size_le (h : a.elements.size ≤ i) : a.slot i = .undefined := by
  rw [slot, Array.getElem?_eq_none h, Option.getD_none]

/-- An array gets another length and another map from indexes. -/
structure Becomes (a a' : ScriptArray) (length : ℕ) (slots : ℕ → Value) : Prop where
  size : a'.elements.size = length
  slot : a'.slot = slots
  joining : a'.joining = a.joining

theorem size_resize (elements : Array Value) (k : ℕ) : (resize elements k).size = k := by
  unfold resize
  split
  · rw [Array.take_eq_extract, Array.size_extract]
    omega
  · rw [Array.size_append, Array.size_replicate]
    omega

theorem getElem?_resize (elements : Array Value) (k i : ℕ) :
    (resize elements k)[i]? = if i < k then some (elements[i]?.getD .undefined) else none := by
  unfold resize
  split
  · next hcut =>
    rw [Array.take_eq_extract, Array.getElem?_extract, Nat.min_eq_left hcut, Nat.sub_zero,
      Nat.zero_add]
    split
    · next hi =>
      rw [Array.getElem?_eq_getElem (Nat.lt_of_lt_of_le hi hcut), Option.getD_some]
    · rfl
  · next hfill =>
    rw [Array.getElem?_append]
    split
    · next hi =>
      rw [if_pos (by omega), Array.getElem?_eq_getElem hi, Option.getD_some]
    · next hi =>
      rw [Array.getElem?_replicate, Array.getElem?_eq_none (by omega), Option.getD_none]
      by_cases hk : i < k
      · rw [if_pos (by omega), if_pos hk]
      · rw [if_neg (by omega), if_neg hk]

/-- An array that is resized is cut or filled. -/
theorem becomes_resize (a : ScriptArray) (k : ℕ) :
    a.Becomes { a with elements := resize a.elements k } k
      fun i => if i < k then a.slot i else .undefined where
  size := size_resize _ _
  slot := by
    funext i
    simp only [slot, getElem?_resize]
    split <;> rfl
  joining := rfl

/-- The elements filled with `undefined` up to an index. -/
def grown (elements : Array Value) (i : ℕ) : Array Value :=
  if elements.size ≤ i then resize elements (i + 1) else elements

/-- An array grows up to an index by `undefined` only. -/
theorem becomes_grow (a : ScriptArray) (i : ℕ) :
    a.Becomes { a with elements := grown a.elements i } (max a.elements.size (i + 1)) a.slot := by
  unfold grown
  split
  · next hle =>
    obtain ⟨hsize, hslot, hjoining⟩ := becomes_resize a (i + 1)
    refine ⟨by rw [hsize]; omega, hslot.trans ?_, hjoining⟩
    funext j
    split
    · rfl
    · exact (slot_of_size_le (by omega)).symm
  · exact ⟨by show a.elements.size = _; omega, rfl, rfl⟩

/-- One element is set. -/
theorem becomes_set (h : i < a.elements.size) (v : Value) :
    a.Becomes { a with elements := a.elements.set! i v } a.elements.size
      (Function.update a.slot i v) where
  size := Array.size_setIfInBounds
  slot := by
    funext j
    simp only [slot, Array.set!_eq_setIfInBounds, Array.getElem?_setIfInBounds,
      Function.update_apply]
    by_cases hj : i = j
    · subst hj
      simp [h]
    · simp [hj, Ne.symm hj]
  joining := rfl

/-! ## Reading, writing and deleting -/

theorem member_index (hi : i < 2 ^ 64) : a.member (toString i) = a.slot i := by
  rw [member, if_neg (toString_ne_length i), arrayIndex?_eq_some_iff.mpr ⟨rfl, hi⟩]
  rfl

theorem member_of_ne (hlength : name ≠ "length") (hindex : ∀ i < 2 ^ 64, name ≠ toString i) :
    a.member name = .undefined := by
  rw [member, if_neg hlength, arrayIndex?_eq_none_iff.mpr hindex]

theorem becomes_put_index (hi : i < 2 ^ 24) :
    a.Becomes (a.put (toString i) v) (max a.elements.size (i + 1))
      (Function.update a.slot i v) := by
  have hput : a.put (toString i) v =
      { a with elements := (grown a.elements i).set! i v } := by
    simp only [put, if_neg (toString_ne_length i),
      arrayIndex?_eq_some_iff.mpr ⟨rfl, hi.trans (by decide)⟩]
    exact if_pos hi
  have hgrow := becomes_grow a i
  have hset := becomes_set (a := { a with elements := grown a.elements i }) (i := i)
    (by rw [hgrow.size]; omega) v
  rw [hput]
  exact ⟨hset.size.trans hgrow.size, hset.slot.trans (by rw [hgrow.slot]), rfl⟩

theorem becomes_put_length (h : v.SetsLength k) :
    a.Becomes (a.put "length" v) k fun i => if i < k then a.slot i else .undefined := by
  have hput : a.put "length" v = { a with elements := resize a.elements k } := by
    rw [put, if_pos rfl, bind_exactLength?_eq_some_iff.mpr h]
  rw [hput]
  exact becomes_resize a k

theorem put_eq_self (hindex : ∀ i < 2 ^ 24, name ≠ toString i)
    (hlength : name = "length" → ∀ k, ¬ v.SetsLength k) : a.put name v = a := by
  unfold put
  split
  · next hname =>
    split
    · next k hk => exact absurd (bind_exactLength?_eq_some_iff.mp hk) (hlength hname k)
    · rfl
  · split
    · next i hi =>
      exact if_neg fun hlt => hindex i hlt (arrayIndex?_eq_some_iff.mp hi).1
    · rfl

theorem becomes_delete_index (hi : i < a.elements.size) (hindex : i < 2 ^ 64) :
    a.Becomes (a.delete (toString i)) a.elements.size (Function.update a.slot i .undefined) := by
  have hdelete : a.delete (toString i) =
      { a with elements := a.elements.set! i .undefined } := by
    simp only [delete, arrayIndex?_eq_some_iff.mpr ⟨rfl, hindex⟩]
    exact if_pos hi
  rw [hdelete]
  exact becomes_set hi .undefined

theorem delete_eq_self (h : ∀ i < a.elements.size, name ≠ toString i) : a.delete name = a := by
  unfold delete
  split
  · next i hi => exact if_neg fun hlt => h i hlt (arrayIndex?_eq_some_iff.mp hi).1
  · rfl

/-! ## Bounds -/

theorem size_put_le (h : a.elements.size ≤ 2 ^ 24) (name : String) (v : Value) :
    (a.put name v).elements.size ≤ 2 ^ 24 := by
  by_cases hindex : ∃ i < 2 ^ 24, name = toString i
  · obtain ⟨i, hi, rfl⟩ := hindex
    rw [(becomes_put_index hi).size]
    omega
  by_cases hlength : name = "length" ∧ ∃ k, v.SetsLength k
  · obtain ⟨rfl, k, hk⟩ := hlength
    rw [(becomes_put_length hk).size]
    obtain ⟨-, -, -, hle⟩ := hk
    exact hle
  · rw [put_eq_self (fun i hi hname => hindex ⟨i, hi, hname⟩)
      fun hname k hk => hlength ⟨hname, k, hk⟩]
    exact h

theorem size_delete (a : ScriptArray) (name : String) :
    (a.delete name).elements.size = a.elements.size := by
  unfold delete
  split
  · split
    · exact Array.size_setIfInBounds
    · rfl
  · rfl

/-- A write that has no result where the element to be written is not there. -/
def putInRange? (name : String) (value : Value) (a : ScriptArray) : Option ScriptArray :=
  if name = "length" then some (a.put name value)
  else
    match (arrayIndex? name).filter (· < maxLength) with
    | some i =>
      let elements := grown a.elements i
      if h : i < elements.size then some { a with elements := elements.set i value h } else none
    | none => some a

/-- The element to be written is always there. -/
theorem putInRange?_eq (name : String) (v : Value) (a : ScriptArray) :
    a.putInRange? name v = some (a.put name v) := by
  unfold putInRange? put
  split
  · rfl
  · cases hi : arrayIndex? name with
    | none => rfl
    | some i =>
      by_cases hlt : i < maxLength
      · have hgrown : i < (grown a.elements i).size := by
          have hsize := (becomes_grow a i).size
          simp only at hsize
          omega
        have hset : (grown a.elements i).set! i v = (grown a.elements i).set i v hgrown :=
          dif_pos hgrown
        simp only [Option.filter_some, decide_eq_true hlt, if_true, dif_pos hgrown, if_pos hlt,
          ← hset]
        rfl
      · simp only [Option.filter_some, decide_eq_false hlt, if_neg hlt]
        rfl

end ScriptArray

/-! ## Arrays of a world -/

/-- An operation on an array. -/
inductive ArrayOperation where
  | member (id : ArrayId) (name : String)
  | put (id : ArrayId) (name : String) (value : Value)
  | delete (id : ArrayId) (name : String)

namespace World

variable {E : Type} {w w' : World E} {id : ArrayId}

theorem array_modifyArray (f : ScriptArray → ScriptArray) (h : id < w.arrays.size) :
    (w.modifyArray id f).array id = f (w.array id) := by
  simp [array, modifyArray, Array.getElem?_modify, Array.getElem?_eq_getElem h]

theorem array_modifyArray_or (f : ScriptArray → ScriptArray) (target id : ArrayId) :
    (w.modifyArray target f).array id = w.array id ∨
      (w.modifyArray target f).array id = f (w.array id) := by
  simp only [array, modifyArray, Array.getElem?_modify]
  split
  · cases w.arrays[id]? with
    | none => exact .inl rfl
    | some a => exact .inr rfl
  · exact .inl rfl

theorem array_modifyArray_ne (f : ScriptArray → ScriptArray) {other : ArrayId} (h : other ≠ id) :
    (w.modifyArray id f).array other = w.array other := by
  rw [array, modifyArray, Array.getElem?_modify, if_neg (Ne.symm h), array]

theorem modifyArray_eq_self {f : ScriptArray → ScriptArray}
    (h : f (w.array id) = w.array id) : w.modifyArray id f = w := by
  have harrays : w.arrays.modify id f = w.arrays := by
    refine Array.ext_getElem? fun j => ?_
    rw [Array.getElem?_modify]
    split
    · next hj =>
      subst hj
      cases ha : w.arrays[id]? with
      | none => rfl
      | some a =>
        rw [array, ha, Option.getD_some] at h
        rw [Option.map_some, h]
    · rfl
  rw [modifyArray, harrays]

variable [Embedding E]

/-- What scripts see of an array: a length, a value at each index, which is `undefined` from the
    length on, and nothing else. -/
structure Shows (w : World E) (realm : RealmId) (id : ArrayId) (length : ℕ) (slots : ℕ → Value) :
    Prop where
  size : (w.array id).elements.size = length
  readsLength : ∃ x, w.ReadsMember realm (.array id) "length" (.number x) ∧ x.Represents length
  readsIndex : ∀ i, w.ReadsMember realm (.array id) (toString i) (slots i)
  readsOther : ∀ name, name ≠ "length" → (∀ i : ℕ, name ≠ toString i) →
    w.ReadsMember realm (.array id) name .undefined
  beyond : ∀ i, length ≤ i → slots i = .undefined

/-- One array has got another length and another map from indexes, and nothing else has changed. -/
structure Reshapes (w w' : World E) (realm : RealmId) (id : ArrayId) (length : ℕ)
    (slots : ℕ → Value) : Prop where
  shows : w'.Shows realm id length slots
  joining : (w'.array id).joining = (w.array id).joining
  others : ∀ other, other ≠ id → w'.array other = w.array other
  rest : { w' with arrays := w.arrays } = w

theorem shows_slot (realm : RealmId) (h : (w.array id).elements.size ≤ 2 ^ 24) :
    w.Shows realm id (w.array id).elements.size (w.array id).slot where
  size := rfl
  readsLength := by
    refine ⟨_, rfl, ?_⟩
    have hrep := ofNat_represents (n := (w.array id).elements.size) (by omega)
    rwa [Int.cast_natCast] at hrep
  readsIndex i := by
    have hread : (w.array id).member (toString i) = (w.array id).slot i := by
      rcases Nat.lt_or_ge i (2 ^ 64) with hi | hi
      · exact ScriptArray.member_index hi
      · rw [ScriptArray.slot_of_size_le (by omega)]
        refine ScriptArray.member_of_ne (toString_ne_length i) fun j hj hname => ?_
        have := toString_inj hname
        omega
    rw [← hread]
    rfl
  readsOther name hlength hindex := by
    have hread := (w.array id).member_of_ne hlength fun i _ => hindex i
    rw [← hread]
    rfl
  beyond _ := ScriptArray.slot_of_size_le

theorem reshapes_modifyArray (realm : RealmId) (hid : id < w.arrays.size)
    {f : ScriptArray → ScriptArray} {length : ℕ} {slots : ℕ → Value}
    (h : (w.array id).Becomes (f (w.array id)) length slots) (hlength : length ≤ 2 ^ 24) :
    w.Reshapes (w.modifyArray id f) realm id length slots := by
  obtain ⟨hsize, hslot, hjoining⟩ := h
  rw [← array_modifyArray f hid] at hsize hslot hjoining
  have hshows := shows_slot realm (hsize.trans_le hlength)
  rw [hsize, hslot] at hshows
  exact ⟨hshows, hjoining, fun _ => array_modifyArray_ne f, rfl⟩

end World

namespace ArrayOperation

variable {E : Type} {w : World E}

theorem size_modifyArray_le {id target : ArrayId} {f : ScriptArray → ScriptArray}
    (h : (w.array id).elements.size ≤ 2 ^ 24)
    (hf : ∀ a : ScriptArray, a.elements.size ≤ 2 ^ 24 → (f a).elements.size ≤ 2 ^ 24) :
    ((w.modifyArray target f).array id).elements.size ≤ 2 ^ 24 := by
  obtain heq | heq := World.array_modifyArray_or (w := w) f target id
  · rwa [heq]
  · rw [heq]
    exact hf _ h

variable [Embedding E]

/-- The world after an operation. -/
def after (realm : RealmId) (w : World E) : ArrayOperation → World E
  | member id name => (((Value.array id).member name realm).settle w).2
  | put id name value => (((Value.array id).put name value realm).settle w).2
  | delete id name => (((Value.array id).delete name realm).settle w).2

/-- The world after some operations. -/
def run (realm : RealmId) (w : World E) (operations : List ArrayOperation) : World E :=
  operations.foldl (after realm) w

theorem size_after_le (realm : RealmId) {id : ArrayId} (h : (w.array id).elements.size ≤ 2 ^ 24)
    (operation : ArrayOperation) :
    ((operation.after realm w).array id).elements.size ≤ 2 ^ 24 := by
  cases operation with
  | member target name => exact h
  | put target name value =>
    exact size_modifyArray_le h fun a ha => ScriptArray.size_put_le ha name value
  | delete target name =>
    exact size_modifyArray_le h fun a ha => by rwa [ScriptArray.size_delete]

theorem size_run_le (realm : RealmId) {id : ArrayId} (h : (w.array id).elements.size ≤ 2 ^ 24)
    (operations : List ArrayOperation) :
    ((run realm w operations).array id).elements.size ≤ 2 ^ 24 := by
  induction operations generalizing w with
  | nil => exact h
  | cons operation rest ih => exact ih (size_after_le realm h operation)

end ArrayOperation

namespace World

variable {E : Type} [Embedding E]

/-- An array of at most `2 ^ 24` elements is a length and a map from indexes. A write of an index
    below `2 ^ 24` changes the value there and lets the array grow up to it; a write of `length`
    with an integer up to `2 ^ 24` cuts or fills the array; every other write changes nothing.
    Deleting leaves `undefined` in the place of an element and denies only `length`. So along every
    sequence of operations the length stays at most `2 ^ 24`, and no write goes to an element that
    is not there. -/
theorem array_members (w : World E) (realm : RealmId) (id : ArrayId) (hid : id < w.arrays.size)
    (hlength : (w.array id).elements.size ≤ 2 ^ 24) :
    let length := (w.array id).elements.size
    let slots := (w.array id).slot
    w.Shows realm id length slots ∧
    (∀ name v, ∃ w', ((Value.array id).put name v realm).settle w = (.finished (.ok ()), w') ∧
      (∀ i < 2 ^ 24, name = toString i →
        w.Reshapes w' realm id (max length (i + 1)) (Function.update slots i v)) ∧
      (∀ k, name = "length" → v.SetsLength k →
        w.Reshapes w' realm id k fun i => if i < k then slots i else .undefined) ∧
      ((∀ i < 2 ^ 24, name ≠ toString i) → (name = "length" → ∀ k, ¬ v.SetsLength k) → w' = w)) ∧
    (∀ name, ∃ w', ((Value.array id).delete name realm).settle w =
        (.finished (.ok (decide (name ≠ "length"))), w') ∧
      (∀ i < length, name = toString i →
        w.Reshapes w' realm id length (Function.update slots i .undefined)) ∧
      ((∀ i < length, name ≠ toString i) → w' = w)) ∧
    ∀ operations : List ArrayOperation,
      let a := (ArrayOperation.run realm w operations).array id
      a.elements.size ≤ 2 ^ 24 ∧ ∀ name v, a.putInRange? name v = some (a.put name v) := by
  intro length slots
  refine ⟨shows_slot realm hlength, fun name v => ⟨_, rfl, ?_, ?_, ?_⟩,
    fun name => ⟨_, rfl, ?_, ?_⟩, fun operations => ⟨?_, ?_⟩⟩
  · rintro i hi rfl
    exact reshapes_modifyArray realm hid (ScriptArray.becomes_put_index hi) (by omega)
  · rintro k rfl hk
    have hle : k ≤ 2 ^ 24 := by
      obtain ⟨-, -, -, hle⟩ := hk
      exact hle
    exact reshapes_modifyArray realm hid (ScriptArray.becomes_put_length hk) hle
  · intro hindex hnone
    exact modifyArray_eq_self (ScriptArray.put_eq_self hindex hnone)
  · rintro i hi rfl
    exact reshapes_modifyArray realm hid (ScriptArray.becomes_delete_index hi (by omega)) hlength
  · intro hindex
    exact modifyArray_eq_self (ScriptArray.delete_eq_self hindex)
  · exact ArrayOperation.size_run_le realm hlength operations
  · exact fun name v => ScriptArray.putInRange?_eq name v _

/-- An array of one element: it grows up to an index, minus zero empties it, and a leading zero, an
    index at the limit and half a length are ignored. -/
theorem array_members_edges :
    let w := ((World.empty (Session.ofRecords #[])).newArray #[.null]).2
    let puts (name : String) (v : Value) (w' : World Session) :=
      ((Value.array 0).put name v 0).settle w = (.finished (.ok ()), w')
    (∃ w', puts "2" .null w' ∧
        w.Reshapes w' 0 0 3 (Function.update (w.array 0).slot 2 .null)) ∧
      (∃ w', puts "length" (.number .negativeZero) w' ∧
        w.Reshapes w' 0 0 0 fun _ => .undefined) ∧
      puts "01" .null w ∧ puts "16777216" .null w ∧
      puts "length" (.number (.ofRatio false 1 2)) w := by
  intro w puts
  obtain ⟨-, hput, -⟩ := array_members w 0 0 (by decide) (by decide)
  have ignored {name : String} {v : Value} (hindex : ∀ i < 2 ^ 24, name ≠ toString i)
      (hlength : name = "length" → ∀ k, ¬ v.SetsLength k) : puts name v w := by
    obtain ⟨w', hw', -, -, hsame⟩ := hput name v
    exact hsame hindex hlength ▸ hw'
  refine ⟨?_, ?_, ignored (fun i hi => ?_) nofun, ignored (fun i hi hname => ?_) nofun,
    ignored (fun i _ => (toString_ne_length i).symm) fun _ k hk => ?_⟩
  · obtain ⟨w', hw', hgrows, -⟩ := hput "2" .null
    exact ⟨w', hw', hgrows 2 (by decide) rfl⟩
  · obtain ⟨w', hw', -, hcuts, -⟩ := hput "length" (.number .negativeZero)
    have hzero := ScriptArray.bind_exactLength?_eq_some_iff.mp
      (show (Value.number .negativeZero).asNumber?.bind ScriptArray.exactLength? = some 0 by
        decide +kernel)
    exact ⟨w', hw', hcuts 0 rfl hzero⟩
  · exact arrayIndex?_eq_none_iff.mp (by decide +kernel) i (by omega)
  · have := toString_inj ((show toString (2 ^ 24) = "16777216" by decide +kernel).trans hname)
    omega
  · have hhalf : (Value.number (.ofRatio false 1 2)).asNumber?.bind ScriptArray.exactLength? =
        none := by decide +kernel
    cases hhalf.symm.trans (ScriptArray.bind_exactLength?_eq_some_iff.mpr hk)

end World

end ScriptSandbox
