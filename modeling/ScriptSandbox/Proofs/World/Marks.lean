import ScriptSandbox.Proofs.World.Elementary

/-
  Marks of arrays.

  An array is marked while it is being joined. Only `markJoining` touches a mark, so all other
  elementary changes leave all marks as they are (`SameMarks`). For one array at a time, `Bears`
  counts its mark against the joins in progress, from any world on: to mark the array takes one more
  join, to unmark it one less, and without any its mark is what it was (`Bears.joining_eq`).
-/

namespace ScriptSandbox

namespace World

variable {E : Type}
variable {start w w' : World E} {id i : ArrayId} {total : Nat}

/-- No array is lost, and every array keeps its mark. -/
structure SameMarks (w w' : World E) : Prop where
  size : w.arrays.size ≤ w'.arrays.size
  joining : ∀ id, (w'.array id).joining = (w.array id).joining

namespace SameMarks

theorem of_arrays_eq (h : w'.arrays = w.arrays) : SameMarks w w' where
  size := Nat.le_of_eq (congrArg Array.size h.symm)
  joining id := by rw [World.array, World.array, h]

theorem refl (w : World E) : SameMarks w w := of_arrays_eq rfl

theorem trans {w'' : World E} (h : SameMarks w w') (h' : SameMarks w' w'') : SameMarks w w'' :=
  ⟨Nat.le_trans h.size h'.size, fun id => (h'.joining id).trans (h.joining id)⟩

end SameMarks

/-- No array is lost, and no mark is taken back. -/
structure KeepsMarks (w w' : World E) : Prop where
  size : w.arrays.size ≤ w'.arrays.size
  marked : ∀ id, (w.array id).joining = true → (w'.array id).joining = true

theorem SameMarks.keepsMarks (h : SameMarks w w') : KeepsMarks w w' :=
  ⟨h.size, fun id hid => (h.joining id).trans hid⟩

theorem sameMarks_newText (s : String) (w : World E) : SameMarks w (w.newText s).2 := by
  refine .of_arrays_eq ?_
  unfold newText
  split <;> rfl

theorem sameMarks_newArray (elements : Array Value) (w : World E) :
    SameMarks w (w.newArray elements).2 := by
  refine ⟨?_, fun id => ?_⟩
  · simp [newArray]
  · simp only [World.array, newArray, Array.getElem?_push]
    split
    · next h =>
      rw [h, Array.getElem?_eq_none (Nat.le_refl _)]
      rfl
    · rfl

theorem sameMarks_modifyArray (id : ArrayId) {f : ScriptArray → ScriptArray}
    (hf : ∀ a, (f a).joining = a.joining) (w : World E) : SameMarks w (w.modifyArray id f) := by
  refine ⟨by simp [modifyArray], fun j => ?_⟩
  simp only [World.array, modifyArray, Array.getElem?_modify]
  split
  · cases w.arrays[j]? with
    | none => rfl
    | some a => exact hf a
  · rfl

theorem Elementary.sameMarks [Embedding E] {allows : Allowance} (hm : ¬ allows.marks)
    (h : Elementary allows w w') : SameMarks w w' := by
  cases h with
  | text s => exact sameMarks_newText s w
  | array elements => exact sameMarks_newArray elements w
  | modifyArray id hf => exact sameMarks_modifyArray id hf w
  | collect hand =>
    refine .of_arrays_eq ?_
    unfold World.collect
    split <;> rfl
  | bridge realm n =>
    refine .of_arrays_eq ?_
    unfold World.bridge
    split <;> rfl
  | link realm n =>
    refine .of_arrays_eq ?_
    unfold World.newestLink
    split <;> rfl
  | mark h => exact absurd h hm
  | _ => exact .of_arrays_eq rfl

theorem Changes.sameMarks [Embedding E] {allows : Allowance} (hm : ¬ allows.marks)
    (h : Changes allows w w') : SameMarks w w' := by
  induction h with
  | refl => exact .refl w
  | tail _ hlast ih => exact ih.trans (hlast.sameMarks hm)

/-! ## The account of a mark -/

/-- What the mark of an array is, when the joins in progress have `total` marks of it to give back:
    at most so many more than at the start, and just so many if the array was there. -/
structure Bears (start : World E) (id : ArrayId) (total : Nat) (w : World E) : Prop where
  bound : (w.array id).joining.toNat ≤ (start.array id).joining.toNat + total
  settled : id < start.arrays.size → id < w.arrays.size ∧
    (w.array id).joining.toNat = (start.array id).joining.toNat + total

/-- The marks of an array that a join of an array takes. -/
def marksOf (id joined : ArrayId) : Nat := if joined = id then 1 else 0

theorem bears_start (start : World E) (id : ArrayId) : Bears start id 0 start :=
  ⟨Nat.le_refl _, fun hid => ⟨hid, rfl⟩⟩

theorem joining_markJoining (joined : ArrayId) (joining : Bool) (w : World E) (id : ArrayId) :
    ((w.markJoining joined joining).array id).joining =
      if joined = id ∧ id < w.arrays.size then joining else (w.array id).joining := by
  simp only [World.array, markJoining, modifyArray, Array.getElem?_modify]
  by_cases hj : joined = id
  · by_cases hlt : id < w.arrays.size
    · simp [hj, hlt]
    · simp [hj, hlt]
  · simp [hj]

theorem size_markJoining (joined : ArrayId) (joining : Bool) (w : World E) :
    (w.markJoining joined joining).arrays.size = w.arrays.size := by
  simp [markJoining, modifyArray]

/-- An array that does not exist is not marked. -/
theorem joining_of_size_le (h : w.arrays.size ≤ id) : (w.array id).joining = false := by
  rw [World.array, Array.getElem?_eq_none h]
  rfl

theorem elements_of_size_le (h : w.arrays.size ≤ id) : (w.array id).elements = #[] := by
  rw [World.array, Array.getElem?_eq_none h]
  rfl

namespace Bears

theorem congr (h : Bears start id total w) (hsize : w.arrays.size ≤ w'.arrays.size)
    (hj : (w'.array id).joining = (w.array id).joining) : Bears start id total w' := by
  refine ⟨hj ▸ h.bound, fun hid => ?_⟩
  obtain ⟨hlt, heq⟩ := h.settled hid
  exact ⟨Nat.lt_of_lt_of_le hlt hsize, hj ▸ heq⟩

theorem sameMarks (h : Bears start id total w) (hw : SameMarks w w') : Bears start id total w' :=
  h.congr hw.size (hw.joining id)

/-- Joining another array is not counted. -/
theorem markJoining_of_ne (h : Bears start id total w) {joined : ArrayId} (hj : joined ≠ id)
    (joining : Bool) : Bears start id total (w.markJoining joined joining) := by
  refine h.congr (Nat.le_of_eq (size_markJoining joined joining w).symm) ?_
  rw [joining_markJoining, if_neg fun hi => hj hi.1]

theorem mark (h : Bears start id total w) {joined : ArrayId}
    (hw : (w.array joined).joining = false) :
    Bears start id (marksOf id joined + total) (w.markJoining joined true) := by
  unfold marksOf
  by_cases hj : joined = id
  · subst hj
    rw [if_pos rfl]
    have hle := Bool.toNat_le ((w.markJoining joined true).array joined).joining
    refine ⟨by omega, fun hid => ?_⟩
    obtain ⟨hlt, heq⟩ := h.settled hid
    rw [hw, Bool.toNat_false] at heq
    rw [size_markJoining, joining_markJoining, if_pos ⟨rfl, hlt⟩, Bool.toNat_true]
    exact ⟨hlt, by omega⟩
  · rw [if_neg hj, Nat.zero_add]
    exact h.markJoining_of_ne hj true

theorem unmark {joined : ArrayId} (h : Bears start id (marksOf id joined + total) w) :
    Bears start id total (w.markJoining joined false) := by
  unfold marksOf at h
  by_cases hj : joined = id
  · subst hj
    rw [if_pos rfl] at h
    have hunmarked : ((w.markJoining joined false).array joined).joining = false := by
      rw [joining_markJoining]
      split
      · rfl
      · next hno =>
        exact joining_of_size_le (Nat.le_of_not_lt fun hlt => hno ⟨rfl, hlt⟩)
    have hle := Bool.toNat_le (w.array joined).joining
    refine ⟨by rw [hunmarked]; exact Nat.zero_le _, fun hid => ?_⟩
    obtain ⟨hlt, heq⟩ := h.settled hid
    rw [size_markJoining, hunmarked, Bool.toNat_false]
    exact ⟨hlt, by omega⟩
  · rw [if_neg hj, Nat.zero_add] at h
    exact h.markJoining_of_ne hj false

/-- When all joins have given their marks back, the mark is what it was at the start. -/
theorem joining_eq (h : Bears start id 0 w) :
    (w.array id).joining = (start.array id).joining := by
  have hsame : (w.array id).joining.toNat = (start.array id).joining.toNat := by
    by_cases hid : id < start.arrays.size
    · exact (h.settled hid).2
    · have hbound := h.bound
      rw [joining_of_size_le (Nat.le_of_not_lt hid)] at hbound ⊢
      exact Nat.le_zero.mp hbound
  revert hsame
  cases (w.array id).joining <;> cases (start.array id).joining <;> decide

end Bears

end World

end ScriptSandbox
