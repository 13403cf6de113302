import ScriptSandbox.Proofs.Operation.ArrayMembers

/-
  Names of elements.

  A name that is no index is empty, has a character that is no digit, has a leading zero, or is too
  large a numeral (`arrayIndex?_eq_none_iff_malformed`). An index has one name only, so what is
  written or deleted under one name leaves the element of every other name as it was
  (`ScriptArray.member_put_of_ne`, `ScriptArray.member_delete_of_ne`).
-/

namespace ScriptSandbox

open Number

/-! ## Names that are no index -/

theorem not_isCanonical_iff {cs : List Char} :
    ¬ IsCanonical cs ↔
      cs = [] ∨ (∃ c ∈ cs, c.isDigit = false) ∨ ∃ rest ≠ [], cs = '0' :: rest := by
  have hzero : ¬ (cs.head? = some '0' → cs.length ≤ 1) ↔ ∃ rest ≠ [], cs = '0' :: rest := by
    cases cs with
    | nil => simp
    | cons c rest => simp [and_comm]
  rw [IsCanonical, not_and_or, hzero, not_and_or, or_assoc]
  simp

theorem IsCanonical.eq_toString {name : String} (h : IsCanonical name.toList) :
    name = toString (natOfDigits name.toList) :=
  eq_toString_iff.mpr h.digitsOf_natOfDigits.symm

theorem arrayIndex?_eq_none_iff_not_isCanonical {name : String} :
    arrayIndex? name = none ↔ ¬ IsCanonical name.toList ∨ ∃ i ≥ 2 ^ 64, name = toString i := by
  constructor
  · intro hnone
    refine or_iff_not_imp_left.mpr fun hcanonical => ?_
    rw [not_not] at hcanonical
    refine ⟨_, ?_, hcanonical.eq_toString⟩
    by_contra hlt
    have hsome := arrayIndex?_eq_some_iff_isCanonical.mpr
      ⟨hcanonical, rfl, Nat.lt_of_not_le hlt⟩
    cases hnone.symm.trans hsome
  · intro h
    refine Option.eq_none_iff_forall_ne_some.mpr fun i hi => ?_
    rcases h with hnot | ⟨j, hj, rfl⟩
    · exact hnot (arrayIndex?_eq_some_iff_isCanonical.mp hi).1
    · obtain ⟨hname, hlt⟩ := arrayIndex?_eq_some_iff.mp hi
      have := toString_inj hname
      omega

theorem arrayIndex?_eq_none_iff_malformed {name : String} :
    arrayIndex? name = none ↔
      name.toList = [] ∨ (∃ c ∈ name.toList, c.isDigit = false) ∨
        (∃ rest ≠ [], name.toList = '0' :: rest) ∨ ∃ i ≥ 2 ^ 64, name = toString i := by
  rw [arrayIndex?_eq_none_iff_not_isCanonical, not_isCanonical_iff, or_assoc, or_assoc]

theorem arrayIndex?_inj {name other : String} {i : ℕ} (h : arrayIndex? name = some i)
    (h' : arrayIndex? other = some i) : name = other :=
  (arrayIndex?_eq_some_iff.mp h).1.trans (arrayIndex?_eq_some_iff.mp h').1.symm

/-! ## Elements of other names -/

namespace ScriptArray

variable {a a' : ScriptArray} {name other : String} {i : ℕ}

/-- Where one element has changed, the names of the others read what they read before. -/
theorem Becomes.member_of_ne {length : ℕ} {u : Value}
    (h : a.Becomes a' length (Function.update a.slot i u)) (hother : other ≠ "length")
    (hne : other ≠ toString i) : a'.member other = a.member other := by
  by_cases hindex : ∃ j < 2 ^ 64, other = toString j
  · obtain ⟨j, hj, rfl⟩ := hindex
    have hij : j ≠ i := fun hij => hne (hij ▸ rfl)
    rw [member_index hj, member_index hj, h.slot, Function.update_of_ne hij]
  · have hindex : ∀ j < 2 ^ 64, other ≠ toString j := fun j hj hname => hindex ⟨j, hj, hname⟩
    rw [ScriptArray.member_of_ne hother hindex, ScriptArray.member_of_ne hother hindex]

theorem member_put_of_ne (a : ScriptArray) (v : Value) (hname : name ≠ "length")
    (hother : other ≠ "length") (hne : other ≠ name) :
    (a.put name v).member other = a.member other := by
  by_cases hindex : ∃ i < 2 ^ 24, name = toString i
  · obtain ⟨i, hi, rfl⟩ := hindex
    exact (becomes_put_index hi).member_of_ne hother hne
  · rw [put_eq_self (fun i hi h => hindex ⟨i, hi, h⟩) fun h => absurd h hname]

theorem member_delete_of_ne (a : ScriptArray) (hother : other ≠ "length") (hne : other ≠ name) :
    (a.delete name).member other = a.member other := by
  by_cases hindex : ∃ i < a.elements.size, arrayIndex? name = some i
  · obtain ⟨i, hi, hname⟩ := hindex
    obtain ⟨rfl, hlt⟩ := arrayIndex?_eq_some_iff.mp hname
    exact (becomes_delete_index hi hlt).member_of_ne hother hne
  · have hsame : a.delete name = a := by
      unfold delete
      split
      · next i hi => exact if_neg fun hlt => hindex ⟨i, hlt, hi⟩
      · rfl
    rw [hsame]

end ScriptArray

/-- A name is read as an index `i` below `2 ^ 64` just when it is the numeral of `i` without leading
    zeros, and as none when it is the numeral of no such number: when it is empty, has a character
    other than an ASCII digit, has a leading zero or is the numeral of `2 ^ 64` or more. So no two
    names are read as one index, and whatever is written or deleted under one name, the element of
    another name stays as it is. -/
theorem array_names_canonical :
    (∀ name, ∀ i < 2 ^ 64, arrayIndex? name = some i ↔ name = toString i) ∧
    (∀ name, arrayIndex? name = none ↔ ∀ i < 2 ^ 64, name ≠ toString i) ∧
    (∀ name, arrayIndex? name = none ↔
      name.toList = [] ∨ (∃ c ∈ name.toList, c.isDigit = false) ∨
        (∃ rest ≠ [], name.toList = '0' :: rest) ∨ ∃ i ≥ 2 ^ 64, name = toString i) ∧
    ∀ name other, other ≠ name →
      (∀ i, arrayIndex? name = some i → arrayIndex? other ≠ some i) ∧
      (name ≠ "length" → other ≠ "length" → ∀ a : ScriptArray,
        (∀ v, (a.put name v).member other = a.member other) ∧
        (a.delete name).member other = a.member other) := by
  refine ⟨fun name i hi => ?_, fun name => arrayIndex?_eq_none_iff,
    fun name => arrayIndex?_eq_none_iff_malformed, fun name other hne => ⟨?_, ?_⟩⟩
  · rw [arrayIndex?_eq_some_iff, and_iff_left hi]
  · exact fun i hi hi' => hne (arrayIndex?_inj hi' hi)
  · exact fun hname hother a => ⟨fun v => a.member_put_of_ne v hname hother hne,
      a.member_delete_of_ne hother hne⟩

/-- The largest index and the number behind it, a sign, a blank and a digit of another script, and
    two spellings of seven. -/
theorem array_names_canonical_edges :
    arrayIndex? "18446744073709551615" = some 18446744073709551615 ∧
      arrayIndex? "18446744073709551616" = none ∧
      arrayIndex? "+1" = none ∧ arrayIndex? "1 " = none ∧ arrayIndex? "\u0663" = none ∧
      arrayIndex? "07" ≠ some 7 ∧
      (∀ v, (ScriptArray.put "7" v default).member "07" = (default : ScriptArray).member "07") := by
  obtain ⟨hsome, -, hnone, hdistinct⟩ := array_names_canonical
  obtain ⟨hindex, hmember⟩ := hdistinct "7" "07" (by decide)
  refine ⟨(hsome _ _ (by decide)).mpr (by decide +kernel), (hnone _).mpr ?_, (hnone _).mpr ?_,
    (hnone _).mpr ?_, (hnone _).mpr ?_, hindex 7 ((hsome _ _ (by decide)).mpr (by decide)),
    (hmember (by decide) (by decide) default).1⟩
  · exact .inr (.inr (.inr ⟨2 ^ 64, Nat.le_refl _, by decide +kernel⟩))
  · exact .inr (.inl ⟨'+', by decide, by decide⟩)
  · exact .inr (.inl ⟨' ', by decide, by decide⟩)
  · exact .inr (.inl ⟨'\u0663', by decide, by decide⟩)

end ScriptSandbox
