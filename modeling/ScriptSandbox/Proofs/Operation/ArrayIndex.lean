import ScriptSandbox.Operation.Member
import ScriptSandbox.Proofs.Number.ReadBack

/-
  Names that are indexes.

  A name is read as an index when it is a run of digits without a leading zero. Such a run is the
  numeral of the number that it denotes (`digitsOf_natOfDigits`), and a numeral has no leading zero
  (`head?_digitsOf`). So a name is the index `i` exactly when it is the numeral of `i`
  (`arrayIndex?_eq_some_iff`).
-/

namespace ScriptSandbox

namespace Number

/-! ## Numerals without leading zeros -/

theorem exists_digitChar_of_isDigit {c : Char} (h : c.isDigit = true) :
    ∃ d < 10, Nat.digitChar d = c := by
  have hrange : 48 ≤ c.toNat ∧ c.toNat ≤ 57 := by
    simpa [Char.isDigit, UInt32.le_iff_toNat_le] using h
  refine ⟨c.toNat - 48, by omega, Char.toNat_inj.mp ?_⟩
  rw [Nat.toNat_digitChar_of_lt_ten (by omega)]
  omega

/-- Digits that are read on from a number extend its numeral. -/
theorem digitsOf_ofDigitChars {cs : List Char} (h : ∀ c ∈ cs, c.isDigit = true) {n : ℕ}
    (hn : 0 < n) : digitsOf (Nat.ofDigitChars 10 cs n) = digitsOf n ++ cs := by
  induction cs generalizing n with
  | nil => rw [Nat.ofDigitChars_nil, List.append_nil]
  | cons c cs ih =>
    obtain ⟨d, hd, rfl⟩ := exists_digitChar_of_isDigit (h c List.mem_cons_self)
    have hone : digitsOf (10 * n + d) = digitsOf n ++ [Nat.digitChar d] := by
      rw [digitsOf, ← Nat.toDigits_append_toDigits (by decide) hn hd, Nat.toDigits_of_lt_base hd]
      rfl
    rw [Nat.ofDigitChars_cons_digitChar_of_lt_ten hd,
      ih (fun c hc => h c (List.mem_cons_of_mem _ hc)) (by omega), hone, List.append_assoc]
    rfl

theorem digitsOf_natOfDigits {c : Char} {cs : List Char} (h : ∀ d ∈ c :: cs, d.isDigit = true)
    (hzero : c = '0' → cs = []) : digitsOf (natOfDigits (c :: cs)) = c :: cs := by
  obtain ⟨d, hd, rfl⟩ := exists_digitChar_of_isDigit (h c List.mem_cons_self)
  rw [natOfDigits_eq, Nat.ofDigitChars_cons_digitChar_of_lt_ten hd, Nat.mul_zero, Nat.zero_add]
  rcases Nat.eq_zero_or_pos d with rfl | hpos
  · rw [hzero rfl]
    rfl
  · rw [digitsOf_ofDigitChars (fun c hc => h c (List.mem_cons_of_mem _ hc)) hpos, digitsOf,
      Nat.toDigits_of_lt_base hd]
    rfl

theorem head?_digitsOf {n : ℕ} (hn : 0 < n) : (digitsOf n).head? ≠ some '0' := by
  induction n using Nat.strong_induction_on with
  | _ n ih =>
    rcases Nat.lt_or_ge n 10 with hlt | hge
    · rw [digitsOf, Nat.toDigits_of_lt_base hlt, List.head?_cons]
      intro h
      have := Nat.digitChar_eq_zero.mp (Option.some_inj.mp h)
      omega
    · rw [digitsOf, Nat.toDigits_of_base_le (by decide) hge,
        List.head?_append_of_ne_nil _ Nat.toDigits_ne_nil]
      exact ih (n / 10) (by omega) (by omega)

end Number

open Number

/-! ## Indexes -/

/-- Digits without a leading zero. -/
def IsCanonical (cs : List Char) : Prop :=
  (cs ≠ [] ∧ ∀ c ∈ cs, c.isDigit = true) ∧ (cs.head? = some '0' → cs.length ≤ 1)

theorem isCanonical_digitsOf (n : ℕ) : IsCanonical (digitsOf n) := by
  refine ⟨⟨digitsOf_ne_nil n, fun _ => isDigit_of_mem_digitsOf⟩, fun h => ?_⟩
  rcases Nat.eq_zero_or_pos n with rfl | hn
  · exact Nat.le_refl 1
  · exact absurd h (head?_digitsOf hn)

theorem IsCanonical.digitsOf_natOfDigits {cs : List Char} (h : IsCanonical cs) :
    digitsOf (natOfDigits cs) = cs := by
  obtain ⟨⟨hne, hdigits⟩, hzero⟩ := h
  cases cs with
  | nil => exact absurd rfl hne
  | cons c cs =>
    refine Number.digitsOf_natOfDigits hdigits fun hc => ?_
    have hlength := hzero (congrArg some hc)
    exact List.length_eq_zero_iff.mp (Nat.le_zero.mp (Nat.le_of_succ_le_succ hlength))

theorem arrayIndex?_eq_some_iff_isCanonical {name : String} {i : ℕ} :
    arrayIndex? name = some i ↔
      IsCanonical name.toList ∧ natOfDigits name.toList = i ∧ i < 2 ^ 64 := by
  have hrun (cs : List Char) : (cs.isEmpty || !cs.all Char.isDigit) = true ↔
      ¬ (cs ≠ [] ∧ ∀ c ∈ cs, c.isDigit = true) := by
    simp [-not_and, Classical.not_and_iff_not_or_not]
  have hzero (cs : List Char) : (decide (cs.length > 1) && decide (cs.head? = some '0')) = true ↔
      ¬ (cs.head? = some '0' → cs.length ≤ 1) := by
    simp [and_comm]
  simp only [arrayIndex?, hrun, hzero, Option.ite_none_left_eq_some, not_not,
    Option.ite_none_right_eq_some, Option.some_inj, IsCanonical, and_assoc]
  constructor
  · rintro ⟨hne, hdigits, hhead, hlt, rfl⟩
    exact ⟨hne, hdigits, hhead, rfl, hlt⟩
  · rintro ⟨hne, hdigits, hhead, rfl, hlt⟩
    exact ⟨hne, hdigits, hhead, hlt, rfl⟩

theorem eq_toString_iff {name : String} {i : ℕ} :
    name = toString i ↔ name.toList = digitsOf i := by
  rw [← String.toList_inj]
  exact Eq.congr_right Nat.toList_repr

theorem toString_inj {i j : ℕ} (h : toString i = toString j) : i = j := by
  have hdigits : digitsOf i = digitsOf j := Nat.toList_repr.symm.trans (eq_toString_iff.mp h)
  rw [← natOfDigits_digitsOf i, hdigits, natOfDigits_digitsOf]

/-- The names that are read as an index are the numerals below `2 ^ 64`. -/
theorem arrayIndex?_eq_some_iff {name : String} {i : ℕ} :
    arrayIndex? name = some i ↔ name = toString i ∧ i < 2 ^ 64 := by
  rw [arrayIndex?_eq_some_iff_isCanonical, eq_toString_iff]
  constructor
  · rintro ⟨hcanonical, rfl, hi⟩
    exact ⟨hcanonical.digitsOf_natOfDigits.symm, hi⟩
  · rintro ⟨hname, hi⟩
    rw [hname]
    exact ⟨isCanonical_digitsOf i, natOfDigits_digitsOf i, hi⟩

theorem arrayIndex?_eq_none_iff {name : String} :
    arrayIndex? name = none ↔ ∀ i < 2 ^ 64, name ≠ toString i := by
  rw [Option.eq_none_iff_forall_ne_some]
  exact forall_congr' fun i => by rw [ne_eq, arrayIndex?_eq_some_iff, and_comm, not_and]

theorem toString_ne_length (i : ℕ) : toString i ≠ "length" := by
  intro h
  have hmem : 'l' ∈ digitsOf i := by
    rw [← eq_toString_iff.mp h.symm]
    decide
  exact absurd (isDigit_of_mem_digitsOf hmem) (by decide)

end ScriptSandbox
