import Mathlib.Data.Int.ModEq
import ScriptSandbox.Number.Word
import ScriptSandbox.Proofs.Number.Arithmetic

/-
  The conversions to words are exact.

  A double is reduced to a word in doubles: it is cut to its integer part, divided by `2 ^ 32` with
  a remainder that is moved up when it is negative, moved down again for a signed word, and cast.
  No step rounds, because the integer part and the remainder of a double are doubles and the other
  results are integers below `2 ^ 53`, and no cast clamps. So `toUInt32` is the integer part modulo
  `2 ^ 32`, and `toInt32` its representative between `-2 ^ 31` and `2 ^ 31`.
-/

namespace ScriptSandbox.Binary64

section

variable {x : Binary64} {i : ℤ}

/-! ## The steps -/

theorem wordSpan_represents : wordSpan.Represents (4294967296 : ℤ) :=
  ofNat_represents (by norm_num)

theorem signedSpan_represents : signedSpan.Represents (2147483648 : ℤ) :=
  ofNat_represents (by norm_num)

theorem wrapped_represents (h : x.isFinite = true) :
    x.wrapped.Represents (integerPart x.value % 2 ^ 32 : ℤ) :=
  (represents_trunc h).remEuclid wordSpan_represents (by norm_num) (by norm_num)

/-- A cast does not move an integer that is in range. -/
theorem clamp_eq (h : x.Represents i) {low high : ℤ} (hlow : low ≤ i) (hhigh : i ≤ high) :
    x.clamp low high = i := by
  have htruncate : x.truncate = i := by rw [truncate_eq, h.value, integerPart_intCast]
  unfold clamp
  rw [isNaN_of_isFinite h.isFinite, isInfinite_of_isFinite h.isFinite, htruncate]
  simp only [Bool.false_eq_true, if_false]
  omega

theorem toNat_clampUInt32 (h : x.Represents i) (hlow : 0 ≤ i) (hhigh : i < 2 ^ 32) :
    (x.clampUInt32.toNat : ℤ) = i := by
  unfold clampUInt32
  rw [clamp_eq h hlow (by omega), UInt32.toNat_ofNat']
  omega

theorem toInt_clampInt32 (h : x.Represents i) (hlow : -2 ^ 31 ≤ i) (hhigh : i < 2 ^ 31) :
    x.clampInt32.toInt = i := by
  unfold clampInt32
  rw [clamp_eq h (by omega) (by omega), Int32.toInt_ofInt_of_le (by omega) (by omega)]

/-! ## The words -/

theorem integerPart_of_isZero (h : x.isZero = true) : integerPart x.value = 0 := by
  have hzero : x.value = 0 := by
    rw [← abs_eq_zero, abs_value, magnitude_eq_zero_iff, h]
  rw [hzero]
  simp [integerPart]

theorem toNat_toUInt32 (h : x.isFinite = true) :
    (x.toUInt32.toNat : ℤ) = integerPart x.value % 2 ^ 32 := by
  unfold toUInt32
  rw [h, Bool.not_true, Bool.false_or]
  split
  · next hzero =>
    rw [integerPart_of_isZero hzero]
    rfl
  · exact toNat_clampUInt32 (wrapped_represents h) (by omega) (by omega)

theorem toInt_toInt32 (h : x.isFinite = true) :
    x.toInt32.toInt = (integerPart x.value).bmod (2 ^ 32) := by
  have hwrapped := wrapped_represents h
  have hupper : signedSpan.le x.wrapped = true ↔ 2147483648 ≤ integerPart x.value % 2 ^ 32 := by
    rw [le_iff signedSpan_represents.isFinite hwrapped.isFinite, signedSpan_represents.value,
      hwrapped.value, Int.cast_le]
  rw [Int.bmod_eq_emod]
  unfold toInt32
  rw [h, Bool.not_true, Bool.false_or]
  split
  · next hzero =>
    rw [integerPart_of_isZero hzero]
    rfl
  · split
    · next hle =>
      rw [hupper] at hle
      have hmoved := hwrapped.sub wordSpan_represents
        (by rw [abs_lt]; constructor <;> omega)
      rw [toInt_clampInt32 hmoved (by omega) (by omega), if_pos (by omega)]
      rfl
    · next hle =>
      rw [hupper] at hle
      rw [toInt_clampInt32 hwrapped (by omega) (by omega), if_neg (by omega)]
      exact (sub_zero _).symm

theorem words_of_not_isFinite (h : x.isFinite = false) : x.toUInt32 = 0 ∧ x.toInt32 = 0 := by
  unfold toUInt32 toInt32
  rw [h]
  exact ⟨rfl, rfl⟩

theorem isFinite_eq_false (h : x.isNaN = true ∨ x.isInfinite = true) : x.isFinite = false := by
  have hfield : x.exponentField = 2047 := by
    unfold isNaN isInfinite at h
    simp only [decide_eq_true_eq] at h
    exact h.elim And.left And.left
  simp [isFinite, hfield]

/-- The signed and the unsigned word have the same bits. -/
theorem toBitVec_toInt32 (x : Binary64) : x.toInt32.toBitVec = x.toUInt32.toBitVec := by
  cases h : x.isFinite with
  | false =>
    rw [(words_of_not_isFinite h).1, (words_of_not_isFinite h).2]
    rfl
  | true =>
    refine BitVec.eq_of_toInt_eq ?_
    have hsigned : x.toInt32.toBitVec.toInt = (integerPart x.value).bmod (2 ^ 32) := toInt_toInt32 h
    have hunsigned : (x.toUInt32.toBitVec.toNat : ℤ) = integerPart x.value % 2 ^ 32 :=
      toNat_toUInt32 h
    rw [hsigned, BitVec.toInt_eq_toNat_bmod, hunsigned, ← Int.emod_bmod]
    rfl

theorem ofInt_nearest (i : ℤ) : (ofInt i).Nearest i := by
  have hexact : (if (decide (i < 0) : Bool) then -((i.natAbs : ℚ) / (1 : ℕ))
      else (i.natAbs : ℚ) / (1 : ℕ)) = i := by
    rw [Nat.cast_one, div_one, Nat.cast_natAbs]
    rcases lt_or_ge i 0 with hi | hi
    · rw [if_pos (decide_eq_true hi), abs_of_neg hi, Int.cast_neg, neg_neg]
    · rw [if_neg (by simpa using hi), abs_of_nonneg hi]
  rw [← hexact]
  exact ofRatio_nearest _ _ one_pos

theorem ofInt32_represents (i : Int32) : (ofInt32 i).Represents i.toInt := by
  have hlow := i.le_toInt
  have hhigh := i.toInt_lt
  obtain ⟨y, hy⟩ := exists_represents (i := i.toInt) (by rw [abs_lt]; constructor <;> omega)
  exact (ofInt_nearest i.toInt).represents hy

theorem Represents.toInt32_eq {i : Int32} (h : x.Represents i.toInt) : x.toInt32 = i := by
  have hlow := i.le_toInt
  have hhigh := i.toInt_lt
  refine Int32.toInt_inj.mp ?_
  rw [toInt_toInt32 h.isFinite, h.value, integerPart_intCast, Int.bmod_eq_emod]
  split <;> omega

/-- NaN and the infinities go to zero. The word of a finite double is its integer part modulo
    `2 ^ 32`, unsigned and signed with the same bits, and a double that is a signed word already
    goes to itself. -/
theorem toUInt32_toInt32_exact (x : Binary64) :
    (x.isNaN = true ∨ x.isInfinite = true → x.toUInt32 = 0 ∧ x.toInt32 = 0) ∧
    (x.isFinite = true →
      (x.toUInt32.toNat : ℤ) = integerPart x.value % 2 ^ 32 ∧
      -2 ^ 31 ≤ x.toInt32.toInt ∧ x.toInt32.toInt < 2 ^ 31 ∧
      x.toInt32.toInt ≡ integerPart x.value [ZMOD 2 ^ 32]) ∧
    x.toInt32.toBitVec = x.toUInt32.toBitVec ∧
    ∀ i : Int32, (ofInt32 i).Represents i.toInt ∧ (x.Represents i.toInt → x.toInt32 = i) := by
  refine ⟨fun h => words_of_not_isFinite (isFinite_eq_false h),
    fun h => ⟨toNat_toUInt32 h, x.toInt32.le_toInt, x.toInt32.toInt_lt, ?_⟩,
    x.toBitVec_toInt32, fun i => ⟨ofInt32_represents i, Represents.toInt32_eq⟩⟩
  rw [toInt_toInt32 h]
  exact Int.bmod_emod

/-- At NaN, at `-4294967297.5`, and at the least signed word. -/
theorem toUInt32_toInt32_exact_wide :
    (nan.isNaN = true ∧ nan.toUInt32 = 0 ∧ nan.toInt32 = 0) ∧
    (isFinite ⟨0xC1F0000000180000⟩ = true ∧
      ((toUInt32 ⟨0xC1F0000000180000⟩).toNat : ℤ) = -4294967297 % 2 ^ 32 ∧
      -2 ^ 31 ≤ (toInt32 ⟨0xC1F0000000180000⟩).toInt ∧
      (toInt32 ⟨0xC1F0000000180000⟩).toInt < 2 ^ 31 ∧
      (toInt32 ⟨0xC1F0000000180000⟩).toInt ≡ -4294967297 [ZMOD 2 ^ 32]) ∧
    (ofInt32 (-2147483648)).toInt32 = -2147483648 := by
  have hnan : nan.isNaN = true := by decide
  have hfinite : isFinite ⟨0xC1F0000000180000⟩ = true := by decide
  have hpart : integerPart (value ⟨0xC1F0000000180000⟩) = -4294967297 := by
    rw [← truncate_eq]
    decide +kernel
  have hwide := (toUInt32_toInt32_exact ⟨0xC1F0000000180000⟩).2.1 hfinite
  rw [hpart] at hwide
  have hleast := toUInt32_toInt32_exact (ofInt32 (-2147483648))
  exact ⟨⟨hnan, (toUInt32_toInt32_exact nan).1 (.inl hnan)⟩, ⟨hfinite, hwide⟩,
    (hleast.2.2.2 _).2 (hleast.2.2.2 _).1⟩

end

end ScriptSandbox.Binary64
