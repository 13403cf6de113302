import Mathlib.Algebra.Order.Field.Power
import Mathlib.Data.Rat.Cast.Order
import Mathlib.Tactic.FieldSimp
import Mathlib.Tactic.Linarith
import Mathlib.Tactic.NormNum
import Mathlib.Tactic.Positivity
import Mathlib.Tactic.Ring
import ScriptSandbox.Number.Binary64

/-
  Rounding to the nearest double.

  A finite double with significand `m` and place `q` is the magnitude `m * 2 ^ q`. Around it lie the
  rationals that are nearer to it than to its neighbours (`Rounds`): half a place on either side,
  the ends included when `m` is even, and a quarter below a power of two. The rounding of a quotient
  in there gives back the bits of the double (`Rounds.nearestMagnitude_eq`). A quotient just below a
  power of two has its last place one lower, and its significand rounds up to `2 ^ 53`.
-/

namespace ScriptSandbox

/-- A power with an integer exponent as a quotient of natural powers. -/
theorem zpow_eq_div_toNat (b : ℚ) (q : ℤ) : b ^ q = b ^ q.toNat / b ^ (-q).toNat := by
  cases q with
  | ofNat n => simp
  | negSucc n =>
    have hneg : (-Int.negSucc n).toNat = n + 1 := rfl
    rw [hneg, zpow_negSucc, Int.toNat_negSucc, pow_zero, one_div]

namespace Binary64

/-! ## Quotients -/

/-- The rounded quotient is the integer within a half of it; a half must go to an even one. -/
theorem roundHalfEven_of_le {num den k : ℕ} (hden : 0 < den) (hlow : 2 * (k * den) ≤ 2 * num + den)
    (hhigh : 2 * num ≤ 2 * (k * den) + den)
    (htie : k % 2 = 1 → 2 * (k * den) < 2 * num + den ∧ 2 * num < 2 * (k * den) + den) :
    roundHalfEven num den = k := by
  have hsplit : num / den * den + num % den = num := Nat.div_add_mod' num den
  have hrest : num % den < den := Nat.mod_lt num hden
  have hstep (i j : ℕ) (hij : i < j) : i * den + den ≤ j * den := by
    rw [← Nat.succ_mul]
    exact Nat.mul_le_mul_right den hij
  unfold roundHalfEven
  -- `k` can only be the quotient or the next integer, and the remainder decides between them
  rcases Nat.lt_trichotomy k (num / den) with hk | hk | hk
  · have := hstep k (num / den) hk
    omega
  · rw [← hk] at hsplit ⊢
    rw [if_pos (by omega)]
  · rcases Nat.lt_or_eq_of_le (Nat.succ_le_of_lt hk) with hk' | hk'
    · have := hstep (num / den).succ k hk'
      rw [Nat.succ_mul] at this
      omega
    · have hproduct : k * den = num / den * den + den := by rw [← hk', Nat.succ_mul]
      rw [if_neg (by omega)]
      exact hk'

theorem roundHalfEven_eq {num den k : ℕ} (hden : 0 < den) (hlow : (k : ℚ) - 1 / 2 ≤ num / den)
    (hhigh : (num / den : ℚ) ≤ k + 1 / 2)
    (htie : k % 2 = 1 → (k : ℚ) - 1 / 2 < num / den ∧ (num / den : ℚ) < k + 1 / 2) :
    roundHalfEven num den = k := by
  have hpos : (0 : ℚ) < den := by exact_mod_cast hden
  rw [le_div_iff₀ hpos] at hlow
  rw [div_le_iff₀ hpos] at hhigh
  rw [lt_div_iff₀ hpos, div_lt_iff₀ hpos] at htie
  refine roundHalfEven_of_le hden ?_ ?_ fun hodd => ?_
  · have : (2 * (k * den) : ℚ) ≤ 2 * num + den := by linarith
    exact_mod_cast this
  · have : (2 * num : ℚ) ≤ 2 * (k * den) + den := by linarith
    exact_mod_cast this
  · have hl : (2 * (k * den) : ℚ) < 2 * num + den := by linarith [(htie hodd).1]
    have hh : (2 * num : ℚ) < 2 * (k * den) + den := by linarith [(htie hodd).2]
    exact ⟨by exact_mod_cast hl, by exact_mod_cast hh⟩

section

variable {num den : ℕ}

theorem zpow_log2_le (hnum : 0 < num) : (2 : ℚ) ^ (Nat.log2 num : ℤ) ≤ num := by
  rw [zpow_natCast]
  exact_mod_cast Nat.log2_self_le hnum.ne'

theorem lt_zpow_log2 (num : ℕ) : (num : ℚ) < 2 ^ ((Nat.log2 num : ℤ) + 1) := by
  exact_mod_cast Nat.lt_log2_self

/-- The binary logarithms of numerator and denominator locate a quotient within two binades. -/
theorem zpow_log2_sub_lt (hnum : 0 < num) (hden : 0 < den) :
    (2 : ℚ) ^ ((Nat.log2 num : ℤ) - Nat.log2 den - 1) < num / den := by
  have hd : (0 : ℚ) < den := by exact_mod_cast hden
  have hsplit : (2 : ℚ) ^ ((Nat.log2 num : ℤ) - Nat.log2 den - 1) * 2 ^ ((Nat.log2 den : ℤ) + 1) =
      2 ^ (Nat.log2 num : ℤ) := by
    rw [← zpow_add₀ two_ne_zero]
    congr 1
    ring
  rw [lt_div_iff₀ hd]
  calc (2 : ℚ) ^ ((Nat.log2 num : ℤ) - Nat.log2 den - 1) * den
      < 2 ^ ((Nat.log2 num : ℤ) - Nat.log2 den - 1) * 2 ^ ((Nat.log2 den : ℤ) + 1) :=
        mul_lt_mul_of_pos_left (lt_zpow_log2 den) (by positivity)
    _ = 2 ^ (Nat.log2 num : ℤ) := hsplit
    _ ≤ num := zpow_log2_le hnum

theorem lt_zpow_log2_sub (num : ℕ) (hden : 0 < den) :
    (num / den : ℚ) < 2 ^ ((Nat.log2 num : ℤ) - Nat.log2 den + 1) := by
  have hd : (0 : ℚ) < den := by exact_mod_cast hden
  have hsplit : (2 : ℚ) ^ ((Nat.log2 num : ℤ) - Nat.log2 den + 1) * 2 ^ (Nat.log2 den : ℤ) =
      2 ^ ((Nat.log2 num : ℤ) + 1) := by
    rw [← zpow_add₀ two_ne_zero]
    congr 1
    ring
  rw [div_lt_iff₀ hd]
  calc (num : ℚ) < 2 ^ ((Nat.log2 num : ℤ) + 1) := lt_zpow_log2 num
    _ = 2 ^ ((Nat.log2 num : ℤ) - Nat.log2 den + 1) * 2 ^ (Nat.log2 den : ℤ) := hsplit.symm
    _ ≤ 2 ^ ((Nat.log2 num : ℤ) - Nat.log2 den + 1) * den :=
        mul_le_mul_of_nonneg_left (zpow_log2_le hden) (by positivity)

/-- A quotient scaled by a power of two on the side where the exponent is not negative. -/
theorem scaled_div (num den : ℕ) (q : ℤ) :
    ((num * Nat.pow 2 (-q).toNat : ℕ) : ℚ) / (den * Nat.pow 2 q.toNat : ℕ) =
      num / den / 2 ^ q := by
  rw [zpow_eq_div_toNat, Nat.pow_eq, Nat.pow_eq]
  push_cast
  rw [div_div_div_eq]

theorem floorLog2_bounds (hnum : 0 < num) (hden : 0 < den) :
    (2 : ℚ) ^ floorLog2 num den ≤ num / den ∧
      (num / den : ℚ) < 2 ^ (floorLog2 num den + 1) := by
  have hbelow := zpow_log2_sub_lt hnum hden
  have habove := lt_zpow_log2_sub num hden
  unfold floorLog2
  simp only
  generalize hguess : (Nat.log2 num : ℤ) - Nat.log2 den = guess at *
  have hscale : (0 : ℚ) < (den * Nat.pow 2 guess.toNat : ℕ) := by
    have : 0 < den * Nat.pow 2 guess.toNat := Nat.mul_pos hden (Nat.pow_pos (by decide))
    exact_mod_cast this
  have hcompare : num * Nat.pow 2 (-guess).toNat < den * Nat.pow 2 guess.toNat ↔
      (num / den : ℚ) < 2 ^ guess := by
    rw [← Nat.cast_lt (α := ℚ), ← div_lt_one hscale, scaled_div, div_lt_one (by positivity)]
  split
  · next h => exact ⟨hbelow.le, by rw [sub_add_cancel]; exact hcompare.mp h⟩
  · next h => exact ⟨not_lt.mp fun hlt => h (hcompare.mpr hlt), habove⟩

end

/-- The place of the last bit kept is `q` when the quotient has 53 bits above it, or fewer where
    `q` is the lowest place there is. -/
theorem lastPlace_eq {num den : ℕ} {q : ℤ} (hnum : 0 < num) (hden : 0 < den) (hplace : -1074 ≤ q)
    (hlow : (2 : ℚ) ^ (q + 52) ≤ num / den ∨ q = -1074) (hhigh : (num / den : ℚ) < 2 ^ (q + 53)) :
    lastPlace num den = q := by
  obtain ⟨hfloor, hceil⟩ := floorLog2_bounds hnum hden
  have hupper : floorLog2 num den < q + 53 :=
    (zpow_lt_zpow_iff_right₀ one_lt_two).mp (hfloor.trans_lt hhigh)
  unfold lastPlace
  rcases hlow with hlow | hlow
  · have hlower : q + 52 < floorLog2 num den + 1 :=
      (zpow_lt_zpow_iff_right₀ one_lt_two).mp (hlow.trans_lt hceil)
    omega
  · omega

/-! ## The bits of a double -/

section

variable {x : Binary64}

theorem magnitude_bits (x : Binary64) :
    x.bits.toNat % Nat.pow 2 63 = x.exponentField * Nat.pow 2 52 + x.fraction := by
  unfold exponentField fraction
  simp only [Nat.pow_eq, Nat.reducePow]
  omega

theorem fraction_lt (x : Binary64) : x.fraction < 2 ^ 52 :=
  Nat.mod_lt _ (by decide)

theorem exponentField_lt (h : x.isFinite = true) : x.exponentField < 2047 := by
  have hne : x.exponentField ≠ 2047 := by simpa [isFinite] using h
  have hlt : x.exponentField < Nat.pow 2 11 := Nat.mod_lt _ (by decide)
  simp only [Nat.pow_eq, Nat.reducePow] at hlt
  omega

theorem significand_lt (x : Binary64) : x.significand < 2 ^ 53 := by
  have := x.fraction_lt
  unfold significand
  simp only [Nat.pow_eq]
  split <;> omega

theorem le_place (x : Binary64) : -1074 ≤ x.place := by
  unfold place
  split <;> omega

theorem place_le (h : x.isFinite = true) : x.place ≤ 971 := by
  have := exponentField_lt h
  unfold place
  split <;> omega

/-- Only in the lowest place can a significand be without its hidden bit. -/
theorem le_significand_or_place_eq (x : Binary64) : 2 ^ 52 ≤ x.significand ∨ x.place = -1074 := by
  unfold significand place
  split
  · exact .inr rfl
  · exact .inl (Nat.le_add_left _ _)

theorem significand_pos (h : x.isZero = false) : 0 < x.significand := by
  have hparts : x.exponentField = 0 → x.fraction ≠ 0 := by simpa [isZero] using h
  unfold significand
  simp only [Nat.pow_eq]
  split <;> omega

/-- The magnitude bits count the doubles from zero, `2 ^ 52` for each place. -/
theorem magnitude_bits_eq (x : Binary64) :
    x.bits.toNat % Nat.pow 2 63 = (x.place + 1074).toNat * Nat.pow 2 52 + x.significand := by
  rw [magnitude_bits]
  unfold place significand
  simp only [Nat.pow_eq, Nat.reducePow]
  split <;> omega

@[simp]
theorem ofMagnitude_magnitude_bits (x : Binary64) :
    ofMagnitude x.isNegative (x.bits.toNat % Nat.pow 2 63) = x := by
  have hlt : x.bits.toNat < 2 ^ 64 := x.bits.toNat_lt
  have hbits : (if x.isNegative then x.bits.toNat % Nat.pow 2 63 + Nat.pow 2 63
      else x.bits.toNat % Nat.pow 2 63) = x.bits.toNat := by
    simp only [isNegative, Nat.pow_eq, Nat.reducePow, decide_eq_true_eq]
    split <;> omega
  unfold ofMagnitude
  rw [hbits, UInt64.ofNat_toNat]

theorem infinity_isNegative (h : x.isInfinite = true) : infinity x.isNegative = x := by
  have hparts : x.exponentField = 2047 ∧ x.fraction = 0 := by simpa [isInfinite] using h
  have hbits : x.bits.toNat % Nat.pow 2 63 = 2047 * Nat.pow 2 52 := by
    rw [magnitude_bits, hparts.1, hparts.2, Nat.add_zero]
  unfold infinity
  rw [← hbits, ofMagnitude_magnitude_bits]

end

/-! ## The rationals that round to a double -/

/-- How far the rounding interval reaches below the significand: the doubles below a power of two
    are twice as dense. -/
def reachBelow (x : Binary64) : ℚ := if x.significand = 2 ^ 52 then 1 / 4 else 1 / 2

/-- The rational `v` lies in the rounding interval of the double `x` taken positive. -/
structure Rounds (x : Binary64) (v : ℚ) : Prop where
  low : (x.significand - x.reachBelow) * 2 ^ x.place ≤ v
  high : v ≤ (x.significand + 1 / 2) * 2 ^ x.place
  /-- The ends belong to the double with an even significand. -/
  odd : x.significand % 2 = 1 →
    (x.significand - x.reachBelow) * 2 ^ x.place < v ∧ v < (x.significand + 1 / 2) * 2 ^ x.place

section

variable {x : Binary64} {v : ℚ}

theorem reachBelow_le (x : Binary64) : x.reachBelow ≤ 1 / 2 := by
  unfold reachBelow
  split <;> norm_num

theorem Rounds.pos (hv : x.Rounds v) (hm : 0 < x.significand) : 0 < v := by
  have hone : (1 : ℚ) ≤ x.significand := by exact_mod_cast hm
  have hpositive : (0 : ℚ) < x.significand - x.reachBelow := by linarith [x.reachBelow_le]
  exact lt_of_lt_of_le (mul_pos hpositive (by positivity)) hv.low

/-- A rational in the rounding interval measured in places of the double. -/
theorem Rounds.scaled (hv : x.Rounds v) :
    x.significand - x.reachBelow ≤ v / 2 ^ x.place ∧ v / 2 ^ x.place ≤ x.significand + 1 / 2 ∧
      (x.significand % 2 = 1 →
        x.significand - x.reachBelow < v / 2 ^ x.place ∧
          v / 2 ^ x.place < x.significand + 1 / 2) := by
  have hplace : (0 : ℚ) < 2 ^ x.place := by positivity
  rw [le_div_iff₀ hplace, div_le_iff₀ hplace, lt_div_iff₀ hplace, div_lt_iff₀ hplace]
  exact ⟨hv.low, hv.high, hv.odd⟩

theorem Rounds.lt_zpow (hv : x.Rounds v) : v < 2 ^ (x.place + 53) := by
  have hm : (x.significand : ℚ) + 1 ≤ 2 ^ 53 := by exact_mod_cast x.significand_lt
  rw [zpow_add₀ two_ne_zero, mul_comm]
  exact lt_of_le_of_lt hv.high (mul_lt_mul_of_pos_right (by norm_num at hm ⊢; linarith)
    (by positivity))

/-- A rational in the rounding interval of a normal double that lies below `2 ^ 52` places: the
    double is a power of two. -/
theorem Rounds.eq_of_lt (hv : x.Rounds v) (hm : 2 ^ 52 ≤ x.significand)
    (hlt : v < 2 ^ (x.place + 52)) : x.significand = 2 ^ 52 := by
  by_contra hne
  have hnext : (2 : ℚ) ^ 52 + 1 ≤ x.significand := by
    have : 2 ^ 52 + 1 ≤ x.significand := by omega
    exact_mod_cast this
  have hbelow : (2 : ℚ) ^ (52 : ℤ) ≤ x.significand - x.reachBelow := by
    rw [zpow_ofNat]
    linarith [x.reachBelow_le]
  have hbase : (2 : ℚ) ^ (x.place + 52) ≤ (x.significand - x.reachBelow) * 2 ^ x.place := by
    rw [zpow_add₀ two_ne_zero, mul_comm]
    exact mul_le_mul_of_nonneg_right hbelow (by positivity)
  linarith [hv.low]

section

variable {num den : ℕ}

/-- Rounding in the double's own place gives its significand. -/
theorem Rounds.roundHalfEven_eq (hden : 0 < den) (hv : x.Rounds (num / den)) :
    roundHalfEven (num * Nat.pow 2 (-x.place).toNat) (den * Nat.pow 2 x.place.toNat) =
      x.significand := by
  obtain ⟨hlow, hhigh, hodd⟩ := hv.scaled
  have hreach := x.reachBelow_le
  have hpos : 0 < den * Nat.pow 2 x.place.toNat := Nat.mul_pos hden (Nat.pow_pos (by decide))
  refine Binary64.roundHalfEven_eq hpos ?_ ?_ ?_
  · rw [scaled_div]
    linarith
  · rw [scaled_div]
    exact hhigh
  · intro h
    rw [scaled_div]
    exact ⟨by linarith [(hodd h).1], (hodd h).2⟩

/-- Rounding one place lower, just below a power of two, carries to the next power of two. -/
theorem Rounds.roundHalfEven_eq_carry (hden : 0 < den) (hv : x.Rounds (num / den))
    (hm : x.significand = 2 ^ 52) (hlt : (num / den : ℚ) < 2 ^ (x.place + 52)) :
    roundHalfEven (num * Nat.pow 2 (-(x.place - 1)).toNat) (den * Nat.pow 2 (x.place - 1).toNat) =
      2 ^ 53 := by
  have hplace : (2 : ℚ) ^ (x.place - 1) = 2 ^ x.place / 2 := zpow_sub_one₀ two_ne_zero _
  have hscaled : (num / den : ℚ) / 2 ^ (x.place - 1) = 2 * (num / den / 2 ^ x.place) := by
    rw [hplace]
    field_simp
  have hlow : (2 : ℚ) ^ 52 - 1 / 4 ≤ num / den / 2 ^ x.place := by
    have := hv.scaled.1
    rw [reachBelow, if_pos hm, hm] at this
    exact_mod_cast this
  have hhigh : (num / den : ℚ) / 2 ^ x.place < 2 ^ 52 := by
    rw [zpow_add₀ two_ne_zero, mul_comm] at hlt
    rw [div_lt_iff₀ (by positivity)]
    exact_mod_cast hlt
  have hpos : 0 < den * Nat.pow 2 (x.place - 1).toNat := Nat.mul_pos hden (Nat.pow_pos (by decide))
  refine Binary64.roundHalfEven_eq hpos ?_ ?_ ?_
  · rw [scaled_div, hscaled]
    norm_num at hlow ⊢
    linarith
  · rw [scaled_div, hscaled]
    norm_num at hhigh ⊢
    linarith
  · intro hodd
    norm_num at hodd

/-- Just below a power of two the last place is one lower. -/
theorem Rounds.lastPlace_eq_pred (hnum : 0 < num) (hden : 0 < den) (hv : x.Rounds (num / den))
    (hm : x.significand = 2 ^ 52) (hplace : x.place ≠ -1074)
    (hlt : (num / den : ℚ) < 2 ^ (x.place + 52)) : lastPlace num den = x.place - 1 := by
  have hlow : (2 : ℚ) ^ (x.place - 1 + 52) ≤ num / den := by
    refine le_trans ?_ hv.low
    rw [reachBelow, if_pos hm, hm, show x.place - 1 + 52 = 51 + x.place by ring,
      zpow_add₀ two_ne_zero]
    refine mul_le_mul_of_nonneg_right ?_ (by positivity)
    norm_num
  have hlowest := x.le_place
  refine lastPlace_eq hnum hden (by omega) (.inl hlow) ?_
  rw [show x.place - 1 + 53 = x.place + 52 by ring]
  exact hlt

/-- Every quotient in the rounding interval of a double rounds to its magnitude bits. -/
theorem Rounds.nearestMagnitude_eq (hfinite : x.isFinite = true) (hm : 0 < x.significand)
    (hden : 0 < den) (hv : x.Rounds (num / den)) :
    nearestMagnitude num den = x.bits.toNat % Nat.pow 2 63 := by
  have hnum : 0 < num := by
    rcases Nat.eq_zero_or_pos num with rfl | h
    · exact absurd (hv.pos hm) (by simp)
    · exact h
  have hcap : (x.place + 1074).toNat * Nat.pow 2 52 + x.significand ≤ 2047 * Nat.pow 2 52 := by
    rw [← magnitude_bits_eq, magnitude_bits]
    have := exponentField_lt hfinite
    have := x.fraction_lt
    simp only [Nat.pow_eq]
    omega
  have hplace := x.le_place
  unfold nearestMagnitude
  rw [if_neg hnum.ne', magnitude_bits_eq]
  by_cases hown : (2 : ℚ) ^ (x.place + 52) ≤ num / den ∨ x.place = -1074
  · have hlast : lastPlace num den = x.place := lastPlace_eq hnum hden hplace hown hv.lt_zpow
    simp only [hlast, hv.roundHalfEven_eq hden]
    exact min_eq_left hcap
  · -- rounding carries into the exponent
    rw [not_or, not_le] at hown
    have hnormal : 2 ^ 52 ≤ x.significand :=
      x.le_significand_or_place_eq.resolve_right hown.2
    have hpower : x.significand = 2 ^ 52 := hv.eq_of_lt hnormal hown.1
    have hlast : lastPlace num den = x.place - 1 :=
      hv.lastPlace_eq_pred hnum hden hpower hown.2 hown.1
    simp only [hlast, hv.roundHalfEven_eq_carry hden hpower hown.1]
    rw [hpower] at hcap ⊢
    simp only [Nat.pow_eq] at hcap ⊢
    omega

/-- A quotient in the rounding interval of a double, with the sign of the double, is the double. -/
theorem Rounds.ofRatio_eq (hfinite : x.isFinite = true) (hm : 0 < x.significand) (hden : 0 < den)
    (hv : x.Rounds (num / den)) : ofRatio x.isNegative num den = x := by
  unfold ofRatio
  rw [hv.nearestMagnitude_eq hfinite hm hden, ofMagnitude_magnitude_bits]

end

end

end Binary64

end ScriptSandbox
