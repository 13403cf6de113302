import Mathlib.Data.Nat.Bitwise
import ScriptSandbox.Proofs.Number.Nearest

/-
  Arithmetic on finite doubles.

  Comparison goes by the value (`lt_iff`, `le_iff`). A sum, a difference and a product of finite
  doubles is the double nearest to the exact result (`add_nearest`, `sub_nearest`, `mul_nearest`),
  so it is the exact result where this is a double. The integer part and the remainder of a
  division are always exact (`represents_trunc`, `Represents.remainder`, `Represents.remEuclid`):
  they have no more bits than the operands.
-/

namespace ScriptSandbox

theorem natAbs_integerPart (v : ℚ) : (integerPart v).natAbs = ⌊|v|⌋₊ := by
  have hfloor (w : ℚ) (hw : 0 ≤ w) : (integerPart w).natAbs = ⌊w⌋₊ := by
    unfold integerPart
    rw [if_pos hw, ← Int.natCast_floor_eq_floor hw, Int.natAbs_natCast]
  rcases le_total 0 v with h | h
  · rw [abs_of_nonneg h, hfloor v h]
  · rw [abs_of_nonpos h, ← hfloor (-v) (by linarith), integerPart_neg, Int.natAbs_neg]

namespace Binary64

section

variable {x y a b : Binary64} {v w : ℚ} {i j : ℤ}

theorem isNaN_of_isFinite (h : x.isFinite = true) : x.isNaN = false := by
  have hfield : x.exponentField ≠ 2047 := by simpa [isFinite] using h
  simp [isNaN, hfield]

theorem isInfinite_of_isFinite (h : x.isFinite = true) : x.isInfinite = false := by
  have hfield : x.exponentField ≠ 2047 := by simpa [isFinite] using h
  simp [isInfinite, hfield]

/-! ## The sign -/

theorem nearestMagnitude_lt (num den : ℕ) : nearestMagnitude num den < 2 ^ 63 := by
  unfold nearestMagnitude
  split
  · omega
  · refine (min_le_right _ _).trans_lt ?_
    simp only [Nat.pow_eq]
    omega

theorem isNegative_ofRatio (negative : Bool) (num den : ℕ) :
    (ofRatio negative num den).isNegative = negative :=
  isNegative_ofMagnitude (nearestMagnitude_lt num den)

/-- Doubles with the same magnitude bits differ in the sign only. -/
theorem parts_congr (h : x.bits.toNat % Nat.pow 2 63 = y.bits.toNat % Nat.pow 2 63) :
    x.exponentField = y.exponentField ∧ x.fraction = y.fraction := by
  have hx := x.fraction_lt
  have hy := y.fraction_lt
  rw [magnitude_bits, magnitude_bits, Nat.pow_eq] at h
  omega

theorem represents_congr (h : x.bits.toNat % Nat.pow 2 63 = y.bits.toNat % Nat.pow 2 63)
    (hx : x.isFinite = true) :
    y.Represents (if y.isNegative then -x.magnitude else x.magnitude) := by
  obtain ⟨hfield, hfraction⟩ := parts_congr h
  constructor
  · unfold isFinite at hx ⊢
    rwa [← hfield]
  · have hmagnitude : y.magnitude = x.magnitude := by
      unfold magnitude significand place
      rw [hfield, hfraction]
    rw [value, hmagnitude]

theorem isNegative_neg (x : Binary64) : x.neg.isNegative = !x.isNegative := by
  unfold isNegative neg
  rw [UInt64.toNat_xor, Nat.pow_eq]
  have hsign : (x.bits.toNat ^^^ UInt64.toNat 0x8000000000000000) / 2 ^ 63 % 2 =
      (x.bits.toNat / 2 ^ 63 + 1) % 2 := by
    have hone : UInt64.toNat 0x8000000000000000 / 2 ^ 63 = 1 := by decide
    rw [Nat.xor_div_two_pow, hone, Nat.xor_mod_two_eq]
  rw [hsign, ← decide_not]
  congr 1
  rw [eq_iff_iff]
  omega

theorem Represents.neg (h : x.Represents v) : x.neg.Represents (-v) := by
  have hbits : x.bits.toNat % Nat.pow 2 63 = x.neg.bits.toNat % Nat.pow 2 63 := by
    unfold Binary64.neg
    rw [UInt64.toNat_xor, Nat.pow_eq, Nat.xor_mod_two_pow]
    have hzero : UInt64.toNat 0x8000000000000000 % 2 ^ 63 = 0 := by decide
    rw [hzero, Nat.xor_zero]
  have hneg := represents_congr hbits h.isFinite
  rw [isNegative_neg] at hneg
  rw [← h.value, Binary64.value]
  cases hsign : x.isNegative <;> rw [hsign] at hneg
  · exact hneg
  · rw [if_pos rfl, neg_neg]
    exact hneg

theorem Represents.abs (h : x.Represents v) : x.abs.Represents |v| := by
  have hlt : x.bits.toNat % Nat.pow 2 63 < 2 ^ 63 := Nat.mod_lt _ (by decide)
  have hbits : x.bits.toNat % Nat.pow 2 63 = x.abs.bits.toNat % Nat.pow 2 63 := by
    unfold Binary64.abs
    rw [bits_ofMagnitude hlt, if_neg Bool.false_ne_true, Nat.pow_eq, Nat.mod_mod]
  have habs := represents_congr hbits h.isFinite
  have hsign : x.abs.isNegative = false := isNegative_ofMagnitude hlt
  rw [hsign, if_neg Bool.false_ne_true] at habs
  rwa [← h.value, abs_value]

/-! ## Order -/

/-- The magnitude bits count the doubles from zero on. -/
theorem magnitude_lt_of_bits_lt (h : x.bits.toNat % Nat.pow 2 63 < y.bits.toNat % Nat.pow 2 63) :
    x.magnitude < y.magnitude := by
  rw [magnitude_bits_eq, magnitude_bits_eq, Nat.pow_eq] at h
  have hlow := x.le_place
  have hlow' := y.le_place
  have hnormal := x.le_significand_or_place_eq
  have hnormal' := y.le_significand_or_place_eq
  have hlt := x.significand_lt
  have hlt' := y.significand_lt
  unfold magnitude
  rcases lt_trichotomy x.place y.place with hplace | hplace | hplace
  · have hlt : (x.significand : ℚ) < 2 ^ 53 := by exact_mod_cast hlt
    have hlarge : 2 ^ 52 ≤ y.significand := by omega
    have hlarge' : (2 : ℚ) ^ 52 ≤ y.significand := by exact_mod_cast hlarge
    calc (x.significand * 2 ^ x.place : ℚ) < 2 ^ 53 * 2 ^ x.place :=
          mul_lt_mul_of_pos_right hlt (by positivity)
      _ = 2 ^ 52 * 2 ^ (x.place + 1) := by
          rw [zpow_add_one₀ two_ne_zero]
          ring
      _ ≤ y.significand * 2 ^ y.place :=
          mul_le_mul hlarge' (zpow_le_zpow_right₀ one_le_two (by omega)) (by positivity)
            (by positivity)
  · rw [hplace]
    refine mul_lt_mul_of_pos_right ?_ (by positivity)
    have : x.significand < y.significand := by omega
    exact_mod_cast this
  · omega

theorem magnitude_lt_iff :
    x.magnitude < y.magnitude ↔ x.bits.toNat % Nat.pow 2 63 < y.bits.toNat % Nat.pow 2 63 := by
  refine ⟨fun h => ?_, magnitude_lt_of_bits_lt⟩
  by_contra hle
  rcases (not_lt.mp hle).lt_or_eq with hlt | heq
  · exact absurd h (magnitude_lt_of_bits_lt hlt).not_gt
  · obtain ⟨hfield, hfraction⟩ := parts_congr heq
    unfold magnitude significand place at h
    rw [hfield, hfraction] at h
    exact absurd h (lt_irrefl _)

/-- The rank orders the doubles as their values do. -/
theorem rank_lt_iff : x.rank < y.rank ↔ x.value < y.value := by
  have hx := x.magnitude_nonneg
  have hy := y.magnitude_nonneg
  have hforward := magnitude_lt_iff (x := x) (y := y)
  have hbackward := magnitude_lt_iff (x := y) (y := x)
  -- compared with zero, whose magnitude bits are zero
  have hzero : zero.bits.toNat % Nat.pow 2 63 = 0 := by decide
  have hnone : zero.magnitude = 0 := by
    rw [magnitude_eq_zero_iff]
    decide
  have hx' := magnitude_lt_iff (x := zero) (y := x)
  have hy' := magnitude_lt_iff (x := zero) (y := y)
  rw [hzero, hnone] at hx' hy'
  unfold rank value
  simp only
  cases x.isNegative <;> cases y.isNegative <;>
    simp only [if_true, Bool.false_eq_true, if_false]
  · rw [hforward]
    omega
  · constructor <;> intro h
    · omega
    · linarith
  · rw [neg_lt_iff_pos_add]
    constructor <;> intro h
    · rcases Nat.eq_zero_or_pos (x.bits.toNat % Nat.pow 2 63) with hbits | hbits
      · have : 0 < y.magnitude := hy'.mpr (by omega)
        linarith
      · have : 0 < x.magnitude := hx'.mpr hbits
        linarith
    · rcases hx.eq_or_lt with hmagnitude | hmagnitude
      · have := hy'.mp (by linarith)
        omega
      · have := hx'.mp hmagnitude
        omega
  · rw [neg_lt_neg_iff, neg_lt_neg_iff, hbackward]
    omega

theorem lt_iff (hx : x.isFinite = true) (hy : y.isFinite = true) :
    x.lt y = true ↔ x.value < y.value := by
  simp [lt, isNaN_of_isFinite hx, isNaN_of_isFinite hy, rank_lt_iff]

theorem le_iff (hx : x.isFinite = true) (hy : y.isFinite = true) :
    x.le y = true ↔ x.value ≤ y.value := by
  simp [le, isNaN_of_isFinite hx, isNaN_of_isFinite hy, ← not_lt, rank_lt_iff]

/-! ## Sums and products -/

theorem mul_eq (ha : a.isFinite = true) (hb : b.isFinite = true) :
    a.mul b = ofScaled (a.isNegative != b.isNegative) (a.significand * b.significand)
      (a.place + b.place) := by
  unfold mul arithmetic
  rw [isNaN_of_isFinite ha, isNaN_of_isFinite hb]
  simp [isInfinite_of_isFinite ha, isInfinite_of_isFinite hb]

theorem mul_nearest (ha : a.isFinite = true) (hb : b.isFinite = true) :
    (a.mul b).Nearest (a.value * b.value) := by
  have hexact : (if a.isNegative != b.isNegative then
        -(((a.significand * b.significand : ℕ) : ℚ) * 2 ^ (a.place + b.place))
      else ((a.significand * b.significand : ℕ) : ℚ) * 2 ^ (a.place + b.place)) =
      a.value * b.value := by
    unfold value magnitude
    rw [zpow_add₀ two_ne_zero]
    cases a.isNegative <;> cases b.isNegative <;> simp <;> ring
  rw [mul_eq ha hb, ← hexact]
  exact ofScaled_nearest _ _ _

theorem signed_mul_pow {q : ℤ} (h : q ≤ a.place) :
    ((a.signed * (Nat.pow 2 (a.place - q).toNat : ℕ) : ℤ) : ℚ) * 2 ^ q = a.value := by
  have hexponent : ((a.place - q).toNat : ℤ) = a.place - q := Int.toNat_of_nonneg (by omega)
  rw [value_eq_signed, Nat.pow_eq]
  push_cast
  rw [← zpow_natCast, hexponent, mul_assoc, ← zpow_add₀ two_ne_zero, sub_add_cancel]

theorem sum_nearest (ha : a.isFinite = true) (hb : b.isFinite = true) :
    (a.sum b).Nearest (a.value + b.value) := by
  unfold sum
  rw [isInfinite_of_isFinite ha, isInfinite_of_isFinite hb]
  simp only [Bool.false_eq_true, if_false]
  have hvalue : ((a.signed * (Nat.pow 2 (a.place - min a.place b.place).toNat : ℕ) +
      b.signed * (Nat.pow 2 (b.place - min a.place b.place).toNat : ℕ) : ℤ) : ℚ) *
        2 ^ min a.place b.place = a.value + b.value := by
    rw [Int.cast_add, add_mul, signed_mul_pow (min_le_left _ _), signed_mul_pow (min_le_right _ _)]
  rw [← hvalue]
  generalize a.signed * (Nat.pow 2 (a.place - min a.place b.place).toNat : ℕ) +
      b.signed * (Nat.pow 2 (b.place - min a.place b.place).toNat : ℕ) = s
  have hnear := ofScaled_nearest (if s = 0 then a.isNegative && b.isNegative else s < 0) s.natAbs
    (min a.place b.place)
  convert hnear using 1
  have habs : (s.natAbs : ℚ) = |(s : ℚ)| := by
    rw [Nat.cast_natAbs, Int.cast_abs]
  rw [habs]
  rcases lt_trichotomy s 0 with hs | rfl | hs
  · have hs' : (s : ℚ) < 0 := by exact_mod_cast hs
    rw [if_neg hs.ne, if_pos (decide_eq_true hs), abs_of_neg hs']
    ring
  · simp
  · have hs' : (0 : ℚ) < s := by exact_mod_cast hs
    rw [if_neg hs.ne', if_neg (by simpa using hs.le), abs_of_pos hs']

theorem add_nearest (ha : a.isFinite = true) (hb : b.isFinite = true) :
    (a.add b).Nearest (a.value + b.value) := by
  unfold add arithmetic
  rw [isNaN_of_isFinite ha, isNaN_of_isFinite hb]
  exact sum_nearest ha hb

theorem sub_nearest (ha : a.isFinite = true) (hb : b.isFinite = true) :
    (a.sub b).Nearest (a.value - b.value) := by
  have hneg : b.neg.Represents (-b.value) := Represents.neg ⟨hb, rfl⟩
  have hsum := sum_nearest ha hneg.isFinite
  rw [hneg.value, ← sub_eq_add_neg] at hsum
  unfold sub arithmetic
  rw [isNaN_of_isFinite ha, isNaN_of_isFinite hb]
  exact hsum

/-- The sum of two doubles that are not negative is not negative. -/
theorem isNegative_add (ha : a.isFinite = true) (hb : b.isFinite = true)
    (hasign : a.isNegative = false) (hbsign : b.isNegative = false) :
    (a.add b).isNegative = false := by
  unfold add arithmetic sum
  rw [isNaN_of_isFinite ha, isNaN_of_isFinite hb, isInfinite_of_isFinite ha,
    isInfinite_of_isFinite hb]
  simp only [Bool.false_eq_true, if_false]
  unfold ofScaled
  rw [isNegative_ofRatio]
  unfold signed
  rw [hasign, hbsign]
  simp only [Bool.false_eq_true, if_false, Bool.and_self]
  split
  · rfl
  · rw [decide_eq_false_iff_not, not_lt]
    positivity

/-! ## Integers -/

/-- The sign of a double is that of the integer it stands for. -/
theorem Represents.signed_natAbs (h : x.Represents i) :
    i = if x.isNegative then -(i.natAbs : ℤ) else i.natAbs := by
  have hvalue := h.value
  have hmagnitude := x.magnitude_nonneg
  unfold Binary64.value at hvalue
  split
  · next hsign =>
    rw [if_pos hsign] at hvalue
    have hle : (i : ℚ) ≤ 0 := by linarith
    have : i ≤ 0 := by exact_mod_cast hle
    omega
  · next hsign =>
    rw [if_neg hsign] at hvalue
    have hle : (0 : ℚ) ≤ i := by linarith
    have : 0 ≤ i := by exact_mod_cast hle
    omega

theorem exists_represents (h : |i| < 2 ^ 53) : ∃ x : Binary64, x.Represents i := by
  have hm : i.natAbs < 2 ^ 53 := by
    rw [← Int.natCast_natAbs] at h
    exact_mod_cast h
  have hlt : ((i.natAbs : ℚ) * 2 ^ (0 : ℤ)) < 2 ^ (1024 : ℕ) := by
    rw [zpow_zero, mul_one]
    have hm' : (i.natAbs : ℚ) < 2 ^ (53 : ℕ) := by exact_mod_cast hm
    exact hm'.trans_le (pow_le_pow_right₀ one_le_two (by norm_num))
  obtain ⟨x, hfinite, hsign, hmagnitude⟩ := exists_magnitude_eq hm (by norm_num) hlt (i < 0)
  refine ⟨x, hfinite, ?_⟩
  rw [value, hsign, hmagnitude, zpow_zero, mul_one, Nat.cast_natAbs]
  rcases lt_or_ge i 0 with hi | hi
  · rw [if_pos (decide_eq_true hi), abs_of_neg hi]
    push_cast
    ring
  · rw [if_neg (by simpa using hi), abs_of_nonneg hi]

theorem Represents.add (ha : a.Represents i) (hb : b.Represents j) (h : |i + j| < 2 ^ 53) :
    (a.add b).Represents (i + j : ℤ) := by
  obtain ⟨x, hx⟩ := exists_represents h
  have hnear := add_nearest ha.isFinite hb.isFinite
  rw [ha.value, hb.value, ← Int.cast_add] at hnear
  exact hnear.represents hx

theorem Represents.sub (ha : a.Represents i) (hb : b.Represents j) (h : |i - j| < 2 ^ 53) :
    (a.sub b).Represents (i - j : ℤ) := by
  obtain ⟨x, hx⟩ := exists_represents h
  have hnear := sub_nearest ha.isFinite hb.isFinite
  rw [ha.value, hb.value, ← Int.cast_sub] at hnear
  exact hnear.represents hx

theorem ofNat_represents {n : ℕ} (h : n < 2 ^ 53) : (ofNat n).Represents (n : ℤ) := by
  have hbound : |(n : ℤ)| < 2 ^ 53 := by
    rw [abs_of_nonneg (by positivity)]
    exact_mod_cast h
  obtain ⟨x, hx⟩ := exists_represents hbound
  exact (ofNat_nearest n).represents (by exact_mod_cast hx)

/-- The integer part of a double is a double: it drops bits. -/
theorem represents_trunc (h : x.isFinite = true) : x.trunc.Represents (integerPart x.value) := by
  have hexact : (if x.isNegative then -((x.truncate.natAbs : ℚ) / (1 : ℕ))
      else (x.truncate.natAbs : ℚ) / (1 : ℕ)) = integerPart x.value := by
    have hsigned : x.truncate =
        if x.isNegative then -(x.truncate.natAbs : ℤ) else x.truncate.natAbs := by
      unfold truncate
      simp only
      generalize (if 0 ≤ x.place then x.significand * Nat.pow 2 x.place.toNat
        else x.significand / Nat.pow 2 (-x.place).toNat) = m
      cases x.isNegative <;> simp
    rw [← truncate_eq, Nat.cast_one, div_one]
    conv_rhs => rw [hsigned]
    split
    · rw [Int.cast_neg, Int.cast_natCast]
    · rw [Int.cast_natCast]
  have hnear : x.trunc.Nearest (integerPart x.value) := by
    unfold trunc
    rw [if_pos h, ← hexact]
    exact ofRatio_nearest _ _ one_pos
  obtain ⟨y, hy⟩ : ∃ y : Binary64, y.Represents (integerPart x.value) := by
    rcases le_or_gt 0 x.place with hplace | hplace
    · have hinteger : x.value = (x.signed * 2 ^ x.place.toNat : ℤ) := by
        rw [value_eq_signed]
        push_cast
        rw [← zpow_natCast, Int.toNat_of_nonneg hplace]
      exact ⟨x, h, by rw [hinteger, integerPart_intCast]⟩
    · refine exists_represents ?_
      rw [← Int.natCast_natAbs, natAbs_integerPart, abs_value]
      have hone : (2 : ℚ) ^ x.place ≤ 1 := zpow_le_one_of_nonpos₀ one_le_two hplace.le
      have hlt : x.magnitude < (2 ^ 53 : ℕ) :=
        calc x.magnitude ≤ x.significand := mul_le_of_le_one_right (by positivity) hone
          _ < (2 ^ 53 : ℕ) := by exact_mod_cast x.significand_lt
      exact_mod_cast (Nat.floor_lt x.magnitude_nonneg).mpr hlt
  exact hnear.represents hy

/-- A remainder is taken in any common unit. -/
theorem mod_mul_zpow {A B m n : ℕ} {q : ℤ} (hA : (A * 2 ^ q : ℚ) = m) (hB : (B * 2 ^ q : ℚ) = n) :
    ((A % B : ℕ) * 2 ^ q : ℚ) = (m % n : ℕ) := by
  obtain ⟨k, rfl | rfl⟩ := q.eq_nat_or_neg
  · rw [zpow_natCast] at hA hB ⊢
    have hA' : m = A * 2 ^ k := by exact_mod_cast hA.symm
    have hB' : n = B * 2 ^ k := by exact_mod_cast hB.symm
    rw [hA', hB', Nat.mul_mod_mul_right]
    push_cast
    rfl
  · have hpow : (2 : ℚ) ^ k ≠ 0 := by positivity
    rw [zpow_neg, zpow_natCast, ← div_eq_mul_inv, div_eq_iff hpow] at hA hB ⊢
    have hA' : A = m * 2 ^ k := by exact_mod_cast hA
    have hB' : B = n * 2 ^ k := by exact_mod_cast hB
    rw [hA', hB', Nat.mul_mod_mul_right]
    push_cast
    rfl

theorem remainder_eq (ha : a.isFinite = true) (hb : b.isFinite = true) (hzero : b.isZero = false) :
    a.remainder b = ofScaled a.isNegative
      ((a.significand * Nat.pow 2 (a.place - min a.place b.place).toNat) %
        (b.significand * Nat.pow 2 (b.place - min a.place b.place).toNat))
      (min a.place b.place) := by
  unfold remainder arithmetic
  beta_reduce
  rw [isNaN_of_isFinite ha, isNaN_of_isFinite hb, isInfinite_of_isFinite ha,
    isInfinite_of_isFinite hb, hzero]
  rfl

theorem significand_mul_pow {q : ℤ} (ha : a.Represents i) (h : q ≤ a.place) :
    ((a.significand * Nat.pow 2 (a.place - q).toNat : ℕ) * 2 ^ q : ℚ) = i.natAbs := by
  have hunit : (0 : ℚ) < 2 ^ q := by positivity
  rw [Nat.cast_natAbs, Int.cast_abs, ← ha.value, ← signed_mul_pow h, abs_mul, abs_of_pos hunit,
    ← Int.cast_abs, ← Int.natCast_natAbs, Int.natAbs_mul, natAbs_signed, Int.natAbs_natCast]
  rfl

/-- The remainder is below one of the significands, whose place is the lower. -/
theorem significand_mod_lt (hzero : b.isZero = false) :
    (a.significand * Nat.pow 2 (a.place - min a.place b.place).toNat) %
      (b.significand * Nat.pow 2 (b.place - min a.place b.place).toNat) < 2 ^ 53 := by
  rcases le_total a.place b.place with hle | hle
  · rw [min_eq_left hle, sub_self, Int.toNat_zero]
    exact (Nat.mod_le _ _).trans_lt (by simpa using a.significand_lt)
  · rw [min_eq_right hle, sub_self, Int.toNat_zero]
    refine (Nat.mod_lt _ ?_).trans (by simpa using b.significand_lt)
    simpa using significand_pos hzero

/-- The remainder has the sign of the dividend. -/
theorem Represents.tmod_eq (ha : a.Represents i) (j : ℤ) :
    i.tmod j = if a.isNegative then -((i.natAbs % j.natAbs : ℕ) : ℤ)
      else (i.natAbs % j.natAbs : ℕ) := by
  have htmod : ((i.natAbs : ℤ).tmod j) = (i.natAbs % j.natAbs : ℕ) := by
    rw [Int.tmod_eq_emod_of_nonneg (by positivity), Int.natCast_emod, Int.natCast_natAbs j,
      Int.emod_abs]
  conv_lhs => rw [ha.signed_natAbs]
  split
  · rw [Int.neg_tmod, htmod]
  · rw [htmod]

theorem Represents.isZero (hb : b.Represents j) (hj : j ≠ 0) : b.isZero = false := by
  rw [← Bool.not_eq_true, ← magnitude_eq_zero_iff, ← abs_value, hb.value, abs_eq_zero]
  exact_mod_cast hj

theorem Represents.remainder (ha : a.Represents i) (hb : b.Represents j) (hj : j ≠ 0) :
    (a.remainder b).Represents (i.tmod j) := by
  have hzero := hb.isZero hj
  have hmod := mod_mul_zpow (significand_mul_pow ha (min_le_left a.place b.place))
    (significand_mul_pow hb (min_le_right a.place b.place))
  have hbits := significand_mod_lt (a := a) hzero
  rw [remainder_eq ha.isFinite hb.isFinite hzero]
  generalize (a.significand * Nat.pow 2 (a.place - min a.place b.place).toNat) %
    (b.significand * Nat.pow 2 (b.place - min a.place b.place).toNat) = r at hmod hbits ⊢
  have hbound : (r * 2 ^ min a.place b.place : ℚ) < 2 ^ (1024 : ℕ) := by
    rw [hmod]
    calc ((i.natAbs % j.natAbs : ℕ) : ℚ) ≤ i.natAbs := by exact_mod_cast Nat.mod_le _ _
      _ = a.magnitude := by rw [← abs_value, ha.value, Nat.cast_natAbs, Int.cast_abs]
      _ < 2 ^ (1024 : ℕ) := magnitude_lt ha.isFinite
  obtain ⟨y, hfinite, hsign, hmagnitude⟩ :=
    exists_magnitude_eq hbits (le_min a.le_place b.le_place) hbound a.isNegative
  have hvalue : (if a.isNegative then -(r * 2 ^ min a.place b.place : ℚ)
      else r * 2 ^ min a.place b.place) = (i.tmod j : ℤ) := by
    rw [hmod, ha.tmod_eq]
    split
    · rw [Int.cast_neg, Int.cast_natCast]
    · rw [Int.cast_natCast]
  have hnear := ofScaled_nearest a.isNegative r (min a.place b.place)
  rw [hvalue] at hnear
  refine hnear.represents ⟨hfinite, ?_⟩
  rw [Binary64.value, hsign, hmagnitude, hvalue]

theorem zero_represents : zero.Represents (0 : ℤ) := by
  have hmagnitude : zero.magnitude = 0 := magnitude_eq_zero_iff.mpr (by decide)
  refine ⟨by decide, ?_⟩
  rw [Binary64.value, hmagnitude]
  simp

theorem Represents.remEuclid (ha : a.Represents i) (hb : b.Represents j) (hj : j ≠ 0)
    (hbound : |j| < 2 ^ 53) : (a.remEuclid b).Represents (i % j : ℤ) := by
  have hr := ha.remainder hb hj
  have hzero := zero_represents
  have hnonneg := Int.emod_nonneg i hj
  have hlt := Int.emod_lt_abs i hj
  have htmod := Int.tmod_eq_emod (a := i) (b := j)
  have hsign : (a.remainder b).lt zero = true ↔ i.tmod j < 0 := by
    rw [lt_iff hr.isFinite hzero.isFinite, hr.value, hzero.value]
    exact_mod_cast Iff.rfl
  unfold Binary64.remEuclid
  simp only
  split
  · next h =>
    rw [hsign] at h
    have habs : b.abs.Represents (|j| : ℤ) := by
      rw [Int.cast_abs]
      exact hb.abs
    have hsum : i.tmod j + |j| = i % j := by
      rw [← Int.natCast_natAbs] at *
      split at htmod <;> omega
    have hadd := hr.add habs (by rw [hsum, abs_of_nonneg hnonneg]; exact hlt.trans hbound)
    rwa [hsum] at hadd
  · next h =>
    rw [hsign] at h
    have heq : i.tmod j = i % j := by
      rw [← Int.natCast_natAbs] at *
      split at htmod <;> omega
    rwa [heq] at hr

end

end Binary64

end ScriptSandbox
