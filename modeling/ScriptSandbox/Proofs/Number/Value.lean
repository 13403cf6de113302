import Mathlib.Algebra.Order.Floor.Semifield
import Mathlib.Data.Nat.Cast.Order.Field
import Mathlib.Data.Rat.Floor
import ScriptSandbox.Proofs.Number.Rounding

/-
  The exact value of a double.

  A finite double stands for the rational `value`, its significand times a power of two with its
  sign. The magnitude bits count the doubles from zero, so that a significand and a place give back
  a double of that magnitude (`Fits.magnitude_ofPlace`); a significand of `2 ^ 53` is the first of
  the next place. Value and sign determine the bits (`eq_of_value_eq`), and `truncate` is the
  integer part of the value (`truncate_eq`).
-/

namespace ScriptSandbox

/-- The integer part of a rational, cut toward zero. -/
def integerPart (v : ℚ) : ℤ := if 0 ≤ v then ⌊v⌋ else ⌈v⌉

theorem integerPart_neg (v : ℚ) : integerPart (-v) = -integerPart v := by
  unfold integerPart
  rcases lt_trichotomy v 0 with h | rfl | h
  · rw [if_pos (by linarith), if_neg (by linarith), Int.floor_neg]
  · simp
  · rw [if_neg (by linarith), if_pos h.le, Int.ceil_neg]

@[simp]
theorem integerPart_intCast (i : ℤ) : integerPart i = i := by
  unfold integerPart
  split <;> simp

namespace Binary64

/-- The exact magnitude of a finite double. -/
def magnitude (x : Binary64) : ℚ := x.significand * 2 ^ x.place

/-- The exact value of a finite double. -/
def value (x : Binary64) : ℚ := if x.isNegative then -x.magnitude else x.magnitude

/-- The double is finite and stands for `v`. -/
structure Represents (x : Binary64) (v : ℚ) : Prop where
  isFinite : x.isFinite = true
  value : x.value = v

section

variable {x y : Binary64}

theorem magnitude_nonneg (x : Binary64) : 0 ≤ x.magnitude := by
  unfold magnitude
  positivity

theorem abs_value (x : Binary64) : |x.value| = x.magnitude := by
  unfold value
  split
  · rw [abs_neg, abs_of_nonneg x.magnitude_nonneg]
  · exact abs_of_nonneg x.magnitude_nonneg

theorem value_eq_signed (x : Binary64) : x.value = x.signed * 2 ^ x.place := by
  unfold value signed magnitude
  split <;> push_cast <;> ring

theorem natAbs_signed (x : Binary64) : x.signed.natAbs = x.significand := by
  unfold signed
  split <;> omega

theorem magnitude_eq_div (x : Binary64) :
    x.magnitude = (x.significand * Nat.pow 2 x.place.toNat : ℕ) /
      (Nat.pow 2 (-x.place).toNat : ℕ) := by
  unfold magnitude
  rw [zpow_eq_div_toNat, Nat.pow_eq, Nat.pow_eq, ← mul_div_assoc]
  push_cast
  rfl

/-- A double lies in its own rounding interval. -/
theorem rounds_magnitude (x : Binary64) : x.Rounds x.magnitude := by
  have hplace : (0 : ℚ) < 2 ^ x.place := by positivity
  have hreach : 0 < x.reachBelow := by
    unfold reachBelow
    split <;> norm_num
  have hlow : (x.significand - x.reachBelow) * 2 ^ x.place < x.magnitude :=
    mul_lt_mul_of_pos_right (by linarith) hplace
  have hhigh : x.magnitude < (x.significand + 1 / 2) * 2 ^ x.place :=
    mul_lt_mul_of_pos_right (by linarith) hplace
  exact ⟨hlow.le, hhigh.le, fun _ => ⟨hlow, hhigh⟩⟩

theorem magnitude_eq_zero_iff : x.magnitude = 0 ↔ x.isZero = true := by
  constructor
  · intro h
    by_contra hzero
    have hpos : 0 < x.significand := significand_pos (eq_false_of_ne_true hzero)
    have hmagnitude : 0 < x.magnitude := x.rounds_magnitude.pos hpos
    linarith
  · intro h
    have hparts : x.exponentField = 0 ∧ x.fraction = 0 := by simpa [isZero] using h
    simp [magnitude, significand, hparts]

/-- Sign and magnitude determine a finite double. -/
theorem eq_of_magnitude_eq (hx : x.isFinite = true) (hy : y.isFinite = true)
    (hsign : x.isNegative = y.isNegative) (h : x.magnitude = y.magnitude) : x = y := by
  rw [← x.ofMagnitude_magnitude_bits, ← y.ofMagnitude_magnitude_bits, hsign]
  congr 1
  cases hzero : x.isZero with
  | true =>
    have hzero' : y.isZero = true := by
      rw [← magnitude_eq_zero_iff, ← h, magnitude_eq_zero_iff, hzero]
    have hpartsx : x.exponentField = 0 ∧ x.fraction = 0 := by simpa [isZero] using hzero
    have hpartsy : y.exponentField = 0 ∧ y.fraction = 0 := by simpa [isZero] using hzero'
    rw [magnitude_bits, magnitude_bits, hpartsx.1, hpartsx.2, hpartsy.1, hpartsy.2]
  | false =>
    have hzero' : y.isZero = false := by
      rw [← Bool.not_eq_true, ← magnitude_eq_zero_iff, ← h, magnitude_eq_zero_iff, hzero]
      exact Bool.false_ne_true
    have hden : 0 < Nat.pow 2 (-x.place).toNat := Nat.pow_pos (by decide)
    have hown := x.rounds_magnitude
    have hother : y.Rounds x.magnitude := h ▸ y.rounds_magnitude
    rw [magnitude_eq_div] at hown hother
    rw [← hown.nearestMagnitude_eq hx (significand_pos hzero) hden,
      hother.nearestMagnitude_eq hy (significand_pos hzero') hden]

theorem eq_of_value_eq (hx : x.isFinite = true) (hy : y.isFinite = true)
    (hsign : x.isNegative = y.isNegative) (h : x.value = y.value) : x = y := by
  refine eq_of_magnitude_eq hx hy hsign ?_
  rw [← abs_value, ← abs_value, h]

/-! ## The integer part -/

theorem floor_magnitude (x : Binary64) :
    ⌊x.magnitude⌋₊ = if 0 ≤ x.place then x.significand * Nat.pow 2 x.place.toNat
      else x.significand / Nat.pow 2 (-x.place).toNat := by
  rw [magnitude_eq_div, Nat.floor_div_eq_div]
  split
  · next h =>
    have hzero : (-x.place).toNat = 0 := by omega
    rw [hzero]
    exact Nat.div_one _
  · next h =>
    have hzero : x.place.toNat = 0 := by omega
    rw [hzero]
    exact congrArg (· / _) (mul_one _)

/-- `truncate` is the integer part of the exact value. -/
theorem truncate_eq (x : Binary64) : x.truncate = integerPart x.value := by
  have hfloor : integerPart x.magnitude = (⌊x.magnitude⌋₊ : ℤ) := by
    unfold integerPart
    rw [if_pos x.magnitude_nonneg, Int.natCast_floor_eq_floor x.magnitude_nonneg]
  unfold truncate value
  simp only
  rw [← floor_magnitude]
  split
  · rw [integerPart_neg, hfloor]
  · exact hfloor.symm

/-! ## Doubles with a given magnitude -/

section

variable {negative : Bool} {M : ℕ}

theorem bits_ofMagnitude (h : M < 2 ^ 63) :
    (ofMagnitude negative M).bits.toNat = if negative then M + 2 ^ 63 else M := by
  unfold ofMagnitude
  rw [UInt64.toNat_ofNat', Nat.pow_eq]
  split <;> omega

theorem isNegative_ofMagnitude (h : M < 2 ^ 63) :
    (ofMagnitude negative M).isNegative = negative := by
  unfold isNegative
  rw [bits_ofMagnitude h, Nat.pow_eq]
  cases negative <;> simp <;> omega

theorem exponentField_ofMagnitude (h : M < 2 ^ 63) :
    (ofMagnitude negative M).exponentField = M / 2 ^ 52 := by
  unfold exponentField
  rw [bits_ofMagnitude h, Nat.pow_eq, Nat.pow_eq]
  split <;> omega

theorem fraction_ofMagnitude (h : M < 2 ^ 63) :
    (ofMagnitude negative M).fraction = M % 2 ^ 52 := by
  unfold fraction
  rw [bits_ofMagnitude h, Nat.pow_eq]
  split <;> omega

theorem isFinite_ofMagnitude (h : M < 2047 * 2 ^ 52) :
    (ofMagnitude negative M).isFinite = true := by
  unfold isFinite
  rw [exponentField_ofMagnitude (by omega), decide_eq_true_eq]
  omega

end

/-- The double that is `m` steps above the first one of the place `q`. -/
def ofPlace (negative : Bool) (m : ℕ) (q : ℤ) : Binary64 :=
  ofMagnitude negative ((q + 1074).toNat * 2 ^ 52 + m)

/-- A significand and a place of a finite double; `2 ^ 53` stands for the first significand of the
    next place. -/
structure Fits (m : ℕ) (q : ℤ) : Prop where
  le : m ≤ 2 ^ 53
  normal : 2 ^ 52 ≤ m ∨ q = -1074
  lowest : -1074 ≤ q
  highest : q ≤ 971
  /-- What comes after the last significand of the highest place is infinite. -/
  last : q = 971 → m < 2 ^ 53

namespace Fits

variable {m : ℕ} {q : ℤ} {negative : Bool}

theorem bound (h : Fits m q) : (q + 1074).toNat * 2 ^ 52 + m < 2047 * 2 ^ 52 := by
  obtain ⟨hle, -, hlowest, hhighest, hlast⟩ := h
  rcases hhighest.lt_or_eq with hq | hq
  · omega
  · have := hlast hq
    omega

theorem isFinite_ofPlace (h : Fits m q) : (ofPlace negative m q).isFinite = true :=
  isFinite_ofMagnitude h.bound

theorem isNegative_ofPlace (h : Fits m q) : (ofPlace negative m q).isNegative = negative :=
  isNegative_ofMagnitude (by have := h.bound; omega)

/-- The significand and the place, but for a significand that carries into the next place. -/
theorem parts_ofPlace (h : Fits m q) (negative : Bool) :
    (m < 2 ^ 53 ∧ (ofPlace negative m q).significand = m ∧ (ofPlace negative m q).place = q) ∨
      (m = 2 ^ 53 ∧ (ofPlace negative m q).significand = 2 ^ 52 ∧
        (ofPlace negative m q).place = q + 1) := by
  have hbound := h.bound
  obtain ⟨hle, hnormal, hlowest, -, -⟩ := h
  unfold significand place ofPlace
  rw [exponentField_ofMagnitude (by omega), fraction_ofMagnitude (by omega), Nat.pow_eq]
  -- whether the exponent field is zero decides between the lowest place and the others
  split <;> omega

theorem magnitude_ofPlace (h : Fits m q) : (ofPlace negative m q).magnitude = m * 2 ^ q := by
  unfold magnitude
  obtain ⟨-, hm, hq⟩ | ⟨rfl, hm, hq⟩ := h.parts_ofPlace negative
  · rw [hm, hq]
  · rw [hm, hq, zpow_add_one₀ two_ne_zero]
    push_cast
    ring

theorem value_ofPlace (h : Fits m q) :
    (ofPlace negative m q).value = if negative then -(m * 2 ^ q : ℚ) else m * 2 ^ q := by
  unfold value
  rw [h.isNegative_ofPlace, h.magnitude_ofPlace]

theorem even_ofPlace (h : Fits m q) (heven : m % 2 = 0) :
    (ofPlace negative m q).significand % 2 = 0 := by
  obtain ⟨-, hm, -⟩ | ⟨-, hm, -⟩ := h.parts_ofPlace negative
  · rw [hm, heven]
  · rw [hm]
    norm_num

end Fits

/-- The largest finite double is below `2 ^ 1024`. -/
theorem magnitude_lt (h : x.isFinite = true) : x.magnitude < 2 ^ (1024 : ℕ) := by
  have hm : (x.significand : ℚ) < 2 ^ (53 : ℕ) := by exact_mod_cast x.significand_lt
  have hq : (2 : ℚ) ^ x.place ≤ 2 ^ (971 : ℤ) := zpow_le_zpow_right₀ one_le_two (place_le h)
  calc x.magnitude < 2 ^ (53 : ℕ) * 2 ^ x.place := mul_lt_mul_of_pos_right hm (by positivity)
    _ ≤ 2 ^ (53 : ℕ) * 2 ^ (971 : ℤ) := mul_le_mul_of_nonneg_left hq (by positivity)
    _ = 2 ^ (1024 : ℕ) := by rw [zpow_ofNat, ← pow_add]

/-- A significand can be moved up until it has 53 bits, or its place is the lowest. -/
theorem exists_shift {m : ℕ} {q : ℤ} (hpos : 0 < m) (hm : m < 2 ^ 53) (hq : -1074 ≤ q) :
    ∃ k : ℕ, k ≤ q + 1074 ∧ m * 2 ^ k < 2 ^ 53 ∧ (2 ^ 52 ≤ m * 2 ^ k ∨ q - k = -1074) := by
  have hlog : Nat.log2 m < 53 := (Nat.log2_lt hpos.ne').mpr hm
  have hself : 2 ^ Nat.log2 m ≤ m := Nat.log2_self_le hpos.ne'
  have hnext : m < 2 ^ (Nat.log2 m + 1) := Nat.lt_log2_self
  have hupper (k : ℕ) (hk : k ≤ 52 - Nat.log2 m) : m * 2 ^ k < 2 ^ 53 :=
    calc m * 2 ^ k < 2 ^ (Nat.log2 m + 1) * 2 ^ k :=
          Nat.mul_lt_mul_of_pos_right hnext (by positivity)
      _ = 2 ^ (Nat.log2 m + 1 + k) := (pow_add _ _ _).symm
      _ ≤ 2 ^ 53 := Nat.pow_le_pow_right (by decide) (by omega)
  rcases le_total ((52 - Nat.log2 m : ℕ) : ℤ) (q + 1074) with h | h
  · refine ⟨52 - Nat.log2 m, h, hupper _ le_rfl, .inl ?_⟩
    calc 2 ^ 52 = 2 ^ Nat.log2 m * 2 ^ (52 - Nat.log2 m) := by
          rw [← pow_add, Nat.add_sub_cancel' (by omega)]
      _ ≤ m * 2 ^ (52 - Nat.log2 m) := Nat.mul_le_mul_right _ hself
  · exact ⟨(q + 1074).toNat, by omega, hupper _ (by omega), .inr (by omega)⟩

/-- Every dyadic number with at most 53 bits is the value of a double, unless it is too large or
    too fine. -/
theorem exists_magnitude_eq {m : ℕ} {q : ℤ} (hm : m < 2 ^ 53) (hq : -1074 ≤ q)
    (hlt : (m * 2 ^ q : ℚ) < 2 ^ (1024 : ℕ)) (negative : Bool) :
    ∃ x : Binary64, x.isFinite = true ∧ x.isNegative = negative ∧ x.magnitude = m * 2 ^ q := by
  rcases Nat.eq_zero_or_pos m with rfl | hpos
  · have h : Fits 0 (-1074) := ⟨by omega, .inr rfl, le_rfl, by omega, by omega⟩
    exact ⟨_, h.isFinite_ofPlace, h.isNegative_ofPlace, by rw [h.magnitude_ofPlace]; simp⟩
  · obtain ⟨k, hk, hbits, hlow⟩ := exists_shift hpos hm hq
    have hvalue : ((m * 2 ^ k : ℕ) : ℚ) * 2 ^ (q - k) = m * 2 ^ q := by
      rw [zpow_sub₀ two_ne_zero, zpow_natCast]
      push_cast
      field_simp
    have hhighest : q - k ≤ 971 := by
      by_contra hlarge
      have hnormal : 2 ^ 52 ≤ m * 2 ^ k := hlow.resolve_right (by omega)
      have hbig : (2 : ℚ) ^ (1024 : ℕ) ≤ m * 2 ^ q :=
        calc (2 : ℚ) ^ (1024 : ℕ) = 2 ^ (52 : ℕ) * 2 ^ (972 : ℤ) := by
              rw [zpow_ofNat, ← pow_add]
          _ ≤ ((m * 2 ^ k : ℕ) : ℚ) * 2 ^ (q - k) :=
              mul_le_mul (by exact_mod_cast hnormal)
                (zpow_le_zpow_right₀ one_le_two (by omega)) (by positivity) (by positivity)
          _ = m * 2 ^ q := hvalue
      exact absurd hlt hbig.not_gt
    have h : Fits (m * 2 ^ k) (q - k) := ⟨hbits.le, hlow, by omega, hhighest, fun _ => hbits⟩
    exact ⟨_, h.isFinite_ofPlace, h.isNegative_ofPlace, by rw [h.magnitude_ofPlace, hvalue]⟩

end

end Binary64

end ScriptSandbox
