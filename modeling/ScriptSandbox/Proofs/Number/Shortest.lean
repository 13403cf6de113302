import Mathlib.Algebra.Order.Floor.Semifield
import Mathlib.Data.Nat.Cast.Order.Field
import Mathlib.Data.Rat.Floor
import ScriptSandbox.Number.Shortest
import ScriptSandbox.Proofs.Number.Rounding

/-
  The shortest decimal rounds back.

  The integer comparisons of `Rounding.contains` say that a quotient lies in the rounding interval
  of the double (`contains_iff`), so every decimal the search stops at is in there. The search does
  stop: half a place reaches above the double, and a unit finer than that has a multiple in it. The
  last of the 24 units tried is that fine (`ten_zpow_lt`), for every double there is. What is found
  has a coefficient below `2 ^ 100`, so that the cut-offs of `ofDecimal` for magnitudes out of reach
  do not apply to it.
-/

namespace ScriptSandbox

/-! ## Powers of ten between powers of two -/

/-- Powers of ten against powers of two, by `10 ^ 3 < 2 ^ 10` and `2 ^ 33 < 10 ^ 10`. -/
theorem ten_zpow_lt {n j : ℤ} (hnonneg : 0 ≤ n → 10 * n < 3 * j) (hneg : n < 0 → 33 * n < 10 * j) :
    (10 : ℚ) ^ n < 2 ^ j := by
  have hpower : ((10 : ℚ) ^ n) ^ 10 < (2 ^ j) ^ 10 := by
    rw [← zpow_natCast, ← zpow_natCast, ← zpow_mul, ← zpow_mul]
    rcases le_or_gt 0 n with h | h
    · obtain ⟨k, rfl⟩ : ∃ k : ℕ, j = k := ⟨j.toNat, by have := hnonneg h; omega⟩
      calc (10 : ℚ) ^ (n * (10 : ℕ))
          < 10 ^ (3 * (k : ℤ)) :=
            zpow_lt_zpow_right₀ (by norm_num) (by have := hnonneg h; push_cast; omega)
        _ = (10 ^ 3) ^ k := by rw [zpow_mul, zpow_natCast]; norm_num
        _ ≤ (2 ^ 10) ^ k := pow_le_pow_left₀ (by norm_num) (by norm_num) k
        _ = 2 ^ ((k : ℤ) * (10 : ℕ)) := by rw [mul_comm, zpow_mul, zpow_natCast]; norm_num
    · obtain ⟨k, rfl⟩ : ∃ k : ℕ, n = -k := ⟨(-n).toNat, by omega⟩
      calc (10 : ℚ) ^ (-(k : ℤ) * (10 : ℕ))
          = ((10 ^ 10) ^ k)⁻¹ := by
            rw [neg_mul, zpow_neg, mul_comm, zpow_mul, zpow_natCast]; norm_num
        _ ≤ ((2 ^ 33) ^ k)⁻¹ :=
            inv_anti₀ (by positivity) (pow_le_pow_left₀ (by norm_num) (by norm_num) k)
        _ = 2 ^ (33 * -(k : ℤ)) := by
            rw [mul_neg, zpow_neg, zpow_mul, zpow_natCast]; norm_num
        _ < 2 ^ (j * (10 : ℕ)) :=
            zpow_lt_zpow_right₀ (by norm_num) (by have := hneg h; push_cast; omega)
  exact lt_of_pow_lt_pow_left₀ 10 (by positivity) hpower

theorem lt_ten_zpow {n j : ℤ} (hpos : 0 < n → 10 * j < 33 * n) (hnonpos : n ≤ 0 → 3 * j < 10 * n) :
    (2 : ℚ) ^ j < 10 ^ n := by
  have hinverse : (10 : ℚ) ^ (-n) < 2 ^ (-j) :=
    ten_zpow_lt (fun h => by have := hnonpos (by omega); omega)
      (fun h => by have := hpos (by omega); omega)
  rwa [zpow_neg, zpow_neg, inv_lt_inv₀ (by positivity) (by positivity)] at hinverse

namespace Number

namespace Rounding

/-! ## The interval -/

section

variable {x : Binary64}

theorem den_pos (x : Binary64) : 0 < (ofBinary64 x).den :=
  Nat.pow_pos (by decide)

/-- A number of quarter places of the double, as the interval keeps it. -/
theorem quarters_div_den (x : Binary64) (n : ℕ) :
    ((n * Nat.pow 2 (x.place - 2).toNat : ℕ) : ℚ) / (ofBinary64 x).den = n / 4 * 2 ^ x.place := by
  have hplace : (2 : ℚ) ^ (x.place - 2) = 2 ^ x.place / 4 := by
    rw [zpow_sub₀ two_ne_zero]
    norm_num
  have hden : (ofBinary64 x).den = 2 ^ (-(x.place - 2)).toNat := rfl
  rw [hden, Nat.pow_eq]
  push_cast
  rw [mul_div_assoc, ← zpow_eq_div_toNat, hplace]
  ring

theorem low_div_den (hm : 0 < x.significand) :
    ((ofBinary64 x).low : ℚ) / (ofBinary64 x).den =
      (x.significand - x.reachBelow) * 2 ^ x.place := by
  have hlow : (ofBinary64 x).low = (4 * x.significand - if x.significand = Nat.pow 2 52 then 1
      else 2) * Nat.pow 2 (x.place - 2).toNat := rfl
  rw [hlow, quarters_div_den, Nat.pow_eq, Binary64.reachBelow,
    Nat.cast_sub (by split <;> omega)]
  congr 1
  split <;> push_cast <;> ring

theorem high_div_den (x : Binary64) :
    ((ofBinary64 x).high : ℚ) / (ofBinary64 x).den = (x.significand + 1 / 2) * 2 ^ x.place := by
  have hhigh : (ofBinary64 x).high =
      (4 * x.significand + 2) * Nat.pow 2 (x.place - 2).toNat := rfl
  rw [hhigh, quarters_div_den]
  push_cast
  ring

theorem value_div_den (x : Binary64) :
    ((ofBinary64 x).value : ℚ) / (ofBinary64 x).den = x.significand * 2 ^ x.place := by
  have hvalue : (ofBinary64 x).value =
      4 * x.significand * Nat.pow 2 (x.place - 2).toNat := rfl
  rw [hvalue, quarters_div_den]
  push_cast
  ring

/-- The integer comparisons decide whether a quotient lies in the rounding interval. -/
theorem contains_iff (hm : 0 < x.significand) {num den : ℕ} (hden : 0 < den) :
    (ofBinary64 x).contains num den = true ↔ x.Rounds (num / den) := by
  have hown : (0 : ℚ) < (ofBinary64 x).den := by exact_mod_cast den_pos x
  have hother : (0 : ℚ) < den := by exact_mod_cast hden
  have hlow : (ofBinary64 x).low * den ≤ num * (ofBinary64 x).den ↔
      (x.significand - x.reachBelow) * 2 ^ x.place ≤ (num / den : ℚ) := by
    rw [← low_div_den hm, div_le_div_iff₀ hown hother]
    exact_mod_cast Iff.rfl
  have hlow' : (ofBinary64 x).low * den < num * (ofBinary64 x).den ↔
      (x.significand - x.reachBelow) * 2 ^ x.place < (num / den : ℚ) := by
    rw [← low_div_den hm, div_lt_div_iff₀ hown hother]
    exact_mod_cast Iff.rfl
  have hhigh : num * (ofBinary64 x).den ≤ (ofBinary64 x).high * den ↔
      (num / den : ℚ) ≤ (x.significand + 1 / 2) * 2 ^ x.place := by
    rw [← high_div_den, div_le_div_iff₀ hother hown]
    exact_mod_cast Iff.rfl
  have hhigh' : num * (ofBinary64 x).den < (ofBinary64 x).high * den ↔
      (num / den : ℚ) < (x.significand + 1 / 2) * 2 ^ x.place := by
    rw [← high_div_den, div_lt_div_iff₀ hother hown]
    exact_mod_cast Iff.rfl
  have hclosed : (ofBinary64 x).closed = true ↔ x.significand % 2 = 0 := by
    simp [ofBinary64]
  unfold contains
  split
  · next h =>
    rw [hclosed] at h
    rw [Bool.and_eq_true, decide_eq_true_eq, decide_eq_true_eq, hlow, hhigh]
    exact ⟨fun ⟨hl, hh⟩ => ⟨hl, hh, fun hodd => by omega⟩, fun hv => ⟨hv.low, hv.high⟩⟩
  · next h =>
    rw [hclosed] at h
    rw [Bool.and_eq_true, decide_eq_true_eq, decide_eq_true_eq, hlow', hhigh']
    exact ⟨fun ⟨hl, hh⟩ => ⟨hl.le, hh.le, fun _ => ⟨hl, hh⟩⟩, fun hv => hv.odd (by omega)⟩

/-! ## One unit -/

/-- The interval asked about a multiple of a power of ten. -/
theorem contains_multiple_iff (hm : 0 < x.significand) (c : ℕ) (unit : ℤ) :
    (ofBinary64 x).contains (c * Nat.pow 10 unit.toNat) (Nat.pow 10 (-unit).toNat) = true ↔
      x.Rounds (c * 10 ^ unit) := by
  have hden : 0 < Nat.pow 10 (-unit).toNat := Nat.pow_pos (by decide)
  rw [contains_iff hm hden, zpow_eq_div_toNat, Nat.pow_eq, Nat.pow_eq]
  push_cast
  rw [mul_div_assoc]

theorem rounds_of_onGrid? (hm : 0 < x.significand) {tie : Tie} {unit : ℤ} {c : ℕ}
    (h : (ofBinary64 x).onGrid? tie unit = some c) : x.Rounds (c * 10 ^ unit) := by
  rw [← contains_multiple_iff hm]
  unfold onGrid? at h
  simp only at h
  split at h
  · next hboth =>
    rw [Bool.and_eq_true] at hboth
    grind
  · grind

/-- The multiples of a unit around the double. -/
theorem value_bounds (x : Binary64) (unit : ℤ) {c : ℕ}
    (hc : (ofBinary64 x).value * Nat.pow 10 (-unit).toNat /
      ((ofBinary64 x).den * Nat.pow 10 unit.toNat) = c) :
    (c : ℚ) * 10 ^ unit ≤ x.significand * 2 ^ x.place ∧
      (x.significand : ℚ) * 2 ^ x.place < (c + 1 : ℕ) * 10 ^ unit := by
  have hvalue : (((ofBinary64 x).value * Nat.pow 10 (-unit).toNat : ℕ) : ℚ) /
      ((ofBinary64 x).den * Nat.pow 10 unit.toNat : ℕ) =
        x.significand * 2 ^ x.place / 10 ^ unit := by
    rw [← value_div_den, zpow_eq_div_toNat 10, Nat.pow_eq, Nat.pow_eq]
    push_cast
    rw [div_div_div_eq]
  rw [← le_div_iff₀ (by positivity), ← div_lt_iff₀ (by positivity), ← hvalue, ← hc]
  refine ⟨Nat.cast_div_le, ?_⟩
  rw [Nat.cast_succ, ← Nat.floor_div_eq_div (K := ℚ)]
  exact Nat.lt_floor_add_one _

/-- A unit below half a place of the double has a multiple just above the double. -/
theorem isSome_onGrid? (hm : 0 < x.significand) (tie : Tie) {unit : ℤ}
    (hfine : (10 : ℚ) ^ unit < 2 ^ (x.place - 1)) :
    ((ofBinary64 x).onGrid? tie unit).isSome = true := by
  have hplace : (2 : ℚ) ^ (x.place - 1) = 2 ^ x.place / 2 := zpow_sub_one₀ two_ne_zero _
  generalize hc : (ofBinary64 x).value * Nat.pow 10 (-unit).toNat /
    ((ofBinary64 x).den * Nat.pow 10 unit.toNat) = c
  obtain ⟨hbelow, habove⟩ := value_bounds x unit hc
  have hlow : (x.significand - x.reachBelow) * 2 ^ x.place < (c + 1 : ℕ) * 10 ^ unit := by
    have hreach : 0 ≤ x.reachBelow * 2 ^ x.place := by
      unfold Binary64.reachBelow
      split <;> positivity
    linarith
  have hhigh : ((c + 1 : ℕ) : ℚ) * 10 ^ unit < (x.significand + 1 / 2) * 2 ^ x.place := by
    push_cast
    linarith
  have hupper : (ofBinary64 x).contains ((c + 1) * Nat.pow 10 unit.toNat)
      (Nat.pow 10 (-unit).toNat) = true :=
    (contains_multiple_iff hm (c + 1) unit).mpr ⟨hlow.le, hhigh.le, fun _ => ⟨hlow, hhigh⟩⟩
  unfold onGrid?
  simp only [hc, hupper]
  grind

end

/-! ## The search -/

/-- A search that reaches a unit with a multiple stops there or before. -/
theorem search_spec (r : Rounding) (tie : Tie) {fine : ℤ}
    (hfine : (r.onGrid? tie fine).isSome = true) (tries : ℕ) (unit : ℤ) (hle : fine ≤ unit)
    (hreach : unit < fine + tries) :
    r.onGrid? tie (r.search tie tries unit).exponent =
        some (r.search tie tries unit).coefficient ∧
      fine ≤ (r.search tie tries unit).exponent := by
  induction tries generalizing unit with
  | zero => omega
  | succ tries ih =>
    unfold search
    split
    · next c hc => exact ⟨hc, hle⟩
    · next hnone =>
      have hne : fine ≠ unit := by
        rintro rfl
        rw [hnone] at hfine
        cases hfine
      exact ih (unit - 1) (by omega) (by push_cast at hreach; omega)

end Rounding

/-! ## The shortest decimal -/

section

variable {x : Binary64}

/-- The start of the search in terms of a power of two just above the double. -/
theorem exists_startUnit (hm : 0 < x.significand) :
    ∃ K : ℤ, (Rounding.ofBinary64 x).startUnit = K * 30103 / 100000 + 1 ∧
      x.place < K ∧ K ≤ x.place + 54 ∧
      (x.significand + 1 / 2 : ℚ) * 2 ^ x.place < 2 ^ K := by
  have hhigh : 0 < (Rounding.ofBinary64 x).high :=
    Nat.mul_pos (Nat.succ_pos _) (Nat.pow_pos (by decide))
  have hlower := Binary64.zpow_log2_sub_lt hhigh (Rounding.den_pos x)
  have hupper := Binary64.lt_zpow_log2_sub (Rounding.ofBinary64 x).high (Rounding.den_pos x)
  rw [Rounding.high_div_den] at hlower hupper
  have hone : (1 : ℚ) ≤ x.significand := by exact_mod_cast hm
  have hplace : (2 : ℚ) ^ x.place < (x.significand + 1 / 2) * 2 ^ x.place :=
    lt_mul_of_one_lt_left (by positivity) (by linarith)
  have habove : (x.significand + 1 / 2 : ℚ) * 2 ^ x.place < 2 ^ (x.place + 53) := by
    have hlast : (x.significand : ℚ) + 1 ≤ 2 ^ (53 : ℤ) := by exact_mod_cast x.significand_lt
    rw [zpow_add₀ two_ne_zero, mul_comm]
    exact mul_lt_mul_of_pos_left (by linarith) (by positivity)
  have hleft := (zpow_lt_zpow_iff_right₀ one_lt_two).mp (hplace.trans hupper)
  have hright := (zpow_lt_zpow_iff_right₀ one_lt_two).mp (hlower.trans habove)
  exact ⟨_, rfl, hleft, by omega, hupper⟩

/-- The search for the shortest decimal succeeds: its result rounds to the double. The coefficient
    has at most 100 bits. -/
theorem shortest_rounds (tie : Tie) (hm : 0 < x.significand) (hplace : x.place ≤ 971) :
    x.Rounds ((shortest tie x).coefficient * 10 ^ (shortest tie x).exponent) ∧
      0 < (shortest tie x).coefficient ∧ (shortest tie x).coefficient < 2 ^ 100 := by
  have hlowest := x.le_place
  obtain ⟨K, hstart, hK, hK', hbound⟩ := exists_startUnit hm
  have hfine : (10 : ℚ) ^ (K * 30103 / 100000 - 22) < 2 ^ (x.place - 1) :=
    ten_zpow_lt (by omega) (by omega)
  have hsome := Rounding.isSome_onGrid? hm tie hfine
  obtain ⟨hfound, hunit⟩ := Rounding.search_spec (Rounding.ofBinary64 x) tie hsome 24
    (Rounding.ofBinary64 x).startUnit (by omega) (by omega)
  change K * 30103 / 100000 - 22 ≤ (shortest tie x).exponent at hunit
  have hrounds : x.Rounds ((shortest tie x).coefficient * 10 ^ (shortest tie x).exponent) :=
    Rounding.rounds_of_onGrid? hm hfound
  refine ⟨hrounds, ?_, ?_⟩
  · have hpos := hrounds.pos hm
    rw [mul_pos_iff_of_pos_right (by positivity)] at hpos
    exact_mod_cast hpos
  · -- ten to the lowest unit tried is within 100 places of the bound on the double
    have hunit' : (2 : ℚ) ^ (K - 100) < 10 ^ (shortest tie x).exponent :=
      (lt_ten_zpow (by omega) (by omega)).trans_le (zpow_le_zpow_right₀ (by norm_num) hunit)
    have hscaled : ((shortest tie x).coefficient : ℚ) * 2 ^ (K - 100) <
        2 ^ (100 : ℕ) * 2 ^ (K - 100) :=
      calc ((shortest tie x).coefficient : ℚ) * 2 ^ (K - 100)
          ≤ (shortest tie x).coefficient * 10 ^ (shortest tie x).exponent :=
            mul_le_mul_of_nonneg_left hunit'.le (by positivity)
        _ < 2 ^ K := hrounds.high.trans_lt hbound
        _ = 2 ^ (100 : ℕ) * 2 ^ (K - 100) := by
            rw [← zpow_natCast, ← zpow_add₀ two_ne_zero]
            congr 1
            push_cast
            ring
    have := lt_of_mul_lt_mul_right hscaled (by positivity)
    exact_mod_cast this

end

end Number

namespace Binary64

/-- The exponents of the decimals in the rounding interval of a double, when the coefficient has at
    most 100 bits. -/
theorem Rounds.exponent_bounds {x : Binary64} {c : ℕ} {e : ℤ} (hplace : x.place ≤ 971)
    (hm : 0 < x.significand) (hv : x.Rounds (c * 10 ^ e)) (hpos : 0 < c) (hbits : c < 2 ^ 100) :
    -400 ≤ e ∧ e ≤ 370 := by
  have hlowest := x.le_place
  have hten : (0 : ℚ) < 10 ^ e := by positivity
  have hone : (1 : ℚ) ≤ c := by exact_mod_cast hpos
  have hmone : (1 : ℚ) ≤ x.significand := by exact_mod_cast hm
  have hupper : (10 : ℚ) ^ e < 2 ^ (x.place + 53) :=
    lt_of_le_of_lt (le_mul_of_one_le_left hten.le hone) hv.lt_zpow
  have hlower : (2 : ℚ) ^ (x.place - 101) < 10 ^ e := by
    have hc : (c : ℚ) < 2 ^ (100 : ℤ) := by exact_mod_cast hbits
    have hhalf : (2 : ℚ) ^ (100 : ℤ) * 2 ^ (x.place - 101) ≤ c * 10 ^ e := by
      refine le_trans ?_ hv.low
      rw [← zpow_add₀ two_ne_zero, show (100 : ℤ) + (x.place - 101) = -1 + x.place by ring,
        zpow_add₀ two_ne_zero]
      refine mul_le_mul_of_nonneg_right ?_ (by positivity)
      rw [zpow_neg_one]
      linarith [x.reachBelow_le]
    have hstrict : (2 : ℚ) ^ (100 : ℤ) * 2 ^ (x.place - 101) < 2 ^ (100 : ℤ) * 10 ^ e :=
      hhalf.trans_lt (mul_lt_mul_of_pos_right hc hten)
    exact lt_of_mul_lt_mul_left hstrict (by positivity)
  constructor
  · by_contra h
    exact absurd hlower (ten_zpow_lt (by omega) (by omega)).not_gt
  · by_contra h
    exact absurd hupper (lt_ten_zpow (by omega) (by omega)).not_gt

/-- A decimal in the rounding interval of a double is read as that double, with its sign. The bound
    on the coefficient keeps the decimal within reach. -/
theorem Rounds.ofDecimal_eq {x : Binary64} {c : ℕ} {e : ℤ} (hfinite : x.isFinite = true)
    (hm : 0 < x.significand) (hv : x.Rounds (c * 10 ^ e)) (hpos : 0 < c) (hbits : c < 2 ^ 100) :
    ofDecimal x.isNegative c e = x := by
  obtain ⟨hlow, hhigh⟩ := hv.exponent_bounds (place_le hfinite) hm hpos hbits
  have hlog : Nat.log2 c < 100 := (Nat.log2_lt hpos.ne').mpr hbits
  have hden : 0 < Nat.pow 10 (-e).toNat := Nat.pow_pos (by decide)
  unfold ofDecimal decimalReach
  rw [if_neg hpos.ne']
  simp only
  rw [if_neg (by omega), if_neg (by omega)]
  refine Rounds.ofRatio_eq hfinite hm hden ?_
  rw [zpow_eq_div_toNat, ← mul_div_assoc] at hv
  rw [Nat.pow_eq, Nat.pow_eq]
  exact_mod_cast hv

end Binary64

end ScriptSandbox
