import ScriptSandbox.Proofs.Number.Value

/-
  The nearest double.

  `Nearest` says which double a rational rounds to: no other double is nearer, of two that are
  equally near it is the one with the even significand, and from half a place above the largest
  double on it is an infinity. Inside, a rational is rounded to `m` units of a place `q`
  (`RoundsTo`). Every other double is a multiple of that unit, or it lies below the 53 bits that are
  kept (`RoundsTo.nearer`). So `ofRatio` finds the nearest double (`ofRatio_nearest`), and there is
  only one of each sign (`Nearest.eq`).
-/

namespace ScriptSandbox.Binary64

/-! ## Integers -/

/-- A quotient is its integer part and the rest in units of the divisor. -/
theorem div_eq_add_rest (num : ℕ) {den : ℕ} (hden : 0 < den) :
    (num / den : ℚ) = (num / den : ℕ) + ((num % den : ℕ) : ℚ) / den := by
  have hpos : (0 : ℚ) < den := by exact_mod_cast hden
  rw [eq_comm, ← eq_sub_iff_add_eq', eq_sub_iff_add_eq, div_add' _ _ _ hpos.ne',
    div_left_inj' hpos.ne']
  exact_mod_cast Nat.mod_add_div' num den

/-- A quotient is rounded by at most a half, and by a half only to an even integer. -/
theorem roundHalfEven_near (num : ℕ) {den : ℕ} (hden : 0 < den) :
    |(roundHalfEven num den : ℚ) - num / den| ≤ 1 / 2 ∧
      (|(roundHalfEven num den : ℚ) - num / den| = 1 / 2 → roundHalfEven num den % 2 = 0) := by
  have hpos : (0 : ℚ) < den := by exact_mod_cast hden
  have hrest : ((num % den : ℕ) : ℚ) / den < 1 := by
    rw [div_lt_one hpos]
    exact_mod_cast Nat.mod_lt num hden
  have hrest' : (0 : ℚ) ≤ (num % den : ℕ) / den := by positivity
  have hhalf : 2 * (num % den) < den ↔ ((num % den : ℕ) : ℚ) / den < 1 / 2 := by
    rw [div_lt_div_iff₀ hpos two_pos, mul_comm, one_mul]
    exact_mod_cast Iff.rfl
  have htie : 2 * (num % den) = den ↔ ((num % den : ℕ) : ℚ) / den = 1 / 2 := by
    rw [div_eq_div_iff hpos.ne' two_ne_zero, mul_comm, one_mul]
    exact_mod_cast Iff.rfl
  unfold roundHalfEven
  simp only
  rw [div_eq_add_rest num hden]
  split
  · next h =>
    have hle : ((num % den : ℕ) : ℚ) / den ≤ 1 / 2 := by
      rcases h with h | h
      · exact (hhalf.mp h).le
      · exact (htie.mp h.1).le
    rw [sub_add_cancel_left, abs_neg, abs_of_nonneg hrest']
    refine ⟨hle, fun heq => ?_⟩
    rcases h with h | h
    · exact absurd heq (hhalf.mp h).ne
    · exact h.2
  · next h =>
    rw [not_or, not_and] at h
    have hle : (1 / 2 : ℚ) ≤ (num % den : ℕ) / den := not_lt.mp fun hlt => h.1 (hhalf.mpr hlt)
    rw [Nat.cast_succ, add_sub_add_left_eq_sub, abs_of_nonneg (by linarith)]
    refine ⟨by linarith, fun heq => ?_⟩
    have := h.2 (htie.mpr (by linarith))
    omega

/-- An integer within a half of a rational is nearer to it than any other, unless both are a half
    away. -/
theorem abs_sub_lt_of_ne {m k : ℤ} {v : ℚ} (hnear : |m - v| ≤ 1 / 2) (hne : k ≠ m) :
    |m - v| < |k - v| ∨ (|m - v| = |k - v| ∧ |m - v| = 1 / 2 ∧ (k - m) % 2 = 1) := by
  have htriangle : |(k : ℚ) - m| ≤ |k - v| + |m - v| := by
    have := abs_sub_le (k : ℚ) v m
    rwa [abs_sub_comm v] at this
  rcases le_or_gt 2 |k - m| with hfar | hclose
  · have hfar' : (2 : ℚ) ≤ |(k : ℚ) - m| := by exact_mod_cast hfar
    exact .inl (by linarith)
  · have hone : |k - m| = 1 := by
      have : 0 < |k - m| := abs_pos.mpr (sub_ne_zero.mpr hne)
      omega
    have hone' : |(k : ℚ) - m| = 1 := by exact_mod_cast hone
    rcases lt_or_ge |m - v| |k - v| with h | h
    · exact .inl h
    · refine .inr ⟨by linarith, by linarith, ?_⟩
      rcases (abs_eq zero_le_one).mp hone with hnext | hprevious <;> omega

theorem abs_mul_sub (q : ℤ) (i v : ℚ) : |i * 2 ^ q - v| = |i - v / 2 ^ q| * 2 ^ q := by
  have hunit : (0 : ℚ) < 2 ^ q := by positivity
  rw [← abs_of_pos hunit, ← abs_mul, abs_of_pos hunit, sub_mul, div_mul_cancel₀ _ hunit.ne']

/-! ## Rounding to a place -/

/-- `m` units of the place `q` are the rounding of `v`, and `q` is the place that 53 bits of `v` end
    at, or the lowest place. -/
structure RoundsTo (v : ℚ) (m : ℕ) (q : ℤ) : Prop where
  lowest : -1074 ≤ q
  below : v < 2 ^ (q + 53)
  above : 2 ^ (q + 52) ≤ v ∨ q = -1074
  near : |m - v / 2 ^ q| ≤ 1 / 2
  tie : |m - v / 2 ^ q| = 1 / 2 → m % 2 = 0

theorem roundsTo_zero : RoundsTo 0 0 (-1074) :=
  ⟨le_rfl, by positivity, .inr rfl, by norm_num, by norm_num⟩

/-- The bits that `nearestMagnitude` gives are those of a rounding to a place. -/
theorem exists_nearestMagnitude_eq (num : ℕ) {den : ℕ} (hden : 0 < den) :
    ∃ m q, RoundsTo (num / den) m q ∧
      nearestMagnitude num den = min ((q + 1074).toNat * 2 ^ 52 + m) (2047 * 2 ^ 52) := by
  rcases Nat.eq_zero_or_pos num with rfl | hnum
  · refine ⟨0, -1074, ?_, by simp [nearestMagnitude]⟩
    rw [Nat.cast_zero, zero_div]
    exact roundsTo_zero
  · obtain ⟨hfloor, hceil⟩ := floorLog2_bounds hnum hden
    have hscaled := scaled_div num den (lastPlace num den)
    have hpos : 0 < den * Nat.pow 2 (lastPlace num den).toNat :=
      Nat.mul_pos hden (Nat.pow_pos (by decide))
    have hround := roundHalfEven_near (num * Nat.pow 2 (-lastPlace num den).toNat) hpos
    rw [hscaled] at hround
    refine ⟨_, lastPlace num den, ⟨le_max_right _ _, ?_, ?_, hround.1, hround.2⟩, ?_⟩
    · have hle : floorLog2 num den + 1 ≤ lastPlace num den + 53 := by
        unfold lastPlace
        omega
      exact hceil.trans_le (zpow_le_zpow_right₀ one_le_two hle)
    · rcases le_total (floorLog2 num den - 52) (-1074) with h | h
      · exact .inr (max_eq_right h)
      · refine .inl ?_
        have hplace : lastPlace num den = floorLog2 num den - 52 := max_eq_left h
        rw [hplace, sub_add_cancel]
        exact hfloor
    · unfold nearestMagnitude
      rw [if_neg hnum.ne']
      simp only [Nat.pow_eq]

theorem exists_roundsTo {v : ℚ} (hv : 0 ≤ v) : ∃ m q, RoundsTo v m q := by
  obtain ⟨m, q, h, -⟩ := exists_nearestMagnitude_eq v.num.toNat v.den_pos
  refine ⟨m, q, ?_⟩
  have hnum : (v.num.toNat : ℚ) = v.num := by
    exact_mod_cast Int.toNat_of_nonneg (Rat.num_nonneg.mpr hv)
  rwa [hnum, Rat.num_div_den] at h

/-- Half a place above the largest finite double, which is as near as `2 ^ 1024` there. -/
def overflow : ℚ := (2 ^ 53 - 1 / 2) * 2 ^ (971 : ℤ)

theorem overflow_pos : 0 < overflow :=
  mul_pos (by norm_num) (zpow_pos two_pos _)

theorem overflow_lt : overflow < 2 ^ (1024 : ℤ) := by
  have hsplit : (2 : ℚ) ^ (1024 : ℤ) = 2 ^ 53 * 2 ^ (971 : ℤ) := by
    rw [← zpow_natCast, ← zpow_add₀ two_ne_zero]
    rfl
  rw [overflow, hsplit]
  exact mul_lt_mul_of_pos_right (by norm_num) (by positivity)

theorem le_overflow : (2 : ℚ) ^ (1023 : ℤ) ≤ overflow := by
  have hsplit : (2 : ℚ) ^ (1023 : ℤ) = 2 ^ 52 * 2 ^ (971 : ℤ) := by
    rw [← zpow_natCast, ← zpow_add₀ two_ne_zero]
    rfl
  rw [overflow, hsplit]
  exact mul_le_mul_of_nonneg_right (by norm_num) (by positivity)

theorem magnitude_lt_overflow {x : Binary64} (h : x.isFinite = true) : x.magnitude < overflow := by
  have hm : (x.significand : ℚ) + 1 ≤ 2 ^ 53 := by exact_mod_cast x.significand_lt
  have hq : (2 : ℚ) ^ x.place ≤ 2 ^ (971 : ℤ) := zpow_le_zpow_right₀ one_le_two (place_le h)
  calc x.magnitude ≤ (2 ^ 53 - 1) * 2 ^ (971 : ℤ) :=
        mul_le_mul (by linarith) hq (by positivity) (by norm_num)
    _ < overflow := mul_lt_mul_of_pos_right (by norm_num) (by positivity)

namespace RoundsTo

variable {v : ℚ} {m : ℕ} {q : ℤ}

theorem scaled_lt (h : RoundsTo v m q) : v / 2 ^ q < 2 ^ 53 := by
  rw [div_lt_iff₀ (by positivity)]
  have hsplit : (2 : ℚ) ^ (q + 53) = 2 ^ 53 * 2 ^ q := by
    rw [add_comm, zpow_add₀ two_ne_zero]
    rfl
  rw [← hsplit]
  exact h.below

theorem le (h : RoundsTo v m q) : m ≤ 2 ^ 53 := by
  have hnear := (abs_le.mp h.near).2
  have hscaled := h.scaled_lt
  have hlt : (m : ℚ) < 2 ^ 53 + 1 := by linarith
  have : m < 2 ^ 53 + 1 := by exact_mod_cast hlt
  omega

theorem normal (h : RoundsTo v m q) : 2 ^ 52 ≤ m ∨ q = -1074 := by
  rcases h.above with habove | hq
  · left
    have hscaled : (2 : ℚ) ^ 52 ≤ v / 2 ^ q := by
      rw [le_div_iff₀ (by positivity)]
      refine le_trans (le_of_eq ?_) habove
      rw [add_comm, zpow_add₀ two_ne_zero]
      rfl
    have hnear := (abs_le.mp h.near).1
    have hlt : (2 : ℚ) ^ 52 < m + 1 := by linarith
    have : 2 ^ 52 < m + 1 := by exact_mod_cast hlt
    omega
  · exact .inr hq

/-- Below the overflow bound the place and the significand are those of a double. -/
theorem fits (h : RoundsTo v m q) (hv : v < overflow) : Fits m q := by
  have hhighest : q ≤ 971 := by
    by_contra hq
    rcases h.above with habove | hlow
    · have hbig : (2 : ℚ) ^ (1024 : ℤ) ≤ v :=
        (zpow_le_zpow_right₀ one_le_two (by omega)).trans habove
      linarith [overflow_lt]
    · omega
  refine ⟨h.le, h.normal, h.lowest, hhighest, ?_⟩
  rintro rfl
  have hscaled : v / 2 ^ (971 : ℤ) < 2 ^ 53 - 1 / 2 := by
    rw [div_lt_iff₀ (by positivity)]
    exact hv
  have hnear := (abs_le.mp h.near).2
  have hlt : (m : ℚ) < 2 ^ 53 := by linarith
  exact_mod_cast hlt

/-- From the overflow bound on the magnitude bits reach those of infinity. -/
theorem infinite (h : RoundsTo v m q) (hv : overflow ≤ v) :
    2047 * 2 ^ 52 ≤ (q + 1074).toNat * 2 ^ 52 + m := by
  have hplace : 971 ≤ q := by
    by_contra hq
    have hsmall : v < 2 ^ (1023 : ℤ) :=
      h.below.trans_le (zpow_le_zpow_right₀ one_le_two (by omega))
    linarith [le_overflow]
  rcases hplace.lt_or_eq with hq | rfl
  · have := h.normal
    omega
  · have hscaled : 2 ^ 53 - 1 / 2 ≤ v / 2 ^ (971 : ℤ) := by
      rw [le_div_iff₀ (by positivity)]
      exact hv
    have hnear := (abs_le.mp h.near).1
    have hle : 2 ^ 53 ≤ (m : ℚ) + 1 := by linarith
    have hle' : 2 ^ 53 ≤ m + 1 := by exact_mod_cast hle
    -- the significand below `2 ^ 53` is odd, and a tie does not go there
    have hne : m ≠ 2 ^ 53 - 1 := by
      rintro rfl
      have htie : |((2 ^ 53 - 1 : ℕ) : ℚ) - v / 2 ^ (971 : ℤ)| = 1 / 2 := by
        have hcast : ((2 ^ 53 - 1 : ℕ) : ℚ) = 2 ^ 53 - 1 := by norm_num
        refine le_antisymm h.near ?_
        rw [abs_sub_comm, hcast]
        exact le_trans (by linarith) (le_abs_self _)
      have := h.tie htie
      norm_num at this
    omega

/-- In units of the place no other integer is nearer. -/
theorem abs_mul_sub_lt (h : RoundsTo v m q) {k : ℤ} (hne : k ≠ m) :
    |m * 2 ^ q - v| < |k * 2 ^ q - v| ∨
      (|m * 2 ^ q - v| = |k * 2 ^ q - v| ∧ m % 2 = 0 ∧ (k - m) % 2 = 1) := by
  have hunit : (0 : ℚ) < 2 ^ q := by positivity
  rw [abs_mul_sub, abs_mul_sub, mul_lt_mul_iff_left₀ hunit, mul_left_inj' hunit.ne']
  obtain hlt | ⟨heq, hhalf, hodd⟩ := abs_sub_lt_of_ne (m := (m : ℤ)) h.near hne
  · exact .inl (by exact_mod_cast hlt)
  · exact .inr ⟨by exact_mod_cast heq, h.tie (by exact_mod_cast hhalf), hodd⟩

/-- Every other multiple of a higher place is further away, or just as far with an odd
    significand. -/
theorem nearer_of_le (h : RoundsTo v m q) {k p : ℤ} (hqp : q ≤ p)
    (hne : (k * 2 ^ p : ℚ) ≠ m * 2 ^ q) :
    |m * 2 ^ q - v| < |k * 2 ^ p - v| ∨
      (|m * 2 ^ q - v| = |k * 2 ^ p - v| ∧ m % 2 = 0 ∧ k % 2 = 1) := by
  have hmultiple : (k * 2 ^ p : ℚ) = (k * 2 ^ (p - q).toNat : ℤ) * 2 ^ q := by
    have hexponent : ((p - q).toNat : ℤ) = p - q := Int.toNat_of_nonneg (by omega)
    push_cast
    rw [← zpow_natCast, hexponent, mul_assoc, ← zpow_add₀ two_ne_zero, sub_add_cancel]
  have hne' : k * 2 ^ (p - q).toNat ≠ (m : ℤ) := by
    intro heq
    rw [hmultiple, heq] at hne
    exact hne (by push_cast; rfl)
  rw [hmultiple]
  obtain hlt | ⟨heq, heven, hodd⟩ := h.abs_mul_sub_lt hne'
  · exact .inl hlt
  · refine .inr ⟨heq, heven, ?_⟩
    -- an odd multiple of the unit has the unit as its place
    rcases Nat.eq_zero_or_pos (p - q).toNat with hzero | hpos
    · rw [hzero, pow_zero, mul_one] at hodd
      omega
    · obtain ⟨j, hj⟩ : ∃ j, (p - q).toNat = j + 1 := ⟨(p - q).toNat - 1, by omega⟩
      rw [hj, pow_succ, ← mul_assoc] at hodd
      omega

/-- What lies below the 53 bits that are kept is further away. -/
theorem nearer_of_lt (h : RoundsTo v m q) {k p : ℤ} (hk : |k| < 2 ^ 53) (hp : -1074 ≤ p)
    (hpq : p < q) : |m * 2 ^ q - v| < |k * 2 ^ p - v| := by
  have habove : 2 ^ (q + 52) ≤ v := h.above.resolve_right (by omega)
  have hsplit : (2 : ℚ) ^ (q + 52) = ((2 ^ 52 : ℤ) : ℚ) * 2 ^ q := by
    rw [add_comm, zpow_add₀ two_ne_zero]
    norm_num
  have hsmall : (k * 2 ^ p : ℚ) < 2 ^ (q + 52) := by
    have hk' : (k : ℚ) < 2 ^ 53 := by exact_mod_cast (abs_lt.mp hk).2
    calc (k * 2 ^ p : ℚ) < 2 ^ 53 * 2 ^ p := mul_lt_mul_of_pos_right hk' (by positivity)
      _ = 2 ^ (53 + p) := by rw [zpow_add₀ two_ne_zero]; rfl
      _ ≤ 2 ^ (q + 52) := zpow_le_zpow_right₀ one_le_two (by omega)
  have hpower : |(m : ℚ) * 2 ^ q - v| ≤ |2 ^ (q + 52) - v| := by
    rw [hsplit]
    by_cases heq : (2 ^ 52 : ℤ) = m
    · rw [heq]
      exact le_of_eq (by push_cast; rfl)
    · obtain hlt | ⟨heq, -⟩ := h.abs_mul_sub_lt heq
      · exact hlt.le
      · exact heq.le
  refine hpower.trans_lt ?_
  rw [abs_of_nonpos (by linarith), abs_of_neg (by linarith)]
  linarith

/-- Every other number with at most 53 bits is further away, or just as far with an odd
    significand. -/
theorem nearer (h : RoundsTo v m q) {k p : ℤ} (hk : |k| < 2 ^ 53) (hp : -1074 ≤ p)
    (hne : (k * 2 ^ p : ℚ) ≠ m * 2 ^ q) :
    |m * 2 ^ q - v| < |k * 2 ^ p - v| ∨
      (|m * 2 ^ q - v| = |k * 2 ^ p - v| ∧ m % 2 = 0 ∧ k % 2 = 1) := by
  rcases le_or_gt q p with hqp | hpq
  · exact h.nearer_of_le hqp hne
  · exact .inl (h.nearer_of_lt hk hp hpq)

end RoundsTo

/-! ## The nearest double -/

/-- `x` is the double that `v` rounds to: the nearest finite double, and of two that are equally
    near the one with an even significand; an infinity from the overflow bound on. -/
structure Nearest (x : Binary64) (v : ℚ) : Prop where
  isFinite : |v| < overflow → x.isFinite = true
  nearest : |v| < overflow → ∀ y : Binary64, y.isFinite = true → y.value ≠ x.value →
    |x.value - v| < |y.value - v| ∨ (|x.value - v| = |y.value - v| ∧ x.significand % 2 = 0)
  infinite : overflow ≤ |v| → x = infinity (v < 0)

section

variable {v : ℚ} {m : ℕ} {q : ℤ} {x y : Binary64}

/-- Distances do not depend on a common sign. -/
theorem abs_sub_signed (negative : Bool) (a b : ℚ) :
    |(if negative then -a else a) - if negative then -b else b| = |a - b| := by
  cases negative with
  | false => rfl
  | true => rw [if_pos rfl, if_pos rfl, neg_sub_neg, abs_sub_comm]

theorem RoundsTo.nearer_ofPlace (h : RoundsTo v m q) (hfits : Fits m q) (negative : Bool)
    (hne : y.value ≠ (ofPlace negative m q).value) :
    |(ofPlace negative m q).value - if negative then -v else v| <
        |y.value - if negative then -v else v| ∨
      (|(ofPlace negative m q).value - if negative then -v else v| =
        |y.value - if negative then -v else v| ∧ m % 2 = 0 ∧ y.significand % 2 = 1) := by
  have hvalue : y.value =
      if negative then -(((if negative then -y.signed else y.signed : ℤ) : ℚ) * 2 ^ y.place)
      else ((if negative then -y.signed else y.signed : ℤ) : ℚ) * 2 ^ y.place := by
    rw [value_eq_signed]
    cases negative <;> simp
  have hsignificand : |(if negative then -y.signed else y.signed)| = y.significand := by
    rw [← natAbs_signed, Int.natCast_natAbs]
    cases negative
    · rfl
    · rw [if_pos rfl, abs_neg]
  have hsmall : |(if negative then -y.signed else y.signed)| < 2 ^ 53 := by
    rw [hsignificand]
    exact_mod_cast y.significand_lt
  rw [hfits.value_ofPlace] at hne ⊢
  rw [hvalue] at hne
  have hne' : ((if negative then -y.signed else y.signed : ℤ) : ℚ) * 2 ^ y.place ≠ m * 2 ^ q := by
    intro heq
    rw [heq] at hne
    exact hne rfl
  rw [hvalue, abs_sub_signed, abs_sub_signed]
  obtain hlt | ⟨heq, heven, hodd⟩ := h.nearer hsmall y.le_place hne'
  · exact .inl hlt
  · refine .inr ⟨heq, heven, ?_⟩
    rw [← natAbs_signed]
    cases negative <;> simp at hodd <;> omega

theorem RoundsTo.nearest (h : RoundsTo v m q) (hv : 0 ≤ v) (negative : Bool) :
    (ofMagnitude negative (min ((q + 1074).toNat * 2 ^ 52 + m) (2047 * 2 ^ 52))).Nearest
      (if negative then -v else v) := by
  have habs : |if negative then -v else v| = v := by
    cases negative
    · exact abs_of_nonneg hv
    · rw [if_pos rfl, abs_neg, abs_of_nonneg hv]
  rcases lt_or_ge v overflow with hlt | hge
  · have hfits := h.fits hlt
    rw [min_eq_left hfits.bound.le]
    refine ⟨fun _ => hfits.isFinite_ofPlace, fun _ y _ hne => ?_, fun hge => ?_⟩
    · obtain hnear | ⟨heq, heven, -⟩ := h.nearer_ofPlace hfits negative hne
      · exact .inl hnear
      · exact .inr ⟨heq, hfits.even_ofPlace heven⟩
    · rw [habs] at hge
      exact absurd hlt hge.not_gt
  · rw [min_eq_right (h.infinite hge)]
    refine ⟨fun hlt => ?_, fun hlt => ?_, fun _ => ?_⟩
    · rw [habs] at hlt
      exact absurd hlt hge.not_gt
    · rw [habs] at hlt
      exact absurd hlt hge.not_gt
    · have hpos : 0 < v := overflow_pos.trans_le hge
      unfold infinity
      congr 1
      cases negative
      · exact (decide_eq_false (by simpa using hv)).symm
      · exact (decide_eq_true (by simpa using hpos)).symm

/-- `ofRatio` gives the nearest double. -/
theorem ofRatio_nearest (negative : Bool) (num : ℕ) {den : ℕ} (hden : 0 < den) :
    (ofRatio negative num den).Nearest (if negative then -(num / den : ℚ) else num / den) := by
  obtain ⟨m, q, h, hbits⟩ := exists_nearestMagnitude_eq num hden
  unfold ofRatio
  rw [hbits]
  exact h.nearest (by positivity) negative

theorem ofScaled_nearest (negative : Bool) (m : ℕ) (q : ℤ) :
    (ofScaled negative m q).Nearest (if negative then -(m * 2 ^ q : ℚ) else m * 2 ^ q) := by
  have hden : 0 < Nat.pow 2 (-q).toNat := Nat.pow_pos (by decide)
  have hvalue : ((m * Nat.pow 2 q.toNat : ℕ) : ℚ) / (Nat.pow 2 (-q).toNat : ℕ) = m * 2 ^ q := by
    rw [zpow_eq_div_toNat, Nat.pow_eq, Nat.pow_eq, ← mul_div_assoc]
    push_cast
    rfl
  have h := ofRatio_nearest negative (m * Nat.pow 2 q.toNat) hden
  rwa [hvalue] at h

theorem ofNat_nearest (n : ℕ) : (ofNat n).Nearest n := by
  have h := ofRatio_nearest false n one_pos
  rwa [if_neg Bool.false_ne_true, Nat.cast_one, div_one] at h

namespace Nearest

/-- Two doubles that a rational rounds to have the same value. -/
theorem value_eq (hx : x.Nearest v) (hy : y.Nearest v) (hv : |v| < overflow) :
    x.value = y.value := by
  obtain ⟨m, q, h⟩ := exists_roundsTo (abs_nonneg v)
  have hsigned : (if decide (v < 0) then -|v| else |v|) = v := by
    rcases lt_or_ge v 0 with hneg | hpos
    · rw [if_pos (decide_eq_true hneg), abs_of_neg hneg, neg_neg]
    · rw [if_neg (by simpa using hpos), abs_of_nonneg hpos]
  -- both are the rounding of the rational to its place
  have hplace (z : Binary64) (hz : z.Nearest v) :
      z.value = (ofPlace (decide (v < 0)) m q).value := by
    by_contra hne
    have hfits := h.fits hv
    have hfar := h.nearer_ofPlace hfits (decide (v < 0)) hne
    rw [hsigned] at hfar
    have hnear := hz.nearest hv _ hfits.isFinite_ofPlace (Ne.symm hne)
    rcases hnear with hnear | ⟨hnear, heven⟩
    · rcases hfar with hfar | ⟨hfar, -⟩
      · exact absurd hnear hfar.not_gt
      · exact absurd hfar hnear.ne'
    · rcases hfar with hfar | ⟨-, -, hodd⟩
      · exact absurd hnear hfar.ne'
      · omega
  rw [hplace x hx, hplace y hy]

/-- A rational rounds to one double of each sign. -/
theorem eq (hx : x.Nearest v) (hy : y.Nearest v) (hsign : x.isNegative = y.isNegative) :
    x = y := by
  rcases lt_or_ge |v| overflow with hv | hv
  · exact eq_of_value_eq (hx.isFinite hv) (hy.isFinite hv) hsign (hx.value_eq hy hv)
  · rw [hx.infinite hv, hy.infinite hv]

/-- The value of a double rounds to this value. -/
theorem represents (hx : x.Nearest v) (hy : y.Represents v) : x.Represents v := by
  have hbound : |v| < overflow := by
    rw [← hy.value, abs_value]
    exact magnitude_lt_overflow hy.isFinite
  refine ⟨hx.isFinite hbound, ?_⟩
  by_contra hne
  have hne' : y.value ≠ x.value := by
    rw [hy.value]
    exact Ne.symm hne
  have hzero : |y.value - v| = 0 := by rw [hy.value, sub_self, abs_zero]
  rcases hx.nearest hbound y hy.isFinite hne' with h | ⟨h, -⟩
  · rw [hzero] at h
    exact absurd h (abs_nonneg _).not_gt
  · rw [hzero, abs_eq_zero, sub_eq_zero] at h
    exact hne h

end Nearest

end

end ScriptSandbox.Binary64
