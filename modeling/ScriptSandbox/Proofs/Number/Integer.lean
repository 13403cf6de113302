import ScriptSandbox.Proofs.Number.Arithmetic

/-
  Long integers as doubles.

  An integer between `2 ^ (e + 52)` and `2 ^ (e + 53)` is rounded to a number of units of `2 ^ e`
  (`ofNat_eq_ofMagnitude`). Low digits that are put behind an integer of more than 53 bits do not
  change the rounding, unless the integer lies halfway between two doubles and the lower one is
  even: then any digit but zero makes the upper one nearer (`ofNat_append_eq_iff`). One step of
  reading digits in doubles, a product and a sum, is exact up to a single rounding
  (`mul_add_dyadic`).
-/

namespace ScriptSandbox.Binary64

/-! ## Rounding quotients -/

theorem roundHalfEven_eq_or (num den : ℕ) :
    roundHalfEven num den = num / den ∨ roundHalfEven num den = num / den + 1 := by
  unfold roundHalfEven
  simp only
  split
  · exact .inl rfl
  · exact .inr rfl

theorem roundHalfEven_mul_right (m : ℕ) {den : ℕ} (hden : 0 < den) :
    roundHalfEven (m * den) den = m := by
  unfold roundHalfEven
  simp only [Nat.mul_div_cancel _ hden, Nat.mul_mod_left]
  rw [if_pos (.inl (by omega))]

theorem roundHalfEven_mul_mul (num den : ℕ) {scale : ℕ} (hscale : 0 < scale) :
    roundHalfEven (num * scale) (den * scale) = roundHalfEven num den := by
  have hless (r : ℕ) : 2 * (r * scale) < den * scale ↔ 2 * r < den := by
    rw [← mul_assoc, Nat.mul_lt_mul_right hscale]
  have hequal (r : ℕ) : 2 * (r * scale) = den * scale ↔ 2 * r = den := by
    rw [← mul_assoc, Nat.mul_left_inj hscale.ne']
  unfold roundHalfEven
  simp only [Nat.mul_div_mul_right _ _ hscale, Nat.mul_mod_mul_right, hless, hequal]

theorem append_div (num den : ℕ) {scale rest : ℕ} (hrest : rest < scale) :
    (num * scale + rest) / (den * scale) = num / den := by
  rw [mul_comm den, ← Nat.div_div_eq_div_mul, mul_comm num, Nat.mul_add_div (by omega),
    Nat.div_eq_of_lt hrest, add_zero]

theorem append_mod (num den : ℕ) {scale rest : ℕ} (hrest : rest < scale) :
    (num * scale + rest) % (den * scale) = num % den * scale + rest := by
  rw [mul_comm den, Nat.mod_mul, mul_comm num, Nat.mul_add_mod, Nat.mod_eq_of_lt hrest,
    Nat.mul_add_div (by omega), Nat.div_eq_of_lt hrest, add_zero, mul_comm, add_comm]

/-- Digits `rest` behind `num` matter only where `num` alone is a tie that goes down. -/
theorem roundHalfEven_append (num : ℕ) {den scale rest : ℕ} (heven : den % 2 = 0)
    (hrest : rest < scale) :
    roundHalfEven (num * scale + rest) (den * scale) =
      if 2 * (num % den) = den ∧ num / den % 2 = 0 ∧ rest ≠ 0 then num / den + 1
      else roundHalfEven num den := by
  obtain ⟨half, rfl⟩ : ∃ half, den = 2 * half := ⟨den / 2, by omega⟩
  unfold roundHalfEven
  simp only [append_div num _ hrest, append_mod num _ hrest]
  generalize num % (2 * half) = p
  generalize num / (2 * half) = q
  have hless : 2 * (p * scale + rest) < 2 * half * scale ↔ 2 * p < 2 * half := by
    constructor <;> intro h
    · nlinarith
    · have hnext : (p + 1) * scale ≤ half * scale := Nat.mul_le_mul_right _ (by omega)
      nlinarith
  have hequal : 2 * (p * scale + rest) = 2 * half * scale ↔ 2 * p = 2 * half ∧ rest = 0 := by
    constructor
    · intro h
      have hle : p ≤ half := by nlinarith
      have hge : half ≤ p := by nlinarith
      obtain rfl : p = half := by omega
      exact ⟨rfl, by nlinarith⟩
    · rintro ⟨h, rfl⟩
      rw [add_zero, ← mul_assoc, h]
  simp only [hless, hequal]
  split_ifs <;> first | rfl | omega

/-! ## Integers of more than 53 bits -/

section

variable {n e m : ℕ}

/-- A quotient of an integer of its binade has 53 bits. -/
theorem div_bounds (hlow : 2 ^ (e + 52) ≤ n) (hhigh : n < 2 ^ (e + 53)) :
    2 ^ 52 ≤ n / 2 ^ e ∧ n / 2 ^ e < 2 ^ 53 := by
  have hpos : 0 < 2 ^ e := by positivity
  rw [Nat.le_div_iff_mul_le hpos, Nat.div_lt_iff_lt_mul hpos, ← pow_add, ← pow_add, add_comm,
    add_comm 53]
  exact ⟨hlow, hhigh⟩

theorem ofNat_eq_ofMagnitude (hlow : 2 ^ (e + 52) ≤ n) (hhigh : n < 2 ^ (e + 53)) :
    ofNat n = ofMagnitude false
      (min ((e + 1074) * 2 ^ 52 + roundHalfEven n (2 ^ e)) (2047 * 2 ^ 52)) := by
  have hpos : 0 < n := lt_of_lt_of_le (by positivity) hlow
  have hplace : lastPlace n 1 = e := by
    refine lastPlace_eq hpos one_pos (by omega) (.inl ?_) ?_
    · rw [Nat.cast_one, div_one]
      exact_mod_cast hlow
    · rw [Nat.cast_one, div_one]
      exact_mod_cast hhigh
  have hnone : (-(e : ℤ)).toNat = 0 := by omega
  have hindex : ((e : ℤ) + 1074).toNat = e + 1074 := by omega
  unfold ofNat ofRatio nearestMagnitude
  rw [if_neg hpos.ne', hplace]
  simp only [hnone, hindex, Int.toNat_natCast, Nat.pow_eq, pow_zero, mul_one, one_mul]

theorem roundHalfEven_bounds (hlow : 2 ^ (e + 52) ≤ n) (hhigh : n < 2 ^ (e + 53)) :
    2 ^ 52 ≤ roundHalfEven n (2 ^ e) ∧ roundHalfEven n (2 ^ e) ≤ 2 ^ 53 := by
  have hbounds := div_bounds hlow hhigh
  rcases roundHalfEven_eq_or n (2 ^ e) with h | h <;> omega

theorem ofNat_dyadic (hlow : 2 ^ 52 ≤ m) (hhigh : m ≤ 2 ^ 53) :
    ofNat (m * 2 ^ e) = ofMagnitude false (min ((e + 1074) * 2 ^ 52 + m) (2047 * 2 ^ 52)) := by
  rcases hhigh.lt_or_eq with hlt | rfl
  · rw [ofNat_eq_ofMagnitude (e := e), roundHalfEven_mul_right _ (by positivity)]
    · rw [add_comm, pow_add]
      exact Nat.mul_le_mul_right _ hlow
    · rw [add_comm, pow_add]
      exact Nat.mul_lt_mul_of_pos_right hlt (by positivity)
  · -- the carry into the next place
    have hcarry : 2 ^ 53 * 2 ^ e = 2 ^ 52 * 2 ^ (e + 1) := by ring
    rw [hcarry, ofNat_eq_ofMagnitude (e := e + 1), roundHalfEven_mul_right _ (by positivity)]
    · have hbits : (e + 1 + 1074) * 2 ^ 52 + 2 ^ 52 = (e + 1074) * 2 ^ 52 + 2 ^ 53 := by ring
      rw [hbits]
    · rw [add_comm (e + 1), pow_add]
    · rw [← pow_add]
      exact Nat.pow_lt_pow_right (by norm_num) (by omega)

/-- Rounding to a double does not see that the integer has been rounded already, also not after it
    has been scaled by a power of two. -/
theorem ofNat_round_mul (hlow : 2 ^ (e + 52) ≤ n) (hhigh : n < 2 ^ (e + 53)) (b : ℕ) :
    ofNat (roundHalfEven n (2 ^ e) * 2 ^ e * 2 ^ b) = ofNat (n * 2 ^ b) := by
  obtain ⟨hleast, hmost⟩ := roundHalfEven_bounds hlow hhigh
  have hscaled : roundHalfEven (n * 2 ^ b) (2 ^ (e + b)) = roundHalfEven n (2 ^ e) := by
    rw [pow_add, roundHalfEven_mul_mul _ _ (by positivity)]
  have hbinade : e + b + 52 = e + 52 + b ∧ e + b + 53 = e + 53 + b := by omega
  rw [mul_assoc, ← pow_add, ofNat_dyadic hleast hmost, ofNat_eq_ofMagnitude (e := e + b), hscaled]
  · rw [hbinade.1, pow_add]
    exact Nat.mul_le_mul_right _ hlow
  · rw [hbinade.2, pow_add]
    exact Nat.mul_lt_mul_of_pos_right hhigh (by positivity)

theorem ofNat_eq_infinity (h : 2 ^ 1024 ≤ n) : ofNat n = infinity false := by
  have hle : (2 : ℚ) ^ (1024 : ℤ) ≤ n := by
    rw [zpow_ofNat]
    exact_mod_cast h
  have hinfinite := (ofNat_nearest n).infinite
    ((overflow_lt.le.trans hle).trans (le_abs_self _))
  rwa [decide_eq_false (not_lt.mpr (Nat.cast_nonneg n))] at hinfinite

theorem ofNat_represents_dyadic (hm : m < 2 ^ 53) (hlt : m * 2 ^ e < 2 ^ 1024) :
    (ofNat (m * 2 ^ e)).Represents (m * 2 ^ e : ℕ) := by
  have hlt' : ((m : ℚ) * 2 ^ (e : ℤ)) < 2 ^ (1024 : ℕ) := by
    rw [zpow_natCast]
    exact_mod_cast hlt
  obtain ⟨x, hfinite, hsign, hmagnitude⟩ := exists_magnitude_eq hm (by omega) hlt' false
  refine (ofNat_nearest _).represents (y := x) ⟨hfinite, ?_⟩
  rw [value, hsign, if_neg Bool.false_ne_true, hmagnitude, zpow_natCast]
  push_cast
  rfl

/-! ## A step of reading -/

theorem infinity_mul {x : Binary64} (hx : x.isFinite = true) (hzero : x.isZero = false)
    (hsign : x.isNegative = false) : (infinity false).mul x = infinity false := by
  have hnan : (infinity false).isNaN = false := by decide
  have hinfinite : (infinity false).isInfinite = true := by decide
  have hpositive : (infinity false).isNegative = false := by decide
  have hnonzero : (infinity false).isZero = false := by decide
  unfold mul arithmetic
  simp [hnan, hinfinite, hpositive, hnonzero, isNaN_of_isFinite hx, hzero, hsign]

theorem infinity_add {x : Binary64} (hx : x.isFinite = true) :
    (infinity false).add x = infinity false := by
  have hnan : (infinity false).isNaN = false := by decide
  have hinfinite : (infinity false).isInfinite = true := by decide
  unfold add arithmetic sum
  simp [hnan, hinfinite, isNaN_of_isFinite hx, isInfinite_of_isFinite hx]

theorem isNegative_ofNat (n : ℕ) : (ofNat n).isNegative = false :=
  isNegative_ofRatio _ _ _

theorem eq_ofNat {x : Binary64} (h : x.Nearest n) (hsign : x.isNegative = false) : x = ofNat n :=
  h.eq (ofNat_nearest n) (by rw [hsign, isNegative_ofNat])

/-- A product with a power of two is exact, or infinite where the double nearest to the exact
    product is. -/
theorem mul_dyadic {b : ℕ} (hm : m < 2 ^ 53) (hb : b < 53) :
    (ofNat (m * 2 ^ e)).mul (ofNat (2 ^ b)) = ofNat (m * 2 ^ e * 2 ^ b) := by
  have hinteger := ofNat_represents (Nat.pow_lt_pow_right one_lt_two hb)
  have hradix : (ofNat (2 ^ b)).Represents (2 ^ b : ℕ) := by exact_mod_cast hinteger
  rcases lt_or_ge (m * 2 ^ e) (2 ^ 1024) with hsmall | hlarge
  · have hfactor := ofNat_represents_dyadic hm hsmall
    have hnear := mul_nearest hfactor.isFinite hradix.isFinite
    rw [hfactor.value, hradix.value, ← Nat.cast_mul] at hnear
    refine eq_ofNat hnear ?_
    rw [mul_eq hfactor.isFinite hradix.isFinite, ofScaled, isNegative_ofRatio,
      isNegative_ofNat, isNegative_ofNat]
    rfl
  · have hzero : (ofNat (2 ^ b)).isZero = false := hinteger.isZero (by positivity)
    rw [ofNat_eq_infinity hlarge, infinity_mul hradix.isFinite hzero (isNegative_ofNat _),
      ofNat_eq_infinity (hlarge.trans (Nat.le_mul_of_pos_right _ (by positivity)))]

theorem add_dyadic {d : ℕ} (hm : m < 2 ^ 53) (hd : d < 2 ^ 53) :
    (ofNat (m * 2 ^ e)).add (ofNat d) = ofNat (m * 2 ^ e + d) := by
  have hdigit : (ofNat d).Represents (d : ℕ) := by exact_mod_cast ofNat_represents hd
  rcases lt_or_ge (m * 2 ^ e) (2 ^ 1024) with hsmall | hlarge
  · have hsummand := ofNat_represents_dyadic hm hsmall
    have hnear := add_nearest hsummand.isFinite hdigit.isFinite
    rw [hsummand.value, hdigit.value, ← Nat.cast_add] at hnear
    exact eq_ofNat hnear (isNegative_add hsummand.isFinite hdigit.isFinite (isNegative_ofNat _)
      (isNegative_ofNat _))
  · rw [ofNat_eq_infinity hlarge, infinity_add hdigit.isFinite,
      ofNat_eq_infinity (hlarge.trans (Nat.le_add_right _ _))]

/-- A product with a power of two and the sum with a digit round once together. -/
theorem mul_add_dyadic {b d : ℕ} (hm : m ≤ 2 ^ 53) (hb : b < 53) (hd : d < 2 ^ 53) :
    ((ofNat (m * 2 ^ e)).mul (ofNat (2 ^ b))).add (ofNat d) = ofNat (m * 2 ^ e * 2 ^ b + d) := by
  wlog hlt : m < 2 ^ 53 generalizing m e
  · have hcarry : m * 2 ^ e = 2 ^ 52 * 2 ^ (e + 1) := by
      rw [le_antisymm hm (not_lt.mp hlt)]
      ring
    rw [hcarry]
    exact this (by norm_num) (by norm_num)
  rw [mul_dyadic hlt hb, mul_assoc, ← pow_add]
  exact add_dyadic hlt hd

/-! ## Digits behind a long integer -/

/-- An integer in the middle between two neighbouring doubles, of which the lower one is even. -/
def Halfway (p : ℕ) : Prop :=
  ∃ m e, m % 2 = 0 ∧ 2 ^ 52 ≤ m ∧ m < 2 ^ 53 ∧ p = (2 * m + 1) * 2 ^ e

theorem exists_binade {p : ℕ} (h : 2 ^ 53 ≤ p) :
    ∃ e, 2 ^ (e + 1 + 52) ≤ p ∧ p < 2 ^ (e + 1 + 53) := by
  have hlog : 53 ≤ Nat.log2 p := (Nat.le_log2 (by omega)).mpr h
  refine ⟨Nat.log2 p - 53, ?_, ?_⟩
  · have hexponent : Nat.log2 p - 53 + 1 + 52 = Nat.log2 p := by omega
    rw [hexponent]
    exact Nat.log2_self_le (by omega)
  · have hexponent : Nat.log2 p - 53 + 1 + 53 = Nat.log2 p + 1 := by omega
    rw [hexponent]
    exact Nat.lt_log2_self

/-- A tie that goes down, in units of the two doubles. -/
theorem halfway_iff {p : ℕ} (hlow : 2 ^ (e + 1 + 52) ≤ p) (hhigh : p < 2 ^ (e + 1 + 53)) :
    Halfway p ↔ 2 * (p % 2 ^ (e + 1)) = 2 ^ (e + 1) ∧ p / 2 ^ (e + 1) % 2 = 0 := by
  constructor
  · rintro ⟨m, k, heven, hleast, hmost, rfl⟩
    obtain rfl : k = e := by
      have hbelow : 2 ^ (53 + k) ≤ (2 * m + 1) * 2 ^ k := by
        rw [pow_add]
        exact Nat.mul_le_mul_right _ (by omega)
      have habove : (2 * m + 1) * 2 ^ k < 2 ^ (54 + k) := by
        rw [pow_add]
        exact Nat.mul_lt_mul_of_pos_right (by omega) (by positivity)
      have h₁ : e + 1 + 52 < 54 + k := (Nat.pow_lt_pow_iff_right (by norm_num)).mp
        (hlow.trans_lt habove)
      have h₂ : 53 + k < e + 1 + 53 := (Nat.pow_lt_pow_iff_right (by norm_num)).mp
        (hbelow.trans_lt hhigh)
      omega
    have hsplit : (2 * m + 1) * 2 ^ k = 2 ^ (k + 1) * m + 2 ^ k := by ring
    have hrest : 2 ^ k < 2 ^ (k + 1) := Nat.pow_lt_pow_right (by norm_num) (by omega)
    rw [hsplit, Nat.mul_add_mod, Nat.mod_eq_of_lt hrest, Nat.mul_add_div (by positivity),
      Nat.div_eq_of_lt hrest]
    exact ⟨by ring, heven⟩
  · rintro ⟨hhalf, heven⟩
    obtain ⟨hleast, hmost⟩ := div_bounds hlow hhigh
    refine ⟨p / 2 ^ (e + 1), e, heven, hleast, hmost, ?_⟩
    have hdouble : 2 ^ (e + 1) = 2 * 2 ^ e := by ring
    have hunit : p % 2 ^ (e + 1) = 2 ^ e :=
      Nat.eq_of_mul_eq_mul_left two_pos (hhalf.trans hdouble)
    calc p = p / 2 ^ (e + 1) * 2 ^ (e + 1) + p % 2 ^ (e + 1) := (Nat.div_add_mod' _ _).symm
      _ = (2 * (p / 2 ^ (e + 1)) + 1) * 2 ^ e := by
        rw [hunit]
        ring

theorem ofMagnitude_inj {M N : ℕ} :
    ofMagnitude false (min M (2047 * 2 ^ 52)) = ofMagnitude false (min N (2047 * 2 ^ 52)) ↔
      min M (2047 * 2 ^ 52) = min N (2047 * 2 ^ 52) := by
  have hbound (K : ℕ) : min K (2047 * 2 ^ 52) < 2 ^ 63 := (min_le_right _ _).trans_lt (by norm_num)
  refine ⟨fun h => ?_, fun h => by rw [h]⟩
  have hbits := congrArg (fun x : Binary64 => x.bits.toNat) h
  simpa only [bits_ofMagnitude (hbound _), Bool.false_eq_true, if_false] using hbits

/-- The next significand gives another double, unless both are out of range. -/
theorem min_magnitude_succ_eq_iff (hlow : 2 ^ 52 ≤ m) (hhigh : m < 2 ^ 53) (heven : m % 2 = 0) :
    min ((e + 1074) * 2 ^ 52 + (m + 1)) (2047 * 2 ^ 52) =
      min ((e + 1074) * 2 ^ 52 + m) (2047 * 2 ^ 52) ↔ ¬e + 52 < 1024 := by
  omega

/-- Digits that follow a long integer change its rounding just where the integer is a tie that goes
    down, a digit is not zero, and the whole is not out of range. -/
theorem ofNat_append_eq_iff {p k rest : ℕ} (hp : 2 ^ 53 ≤ p) (hrest : rest < 2 ^ k) :
    ofNat (p * 2 ^ k + rest) = ofNat (p * 2 ^ k) ↔
      ¬(p * 2 ^ k + rest < 2 ^ 1024 ∧ Halfway p ∧ rest ≠ 0) := by
  obtain ⟨e, hlow, hhigh⟩ := exists_binade hp
  obtain ⟨hleast, hmost⟩ := div_bounds hlow hhigh
  have hk : 0 < 2 ^ k := by positivity
  have hlow' : 2 ^ (e + 1 + k + 52) ≤ p * 2 ^ k := by
    rw [add_right_comm, pow_add]
    exact Nat.mul_le_mul_right _ hlow
  have hlow'' : 2 ^ (e + 1 + k + 52) ≤ p * 2 ^ k + rest := hlow'.trans (Nat.le_add_right _ _)
  have hhigh' : p * 2 ^ k + rest < 2 ^ (e + 1 + k + 53) :=
    calc p * 2 ^ k + rest < (p + 1) * 2 ^ k := by rw [Nat.succ_mul]; omega
      _ ≤ 2 ^ (e + 1 + 53) * 2 ^ k := Nat.mul_le_mul_right _ hhigh
      _ = 2 ^ (e + 1 + k + 53) := by rw [← pow_add, add_right_comm]
  have hrange : p * 2 ^ k + rest < 2 ^ 1024 ↔ e + 1 + k + 52 < 1024 := by
    constructor <;> intro h
    · exact (pow_lt_pow_iff_right₀ one_lt_two).mp (hlow''.trans_lt h)
    · have hexponent : e + 1 + k + 53 ≤ 1024 := h
      exact hhigh'.trans_le (pow_le_pow_right₀ one_le_two hexponent)
  rw [ofNat_eq_ofMagnitude hlow'' hhigh',
    ofNat_eq_ofMagnitude hlow' ((Nat.le_add_right _ _).trans_lt hhigh'), pow_add,
    roundHalfEven_append p (by rw [pow_succ]; exact Nat.mul_mod_left _ _) hrest,
    roundHalfEven_mul_mul _ _ hk, ofMagnitude_inj, hrange, halfway_iff hlow hhigh, and_assoc]
  split
  · next h =>
    have hdown : roundHalfEven p (2 ^ (e + 1)) = p / 2 ^ (e + 1) := by
      unfold roundHalfEven
      exact if_pos (.inr ⟨h.1, h.2.1⟩)
    rw [hdown, min_magnitude_succ_eq_iff hleast hmost h.2.1]
    simp only [h, and_true, ne_eq, not_false_eq_true]
  · next h =>
    simp only [h, and_false, not_false_eq_true]

end

end ScriptSandbox.Binary64
