import Mathlib.Data.Bool.AllAny
import ScriptSandbox.Number.Numeral
import ScriptSandbox.Number.Text
import ScriptSandbox.Proofs.Number.Shortest

/-
  Number text reads back.

  A layout writes the digits of a coefficient in one of four ways. For each of them the reader of
  decimals finds a coefficient and an exponent again (`readUnsigned?`), not always the same ones but
  always of the same value (`Layout.exists_readUnsigned?_write`). In front of the decimals the
  reader of strings looks for blanks, spellings of infinity and radix marks; a text of digits,
  point, exponent letter and signs has none of these (`readChars_of_isNumeral`). The shortest digits
  of a double round back to it, so that its text is read as the double itself (`ofText_text`).
-/

namespace ScriptSandbox

open Number

namespace Number

/-! ## Runs of digits -/

theorem isDigit_of_mem_digitsOf {n : ℕ} {c : Char} (h : c ∈ digitsOf n) : c.isDigit = true :=
  Nat.isDigit_of_mem_toDigits (by decide) (by decide) h

theorem digitsOf_ne_nil (n : ℕ) : digitsOf n ≠ [] :=
  Nat.toDigits_ne_nil

theorem isDigit_of_mem_zeros {z : ℕ} {c : Char} (h : c ∈ List.replicate z '0') :
    c.isDigit = true := by
  rw [List.eq_of_mem_replicate h]
  rfl

theorem natOfDigits_eq (ds : List Char) : natOfDigits ds = Nat.ofDigitChars 10 ds 0 := rfl

@[simp]
theorem natOfDigits_digitsOf (n : ℕ) : natOfDigits (digitsOf n) = n :=
  Nat.ofDigitChars_toDigits (by decide) (by decide)

theorem natOfDigits_append_zeros (ds : List Char) (z : ℕ) :
    natOfDigits (ds ++ List.replicate z '0') = natOfDigits ds * 10 ^ z := by
  rw [natOfDigits_eq, Nat.ofDigitChars_append, Nat.ofDigitChars_replicate_zero, mul_comm]
  rfl

theorem natOfDigits_zeros_append (z : ℕ) (ds : List Char) :
    natOfDigits (List.replicate z '0' ++ ds) = natOfDigits ds := by
  rw [natOfDigits_eq, Nat.ofDigitChars_append, Nat.ofDigitChars_replicate_zero, mul_zero]
  rfl

/-- A run of digits ends where the rest does not start with one. -/
theorem spanDigits_append {ds rest : List Char} (hds : ∀ c ∈ ds, c.isDigit = true)
    (hrest : ∀ c ∈ rest.head?, c.isDigit = false) : spanDigits (ds ++ rest) = (ds, rest) := by
  have htake : rest.takeWhile Char.isDigit = [] := by
    cases rest with
    | nil => rfl
    | cons c cs => exact List.takeWhile_cons_of_neg (by simp [hrest c rfl])
  have hdrop : rest.dropWhile Char.isDigit = rest := by
    cases rest with
    | nil => rfl
    | cons c cs => exact List.dropWhile_cons_of_neg (by simp [hrest c rfl])
  unfold spanDigits
  rw [List.span_eq_takeWhile_dropWhile, List.takeWhile_append_of_pos hds,
    List.dropWhile_append_of_pos hds, htake, hdrop, List.append_nil]

theorem spanDigits_all {ds : List Char} (hds : ∀ c ∈ ds, c.isDigit = true) :
    spanDigits ds = (ds, []) := by
  have h : spanDigits (ds ++ []) = (ds, []) := spanDigits_append hds (by simp)
  rwa [List.append_nil] at h

/-! ## Unsigned numerals -/

/-- The number that a decimal denotes. -/
def Decimal.value (d : Decimal) : ℚ := d.coefficient * 10 ^ d.exponent

/-- A decimal numeral behind its sign. -/
def readUnsigned? (cs : List Char) : Option Decimal :=
  let (whole, cs) := spanDigits cs
  let (fraction, cs) := takeFraction cs
  if whole.isEmpty && fraction.isEmpty then none
  else
    (readExponent? cs).map fun e => ⟨natOfDigits (whole ++ fraction), e - fraction.length⟩

theorem readDecimal?_eq (cs : List Char) :
    readDecimal? cs = (readUnsigned? (takeSign cs).2).map fun d =>
      Binary64.ofDecimal (takeSign cs).1 d.coefficient d.exponent := by
  unfold readDecimal? readUnsigned?
  simp only
  split <;> simp [Function.comp_def]

section

variable {whole fraction tail : List Char} {e : ℤ}

/-- A numeral with a point, and digits on one of its sides. -/
theorem readUnsigned?_point (hne : whole ≠ [] ∨ fraction ≠ [])
    (hwhole : ∀ c ∈ whole, c.isDigit = true) (hfraction : ∀ c ∈ fraction, c.isDigit = true)
    (htail : ∀ c ∈ tail.head?, c.isDigit = false) (he : readExponent? tail = some e) :
    readUnsigned? (whole ++ '.' :: (fraction ++ tail)) =
      some ⟨natOfDigits (whole ++ fraction), e - fraction.length⟩ := by
  have hspan : spanDigits (whole ++ '.' :: (fraction ++ tail)) =
      (whole, '.' :: (fraction ++ tail)) :=
    spanDigits_append hwhole (by simp +decide)
  have hsome : (whole.isEmpty && fraction.isEmpty) = false := by
    rw [Bool.and_eq_false_iff, List.isEmpty_eq_false_iff, List.isEmpty_eq_false_iff]
    exact hne
  unfold readUnsigned?
  rw [hspan]
  simp only [takeFraction, spanDigits_append hfraction htail, hsome, he, Bool.false_eq_true,
    if_false, Option.map_some]

theorem readUnsigned?_fraction (hne : whole ≠ []) (hwhole : ∀ c ∈ whole, c.isDigit = true)
    (hfraction : ∀ c ∈ fraction, c.isDigit = true) :
    readUnsigned? (whole ++ '.' :: fraction) =
      some ⟨natOfDigits (whole ++ fraction), -fraction.length⟩ := by
  have htail : ∀ c ∈ ([] : List Char).head?, c.isDigit = false := by simp
  have h := readUnsigned?_point (.inl hne) hwhole hfraction htail rfl
  rwa [List.append_nil, zero_sub] at h

/-- A numeral without a point. -/
theorem readUnsigned?_whole (hne : whole ≠ []) (hwhole : ∀ c ∈ whole, c.isDigit = true)
    (htail : ∀ c ∈ tail.head?, c.isDigit = false ∧ c ≠ '.') (he : readExponent? tail = some e) :
    readUnsigned? (whole ++ tail) = some ⟨natOfDigits whole, e⟩ := by
  have hspan : spanDigits (whole ++ tail) = (whole, tail) :=
    spanDigits_append hwhole fun c hc => (htail c hc).1
  have hnone : takeFraction tail = ([], tail) := by
    unfold takeFraction
    split
    · exact absurd rfl (htail '.' rfl).2
    · rfl
  have hsome : whole.isEmpty = false := by simpa using hne
  unfold readUnsigned?
  rw [hspan]
  simp only [hnone, hsome, he, Bool.false_and, Bool.false_eq_true, if_false, Option.map_some,
    List.append_nil, List.length_nil, Nat.cast_zero, sub_zero]

end

/-! ## The four layouts -/

theorem takeSign_digits {ds : List Char} (hds : ∀ c ∈ ds, c.isDigit = true) :
    takeSign ds = (false, ds) := by
  unfold takeSign
  split
  · exact absurd (hds '+' List.mem_cons_self) (by decide)
  · exact absurd (hds '-' List.mem_cons_self) (by decide)
  · rfl

theorem readExponent?_digitsOf {cs : List Char} {negative : Bool} {n : ℕ}
    (h : takeSign cs = (negative, digitsOf n)) :
    readExponent? ('e' :: cs) = some (if negative then -(n : ℤ) else n) := by
  have hdigits : spanDigits (digitsOf n) = (digitsOf n, []) :=
    spanDigits_all fun _ hc => isDigit_of_mem_digitsOf hc
  have hsome : (digitsOf n).isEmpty = false := by simpa using digitsOf_ne_nil n
  unfold readExponent?
  simp only [true_or, if_true, h, hdigits, hsome, List.isEmpty_nil, Bool.not_true, Bool.or_self,
    Bool.false_eq_true, if_false, natOfDigits_digitsOf]

/-- The exponent part that a layout writes is read as the exponent. -/
theorem readExponent?_written (plus : Bool) (exponent : ℤ) :
    readExponent? ('e' :: ((if exponent < 0 then ['-'] else if plus then ['+'] else []) ++
      digitsOf exponent.natAbs)) = some exponent := by
  have hbare : takeSign (digitsOf exponent.natAbs) = (false, digitsOf exponent.natAbs) :=
    takeSign_digits fun _ hc => isDigit_of_mem_digitsOf hc
  split
  · next hneg =>
    rw [List.singleton_append, readExponent?_digitsOf rfl, if_pos rfl]
    congr 1
    omega
  · next hneg =>
    have hread : readExponent? ('e' :: ((if plus then ['+'] else []) ++
        digitsOf exponent.natAbs)) = some (exponent.natAbs : ℤ) := by
      split
      · rw [List.singleton_append, readExponent?_digitsOf rfl, if_neg Bool.false_ne_true]
      · rw [List.nil_append, readExponent?_digitsOf hbare, if_neg Bool.false_ne_true]
    rw [hread]
    congr 1
    omega

section

variable {ds : List Char}

/-- An integer in full: its zeros become part of the coefficient. -/
theorem readUnsigned?_integerText (l : Layout) (point : ℕ) (hne : ds ≠ [])
    (hds : ∀ c ∈ ds, c.isDigit = true) :
    readUnsigned? (integerText l ds point) =
      some (if l.fraction then ⟨natOfDigits ds * 10 ^ (point - ds.length + 1), -1⟩
        else ⟨natOfDigits ds * 10 ^ (point - ds.length), 0⟩) := by
  have hpadded : ∀ c ∈ ds ++ List.replicate (point - ds.length) '0', c.isDigit = true :=
    List.forall_mem_append.mpr ⟨hds, fun _ hc => isDigit_of_mem_zeros hc⟩
  have hsome : ds ++ List.replicate (point - ds.length) '0' ≠ [] :=
    List.append_ne_nil_of_left_ne_nil hne _
  unfold integerText
  cases l.fraction with
  | false =>
    rw [if_neg Bool.false_ne_true, if_neg Bool.false_ne_true,
      readUnsigned?_whole hsome hpadded (by simp) rfl, natOfDigits_append_zeros]
  | true =>
    have hzero : ∀ c ∈ ['0'], c.isDigit = true := by simp
    rw [if_pos rfl, if_pos rfl]
    refine (readUnsigned?_fraction hsome hpadded hzero).trans ?_
    rw [List.append_assoc, ← List.replicate_succ', natOfDigits_append_zeros]
    rfl

/-- Digits on both sides of the point. -/
theorem readUnsigned?_splitText {point : ℕ} (hpos : 0 < point) (hlt : point < ds.length)
    (hds : ∀ c ∈ ds, c.isDigit = true) :
    readUnsigned? (splitText ds point) = some ⟨natOfDigits ds, point - ds.length⟩ := by
  have hne : ds.take point ≠ [] := by
    rw [ne_eq, List.take_eq_nil_iff]
    rintro (h | rfl)
    · omega
    · cases hlt
  have hwhole : ∀ c ∈ ds.take point, c.isDigit = true :=
    fun c hc => hds c (List.mem_of_mem_take hc)
  have hfraction : ∀ c ∈ ds.drop point, c.isDigit = true :=
    fun c hc => hds c (List.mem_of_mem_drop hc)
  unfold splitText
  rw [readUnsigned?_fraction hne hwhole hfraction, List.take_append_drop, List.length_drop]
  congr 2
  omega

/-- Zeros behind the point stand in front of the coefficient and do not count. -/
theorem readUnsigned?_leadingText (zeros : ℕ) (hds : ∀ c ∈ ds, c.isDigit = true) :
    readUnsigned? (leadingText ds zeros) = some ⟨natOfDigits ds, -(zeros + ds.length)⟩ := by
  have hzero : ∀ c ∈ ['0'], c.isDigit = true := by simp
  have hfraction : ∀ c ∈ List.replicate zeros '0' ++ ds, c.isDigit = true :=
    List.forall_mem_append.mpr ⟨fun _ hc => isDigit_of_mem_zeros hc, hds⟩
  have hdigits : natOfDigits (['0'] ++ (List.replicate zeros '0' ++ ds)) = natOfDigits ds := by
    rw [← List.append_assoc, List.singleton_append, ← List.replicate_succ,
      natOfDigits_zeros_append]
  have hlength : (List.replicate zeros '0' ++ ds).length = zeros + ds.length := by
    rw [List.length_append, List.length_replicate]
  refine (readUnsigned?_fraction (List.cons_ne_nil _ _) hzero hfraction).trans ?_
  rw [hdigits, hlength, Nat.cast_add]

/-- One digit before the point: the exponent counts from there. -/
theorem readUnsigned?_exponentText (l : Layout) (exponent : ℤ) (hne : ds ≠ [])
    (hds : ∀ c ∈ ds, c.isDigit = true) :
    readUnsigned? (exponentText l ds exponent) =
      some ⟨natOfDigits ds, exponent + 1 - ds.length⟩ := by
  have hexponent := readExponent?_written l.plus exponent
  unfold exponentText
  -- a single digit is written without a point
  match ds, hne, hds with
  | [d], hne, hds =>
    have hread := readUnsigned?_whole hne hds (by simp +decide) hexponent
    simpa using hread
  | d :: e :: rest, _, hds =>
    have hfirst : ∀ c ∈ [d], c.isDigit = true := by
      rw [List.forall_mem_singleton]
      exact hds d List.mem_cons_self
    have hrest : ∀ c ∈ e :: rest, c.isDigit = true :=
      fun c hc => hds c (List.mem_cons_of_mem d hc)
    have hread := readUnsigned?_point (.inl (List.cons_ne_nil d [])) hfirst hrest (by simp +decide)
      hexponent
    simp only [List.cons_append, List.nil_append, List.append_assoc] at hread ⊢
    rw [hread]
    congr 2
    simp only [List.length_cons]
    push_cast
    ring

end

/-- An integer in full has no more places than its point says, and one for the fraction. -/
theorem exists_readUnsigned?_integerText (l : Layout) (c : ℕ) {point : ℕ}
    (h : (digitsOf c).length ≤ point) :
    ∃ d, readUnsigned? (integerText l (digitsOf c) point) = some d ∧
      d.value = c * 10 ^ (point - (digitsOf c).length) ∧ d.coefficient < 10 ^ (point + 1) := by
  have hne := digitsOf_ne_nil c
  have hread := readUnsigned?_integerText l point hne fun _ h => isDigit_of_mem_digitsOf h
  rw [natOfDigits_digitsOf] at hread
  have hlength : c < 10 ^ (digitsOf c).length :=
    (Nat.length_toDigits_le_iff (by decide) (List.length_pos_iff.mpr hne)).mp le_rfl
  have hbound : c * 10 ^ (point - (digitsOf c).length) < 10 ^ point :=
    calc c * 10 ^ (point - (digitsOf c).length)
        < 10 ^ (digitsOf c).length * 10 ^ (point - (digitsOf c).length) :=
          Nat.mul_lt_mul_of_pos_right hlength (by positivity)
      _ = 10 ^ point := by rw [← pow_add, Nat.add_sub_cancel' h]
  refine ⟨_, hread, ?_, ?_⟩
  · unfold Decimal.value
    cases l.fraction with
    | false => simp
    | true =>
      rw [if_pos rfl, pow_succ, zpow_neg_one]
      push_cast
      ring
  · cases l.fraction with
    | false =>
      rw [if_neg Bool.false_ne_true, pow_succ]
      simp only
      omega
    | true =>
      rw [if_pos rfl, pow_succ, pow_succ, ← mul_assoc]
      exact Nat.mul_lt_mul_of_pos_right hbound (by decide)

/-- Whatever layout a point asks for, its text denotes the digits moved to the point. The
    coefficient is read as it was written, or with the zeros of an integer. -/
theorem Layout.exists_readUnsigned?_write (l : Layout) (c : ℕ) (point : ℤ) :
    ∃ d, readUnsigned? (l.write (digitsOf c) point) = some d ∧
      d.value = c * 10 ^ (point - (digitsOf c).length) ∧
      (d.coefficient = c ∨ d.coefficient < 10 ^ (l.highest + 1).toNat) := by
  have hne := digitsOf_ne_nil c
  have hds : ∀ a ∈ digitsOf c, a.isDigit = true := fun _ h => isDigit_of_mem_digitsOf h
  unfold Layout.write
  split
  · next hfull =>
    split
    · next hinteger =>
      have hzeros : ((point.toNat - (digitsOf c).length : ℕ) : ℤ) =
          point - (digitsOf c).length := by omega
      obtain ⟨d, hread, hvalue, hbound⟩ :=
        exists_readUnsigned?_integerText l c (show (digitsOf c).length ≤ point.toNat by omega)
      rw [← zpow_natCast, hzeros] at hvalue
      refine ⟨d, hread, hvalue, .inr (lt_of_lt_of_le hbound ?_)⟩
      exact Nat.pow_le_pow_right (by decide) (by omega)
    · next hshort =>
      split
      · next hinside =>
        have hpos : 0 < point.toNat := by omega
        have hread := readUnsigned?_splitText hpos (by omega) hds
        rw [natOfDigits_digitsOf, Int.toNat_of_nonneg (by omega)] at hread
        exact ⟨_, hread, rfl, .inl rfl⟩
      · next hfront =>
        have hread := readUnsigned?_leadingText (-point).toNat hds
        rw [natOfDigits_digitsOf, Int.toNat_of_nonneg (by omega), neg_add, neg_neg] at hread
        exact ⟨_, hread, rfl, .inl rfl⟩
  · have hread := readUnsigned?_exponentText l (point - 1) hne hds
    rw [natOfDigits_digitsOf, sub_add_cancel] at hread
    exact ⟨_, hread, rfl, .inl rfl⟩

/-! ## The sign -/

/-- What is read as an unsigned numeral has no sign in front. -/
theorem takeSign_of_readUnsigned? {cs : List Char} {d : Decimal} (h : readUnsigned? cs = some d) :
    takeSign cs = (false, cs) := by
  unfold takeSign
  split
  · simp [readUnsigned?, spanDigits, List.span_eq_takeWhile_dropWhile, takeFraction] at h
  · simp [readUnsigned?, spanDigits, List.span_eq_takeWhile_dropWhile, takeFraction] at h
  · rfl

theorem readDecimal?_of_readUnsigned? {cs : List Char} {d : Decimal} (negative : Bool)
    (h : readUnsigned? cs = some d) :
    readDecimal? (if negative then '-' :: cs else cs) =
      some (Binary64.ofDecimal negative d.coefficient d.exponent) := by
  rw [readDecimal?_eq]
  cases negative with
  | false => rw [if_neg Bool.false_ne_true, takeSign_of_readUnsigned? h, h, Option.map_some]
  | true => rw [if_pos rfl, takeSign, h, Option.map_some]

/-- The decimal that any layout writes for a double is read as the double. -/
theorem Layout.readDecimal?_writeFinite (l : Layout) (tie : Tie) {x : Binary64}
    (hhighest : l.highest ≤ 28) (hfinite : x.isFinite = true) (hm : 0 < x.significand) :
    readDecimal? (l.writeFinite tie x) = some x := by
  obtain ⟨hrounds, hpos, hbits⟩ := shortest_rounds tie hm (Binary64.place_le hfinite)
  obtain ⟨d, hread, hvalue, hcoefficient⟩ :=
    l.exists_readUnsigned?_write (shortest tie x).coefficient (shortest tie x).point
  have hvalue' : d.value = (shortest tie x).coefficient * 10 ^ (shortest tie x).exponent := by
    rw [hvalue, Decimal.point, Decimal.digits, add_sub_cancel_right]
  have hrounds' : x.Rounds (d.coefficient * 10 ^ d.exponent) := by
    rw [← hvalue'] at hrounds
    exact hrounds
  have hpos' : 0 < d.coefficient := by
    have := hrounds'.pos hm
    rw [mul_pos_iff_of_pos_right (by positivity)] at this
    exact_mod_cast this
  have hbits' : d.coefficient < 2 ^ 100 := by
    rcases hcoefficient with h | h
    · rw [h]
      exact hbits
    · calc d.coefficient < 10 ^ (l.highest + 1).toNat := h
        _ ≤ 10 ^ 29 := Nat.pow_le_pow_right (by decide) (by omega)
        _ < 2 ^ 100 := by norm_num
  unfold Layout.writeFinite
  simp only
  rw [Decimal.digits, readDecimal?_of_readUnsigned? x.isNegative hread,
    hrounds'.ofDecimal_eq hfinite hm hpos' hbits']

/-! ## In front of the decimals -/

theorem isNumeral_of_isDigit {c : Char} (h : c.isDigit = true) : isNumeral c = true := by
  simp [isNumeral, h]

theorem toNat_of_isNumeral {c : Char} (h : isNumeral c = true) :
    (48 ≤ c.toNat ∧ c.toNat ≤ 57) ∨ c ∈ ".eE+-".toList := by
  simp only [isNumeral, Bool.or_eq_true, beq_iff_eq] at h
  rcases h with ((((h | rfl) | rfl) | rfl) | rfl) | rfl
  · exact .inl (by simpa [Char.isDigit, UInt32.le_iff_toNat_le] using h)
  all_goals exact .inr (by decide)

theorem isBlank_of_isNumeral {c : Char} (h : isNumeral c = true) : isBlank c = false := by
  rcases toNat_of_isNumeral h with h | h
  · simp [isBlank]
    omega
  · have hmarks : ∀ c ∈ ".eE+-".toList, isBlank c = false :=
      List.all_iff_forall_prop.mp (by decide)
    exact hmarks c h

theorem utf8Size_of_isNumeral {c : Char} (h : isNumeral c = true) : c.utf8Size = 1 := by
  rcases toNat_of_isNumeral h with h | h
  · rw [Char.utf8Size_eq_one_iff, UInt32.le_iff_toNat_le]
    exact le_trans h.2 (by decide)
  · have hmarks : ∀ c ∈ ".eE+-".toList, c.utf8Size = 1 :=
      List.all_iff_forall_prop.mp (by decide)
    exact hmarks c h

theorem toLower_ne_of_isNumeral {c : Char} (h : isNumeral c = true) : c.toLower ≠ 'n' := by
  rcases toNat_of_isNumeral h with h | h
  · have htable : ∀ n < 58, (Char.ofNat n).toLower ≠ 'n' := by decide
    have hc := htable c.toNat (by omega)
    rwa [Char.ofNat_toNat] at hc
  · have hmarks : ∀ c ∈ ".eE+-".toList, c.toLower ≠ 'n' :=
      List.all_iff_forall_prop.mp (by decide)
    exact hmarks c h

theorem Layout.isNumeral_of_mem_write (l : Layout) {ds : List Char} (point : ℤ)
    (hds : ∀ c ∈ ds, c.isDigit = true) : ∀ c ∈ l.write ds point, isNumeral c = true := by
  have hdigits : ∀ c ∈ ds, isNumeral c = true := fun c hc => isNumeral_of_isDigit (hds c hc)
  have hzeros (z : ℕ) : ∀ c ∈ List.replicate z '0', isNumeral c = true :=
    fun _ hc => isNumeral_of_isDigit (isDigit_of_mem_zeros hc)
  have hpoint : isNumeral '.' = true := rfl
  have hfraction : ∀ c ∈ ".0".toList, isNumeral c = true :=
    List.forall_mem_cons.mpr ⟨hpoint, List.forall_mem_singleton.mpr rfl⟩
  unfold Layout.write
  split
  · split
    · unfold integerText
      simp only [List.forall_mem_append]
      refine ⟨⟨hdigits, hzeros _⟩, ?_⟩
      split
      · exact hfraction
      · exact List.forall_mem_nil _
    · split
      · unfold splitText
        simp only [List.forall_mem_append, List.forall_mem_cons]
        exact ⟨fun c hc => hdigits c (List.mem_of_mem_take hc), hpoint,
          fun c hc => hdigits c (List.mem_of_mem_drop hc)⟩
      · unfold leadingText
        simp only [List.cons_append, List.forall_mem_append, List.forall_mem_cons]
        exact ⟨rfl, hpoint, hzeros _, hdigits⟩
  · unfold exponentText
    simp only [List.forall_mem_append, List.forall_mem_cons]
    refine ⟨⟨?_, rfl, ?_⟩, fun c hc => isNumeral_of_isDigit (isDigit_of_mem_digitsOf hc)⟩
    · split
      · simp only [List.forall_mem_cons] at hdigits ⊢
        exact ⟨hdigits.1, hpoint, hdigits.2⟩
      · exact hdigits
    · split
      · exact List.forall_mem_singleton.mpr rfl
      · split
        · exact List.forall_mem_singleton.mpr rfl
        · exact List.forall_mem_nil _

theorem Layout.isNumeral_of_mem_writeFinite (l : Layout) (tie : Tie) (x : Binary64) :
    ∀ c ∈ l.writeFinite tie x, isNumeral c = true := by
  have hbody := l.isNumeral_of_mem_write (shortest tie x).point
    fun c (h : c ∈ (shortest tie x).digits) => isDigit_of_mem_digitsOf h
  unfold Layout.writeFinite
  simp only
  split
  · exact List.forall_mem_cons.mpr ⟨rfl, hbody⟩
  · exact hbody

section

variable {cs : List Char}

theorem trim_of_isBlank (h : ∀ c ∈ cs, isBlank c = false) : trim cs = cs := by
  have hkept (ds : List Char) (hds : ∀ c ∈ ds, isBlank c = false) :
      ds.dropWhile isBlank = ds := by
    cases ds with
    | nil => rfl
    | cons d ds => exact List.dropWhile_cons_of_neg (by simp [hds d List.mem_cons_self])
  unfold trim
  rw [hkept cs h, hkept cs.reverse fun c hc => h c (List.mem_reverse.mp hc), List.reverse_reverse]

theorem ne_of_isNumeral (h : ∀ c ∈ cs, isNumeral c = true) {name : List Char} {a : Char}
    (ha : a ∈ name) (hna : isNumeral a = false) : cs ≠ name := by
  rintro rfl
  rw [h a ha] at hna
  cases hna

theorem radixOf?_of_isNumeral {a b : Char} (h : isNumeral b = true) : radixOf? [a, b] = none := by
  unfold radixOf?
  split
  all_goals first
    | rfl
    | next heq =>
      cases heq
      exact absurd h (by decide)

/-- The names of infinity and NaN are written with other characters. -/
theorem readPlain_of_isNumeral (h : ∀ c ∈ cs, isNumeral c = true) :
    readPlain cs = (readDecimal? cs).getD .nan := by
  have hrest : ∀ c ∈ (takeSign cs).2, isNumeral c = true := by
    unfold takeSign
    split
    · exact fun c hc => h c (List.mem_cons_of_mem _ hc)
    · exact fun c hc => h c (List.mem_cons_of_mem _ hc)
    · exact h
  have hname {name : List Char} (hn : 'n' ∈ name) : (takeSign cs).2.map Char.toLower ≠ name := by
    rintro rfl
    obtain ⟨c, hc, hlower⟩ := List.mem_map.mp hn
    exact toLower_ne_of_isNumeral (hrest c hc) hlower
  unfold readPlain readNamed?
  rw [if_pos (List.all_eq_true.mpr h)]
  simp only
  rw [if_neg (not_or_intro (hname (by decide)) (hname (by decide))), if_neg (hname (by decide))]

/-- A text of numeral characters is neither cut nor taken for a spelling of infinity or a literal
    behind a radix mark: it is a decimal or nothing. -/
theorem readTrimmed_of_isNumeral (h : ∀ c ∈ cs, isNumeral c = true) :
    readTrimmed cs = .ok ((readDecimal? cs).getD .nan) := by
  have hI : isNumeral 'I' = false := by decide
  unfold readTrimmed
  rw [if_neg (not_or_intro (ne_of_isNumeral h (by decide) hI) (ne_of_isNumeral h (by decide) hI)),
    if_neg (ne_of_isNumeral h (by decide) hI)]
  simp only
  split
  · next hlong =>
    match cs, h, hlong with
    | [a], h, hlong =>
      have ha := utf8Size_of_isNumeral (h a (by simp))
      simp [byteLength, ha] at hlong
    | a :: b :: rest, h, _ =>
      have ha := utf8Size_of_isNumeral (h a (by simp))
      have hb := utf8Size_of_isNumeral (h b (by simp))
      have hcut : cutBytes 2 (a :: b :: rest) = some ([a, b], rest) := by
        simp [cutBytes, ha, hb]
      simp only [hcut, radixOf?_of_isNumeral (h b (by simp)), readPlain_of_isNumeral h]
  · rw [readPlain_of_isNumeral h]

theorem readChars_of_isNumeral (hne : cs ≠ []) (h : ∀ c ∈ cs, isNumeral c = true) :
    readChars cs = .ok ((readDecimal? cs).getD .nan) := by
  unfold readChars
  rw [trim_of_isBlank fun c hc => isBlank_of_isNumeral (h c hc)]
  cases cs with
  | nil => exact absurd rfl hne
  | cons c rest => exact readTrimmed_of_isNumeral h

end

/-- Every layout with at most 28 places in front of the point reads back. -/
theorem Layout.readChars_writeFinite (l : Layout) (tie : Tie) {x : Binary64}
    (hhighest : l.highest ≤ 28) (hfinite : x.isFinite = true) (hm : 0 < x.significand) :
    readChars (l.writeFinite tie x) = .ok x := by
  have hread := l.readDecimal?_writeFinite tie hhighest hfinite hm
  have hne : l.writeFinite tie x ≠ [] := by
    intro h
    rw [h] at hread
    cases hread
  rw [readChars_of_isNumeral hne (l.isNumeral_of_mem_writeFinite tie x), hread, Option.getD_some]

end Number

namespace Binary64

theorem eq_zero_of_isZero {x : Binary64} (h : x.isZero = true) : x = zero ∨ x = negativeZero := by
  have hparts : x.exponentField = 0 ∧ x.fraction = 0 := by simpa [isZero] using h
  have hx := x.ofMagnitude_magnitude_bits
  rw [magnitude_bits, hparts.1, hparts.2] at hx
  cases hneg : x.isNegative with
  | false =>
    rw [hneg] at hx
    exact .inl hx.symm
  | true =>
    rw [hneg] at hx
    exact .inr hx.symm

/-- Number text reads back: the text of a double that is not NaN is read as this double, except that
    minus zero comes back as zero. -/
theorem ofText_text (x : Binary64) (h : x.isNaN = false) :
    ofText x.text = .ok (if x = negativeZero then zero else x) := by
  unfold ofText text
  rw [String.toList_ofList]
  unfold textChars
  rw [if_neg (by simp [h])]
  split
  · next hzero =>
    have hread : readChars ['0'] = .ok zero := rfl
    rw [hread]
    rcases eq_zero_of_isZero hzero with rfl | rfl
    · rfl
    · rfl
  · next hnonzero =>
    have hne : x ≠ negativeZero := by
      rintro rfl
      exact hnonzero rfl
    rw [if_neg hne]
    split
    · next hinfinite =>
      rw [← infinity_isNegative hinfinite]
      cases x.isNegative <;> rfl
    · next hbounded =>
      have hfinite : x.isFinite = true := by
        simp only [isNaN, isInfinite, isFinite, decide_eq_true_eq, decide_eq_false_iff_not] at *
        omega
      exact scriptLayout.readChars_writeFinite .up (by decide) hfinite
        (significand_pos (eq_false_of_ne_true hnonzero))

/-- The smallest double above zero is at the end of the search for digits. -/
theorem ofText_text_smallest :
    (⟨1⟩ : Binary64).isNaN = false ∧ (⟨1⟩ : Binary64).text = "5e-324" ∧
      ofText "5e-324" = .ok ⟨1⟩ := by
  have htext : (⟨1⟩ : Binary64).text = "5e-324" := by decide +kernel
  have hnan : (⟨1⟩ : Binary64).isNaN = false := by decide
  have hread := ofText_text ⟨1⟩ hnan
  rw [htext, if_neg (by decide)] at hread
  exact ⟨hnan, htext, hread⟩

end Binary64

end ScriptSandbox
