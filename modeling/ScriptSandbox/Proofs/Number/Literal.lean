import ScriptSandbox.Proofs.Number.Digits
import ScriptSandbox.Proofs.Number.Integer
import ScriptSandbox.Proofs.Number.ReadBack

/-
  Reading an integer behind a radix mark.

  The digits are accumulated in doubles, which rounds at every digit. Up to 53 bits nothing is
  rounded. The digit that completes them is rounded together with the digits before it, and every
  digit that follows counts as a zero (`Reading`, `Reading.step`). So the literal is read to the
  nearest double unless the part that is kept lies halfway between two doubles, with the even one
  below, and a later digit is not zero (`Misread`, `ofText_literal`).
-/

namespace ScriptSandbox.Binary64

/-! ## What the digits are read to -/

/-- `x` is the rounding of `n` with the digits put to zero that follow the first 53 bits. -/
def Reading (radix n : ℕ) (x : Binary64) : Prop :=
  ∃ j, (j = 0 ∨ 2 ^ 53 ≤ n / radix ^ j) ∧ n / radix ^ j < 2 ^ 53 * radix ∧
    x = ofNat (n / radix ^ j * radix ^ j)

/-- The digits that are kept are a tie that goes down, and another digit is not zero. -/
def Misread (radix n : ℕ) : Prop :=
  n < 2 ^ 1024 ∧ ∃ j, Halfway (n / radix ^ j) ∧ n % radix ^ j ≠ 0

section

variable {radix n m e p k d : ℕ} {x : Binary64}

theorem Halfway.lt (h : Halfway p) : 2 ^ 53 < p := by
  obtain ⟨m, e, -, hm, -, rfl⟩ := h
  calc 2 ^ 53 < 2 * m + 1 := by omega
    _ ≤ (2 * m + 1) * 2 ^ e := Nat.le_mul_of_pos_right _ (by positivity)

/-- A double is not halfway between doubles. -/
theorem not_halfway_dyadic (hm : m ≤ 2 ^ 53) : ¬Halfway (m * 2 ^ e) := by
  rintro ⟨i, k, -, hi, -, heq⟩
  rcases le_or_gt e k with h | h
  · obtain ⟨s, rfl⟩ := Nat.exists_eq_add_of_le h
    rw [pow_add, mul_comm (2 ^ e), ← mul_assoc] at heq
    have hunit : m = (2 * i + 1) * 2 ^ s := Nat.eq_of_mul_eq_mul_right (by positivity) heq
    have : 2 * i + 1 ≤ m := hunit ▸ Nat.le_mul_of_pos_right _ (by positivity)
    omega
  · obtain ⟨s, rfl⟩ : ∃ s, e = k + (s + 1) := ⟨e - k - 1, by omega⟩
    rw [pow_add, mul_comm (2 ^ k), ← mul_assoc] at heq
    have hunit : m * 2 ^ (s + 1) = 2 * i + 1 := Nat.eq_of_mul_eq_mul_right (by positivity) heq
    rw [pow_succ, ← mul_assoc] at hunit
    omega

/-- Low digits are cut off a tie without a trace, as long as the tie is not cut. -/
theorem Halfway.div_pow (h : Halfway p) (hp : 2 ^ 53 ≤ p / 2 ^ k) : Halfway (p / 2 ^ k) := by
  obtain ⟨m, e, heven, hleast, hmost, rfl⟩ := h
  rcases le_or_gt k e with hk | hk
  · obtain ⟨s, rfl⟩ := Nat.exists_eq_add_of_le hk
    refine ⟨m, s, heven, hleast, hmost, ?_⟩
    rw [pow_add, mul_comm (2 ^ k), ← mul_assoc, Nat.mul_div_cancel _ (by positivity)]
  · obtain ⟨s, rfl⟩ : ∃ s, k = s + 1 + e := ⟨k - e - 1, by omega⟩
    have hdouble : 2 ^ (s + 1) = 2 * 2 ^ s := pow_succ' 2 s
    rw [pow_add, Nat.mul_div_mul_right _ _ (by positivity), hdouble, ← Nat.div_div_eq_div_mul] at hp
    have := Nat.div_le_self ((2 * m + 1) / 2) (2 ^ s)
    omega

/-! ## A digit more -/

theorem reading_zero (hradix : 0 < radix) : Reading radix 0 zero :=
  ⟨0, .inl rfl, by simp [hradix], by rw [pow_zero, mul_one, Nat.zero_div]; decide⟩

/-- Behind an integer of more than 53 bits a digit counts as a zero. -/
theorem mul_add_of_long {b : ℕ} (hn : 2 ^ 53 ≤ n) (hb : 0 < b) (hb' : b ≤ 4) (hd : d < 2 ^ b) :
    ((ofNat n).mul (ofNat (2 ^ b))).add (ofNat d) = ofNat (n * 2 ^ b) := by
  have hradix : 2 ^ b ≤ 2 ^ 4 := Nat.pow_le_pow_right two_pos hb'
  obtain ⟨e, hlow, hhigh⟩ := exists_binade hn
  obtain ⟨hleast, hmost⟩ := roundHalfEven_bounds hlow hhigh
  have hround := ofNat_round_mul hlow hhigh 0
  rw [pow_zero, mul_one, mul_one] at hround
  rw [← hround, mul_add_dyadic hmost (by omega) (by omega), ← ofNat_round_mul hlow hhigh b,
    ofNat_append_eq_iff _ hd]
  -- what the doubles hold is no tie
  · exact fun h => not_halfway_dyadic hmost h.2.1
  · calc 2 ^ 53 = 2 ^ 52 * 2 ^ 1 := by norm_num
      _ ≤ roundHalfEven n (2 ^ (e + 1)) * 2 ^ (e + 1) :=
        Nat.mul_le_mul hleast (Nat.pow_le_pow_right two_pos (by omega))

theorem Reading.step {b : ℕ} (h : Reading (2 ^ b) n x) (hb : 0 < b) (hb' : b ≤ 4)
    (hd : d < 2 ^ b) :
    Reading (2 ^ b) (n * 2 ^ b + d) ((x.mul (ofNat (2 ^ b))).add (ofNat d)) := by
  have hradix : 2 ^ b ≤ 2 ^ 4 := Nat.pow_le_pow_right two_pos hb'
  obtain ⟨j, hkept, hlt, rfl⟩ := h
  rcases lt_or_ge n (2 ^ 53) with hshort | hlong
  · -- all digits are kept
    obtain rfl : j = 0 := hkept.resolve_right fun hle =>
      absurd (hle.trans (Nat.div_le_self _ _)) hshort.not_ge
    have hsum : n * 2 ^ b + d < 2 ^ 53 * 2 ^ b :=
      calc n * 2 ^ b + d < (n + 1) * 2 ^ b := by rw [Nat.succ_mul]; omega
        _ ≤ 2 ^ 53 * 2 ^ b := Nat.mul_le_mul_right _ hshort
    have hstep := mul_add_dyadic (e := 0) hshort.le (by omega : b < 53) (by omega : d < 2 ^ 53)
    refine ⟨0, .inl rfl, by simpa using hsum, ?_⟩
    simpa using hstep
  · -- the digit counts as a zero
    have hquotient : (n * 2 ^ b + d) / (2 ^ b) ^ (j + 1) = n / (2 ^ b) ^ j := by
      rw [pow_succ', ← Nat.div_div_eq_div_mul, mul_comm n, Nat.mul_add_div (by positivity),
        Nat.div_eq_of_lt hd, add_zero]
    have hlong' : 2 ^ 53 ≤ n / (2 ^ b) ^ j := by
      rcases hkept with rfl | hle
      · simpa using hlong
      · exact hle
    refine ⟨j + 1, .inr (by rw [hquotient]; exact hlong'), by rw [hquotient]; exact hlt, ?_⟩
    rw [hquotient, pow_succ, ← mul_assoc]
    have hrounded : 2 ^ 53 ≤ n / (2 ^ b) ^ j * (2 ^ b) ^ j :=
      hlong'.trans (Nat.le_mul_of_pos_right _ (by positivity))
    exact mul_add_of_long hrounded hb hb' hd

/-! ## Nearest or not -/

theorem not_misread_of_lt (h : n < 2 ^ 53 * radix) : ¬Misread radix n := by
  rintro ⟨-, j, hhalf, hrest⟩
  cases j with
  | zero => exact hrest (by rw [pow_zero, Nat.mod_one])
  | succ j =>
    have hlt : n / radix ^ (j + 1) < 2 ^ 53 := by
      rw [pow_succ', ← Nat.div_div_eq_div_mul]
      exact (Nat.div_le_self _ _).trans_lt (Nat.div_lt_of_lt_mul (by rwa [mul_comm]))
    exact absurd hhalf.lt hlt.not_gt

/-- Of the places where a tie can end, only the one behind the digits that are kept matters. -/
theorem exists_halfway_iff {b j : ℕ} (hkept : 2 ^ 53 ≤ n / (2 ^ b) ^ j)
    (hlt : n / (2 ^ b) ^ j < 2 ^ 53 * 2 ^ b) :
    (∃ i, Halfway (n / (2 ^ b) ^ i) ∧ n % (2 ^ b) ^ i ≠ 0) ↔
      Halfway (n / (2 ^ b) ^ j) ∧ n % (2 ^ b) ^ j ≠ 0 := by
  refine ⟨?_, fun h => ⟨j, h⟩⟩
  rintro ⟨i, hhalf, hrest⟩
  rcases lt_or_ge j i with hi | hi
  · -- too few digits are left
    obtain ⟨s, rfl⟩ : ∃ s, i = j + 1 + s := ⟨i - j - 1, by omega⟩
    rw [pow_add, pow_succ, ← Nat.div_div_eq_div_mul, ← Nat.div_div_eq_div_mul] at hhalf
    have hshort : n / (2 ^ b) ^ j / 2 ^ b / (2 ^ b) ^ s < 2 ^ 53 :=
      (Nat.div_le_self _ _).trans_lt (Nat.div_lt_of_lt_mul (by rwa [mul_comm]))
    exact absurd hhalf.lt hshort.not_gt
  · obtain ⟨s, rfl⟩ := Nat.exists_eq_add_of_le hi
    have hquotient : n / (2 ^ b) ^ (i + s) = n / (2 ^ b) ^ i / 2 ^ (b * s) := by
      rw [pow_add, ← Nat.div_div_eq_div_mul, pow_mul]
    rw [hquotient] at hkept ⊢
    refine ⟨hhalf.div_pow hkept, fun hzero => hrest ?_⟩
    exact Nat.mod_eq_zero_of_dvd
      ((pow_dvd_pow _ (Nat.le_add_right _ _)).trans (Nat.dvd_of_mod_eq_zero hzero))

theorem Reading.nearest_iff {b : ℕ} (h : Reading (2 ^ b) n x) :
    x.Nearest n ↔ ¬Misread (2 ^ b) n := by
  obtain ⟨j, hkept, hlt, rfl⟩ := h
  have hnearest : (ofNat (n / (2 ^ b) ^ j * (2 ^ b) ^ j)).Nearest n ↔
      ofNat n = ofNat (n / (2 ^ b) ^ j * (2 ^ b) ^ j) := by
    refine ⟨fun h => (eq_ofNat h (isNegative_ofNat _)).symm, fun h => ?_⟩
    rw [← h]
    exact ofNat_nearest n
  rw [hnearest]
  rcases hkept with rfl | hkept
  · have hshort : n < 2 ^ 53 * 2 ^ b := by simpa using hlt
    simp [not_misread_of_lt hshort]
  · have hrest : n % (2 ^ b) ^ j < 2 ^ (b * j) := by
      rw [pow_mul]
      exact Nat.mod_lt _ (by positivity)
    have happend := ofNat_append_eq_iff hkept hrest
    rw [pow_mul, Nat.div_add_mod'] at happend
    rw [happend, Misread, exists_halfway_iff hkept hlt]

/-! ## Whole literals -/

open Number

theorem Reading.accumulate {mark done digits : List Char} (hmark : Mark mark radix)
    (hdigits : ∀ c ∈ digits, IsDigit radix c) (h : Reading radix (literalValue radix done) x) :
    ∃ y, accumulate radix x digits = some y ∧
      Reading radix (literalValue radix (done ++ digits)) y := by
  induction digits generalizing done x with
  | nil => exact ⟨x, rfl, by rwa [List.append_nil]⟩
  | cons c cs ih =>
    obtain ⟨hc, hcs⟩ := List.forall_mem_cons.mp hdigits
    have hstep : Reading radix (literalValue radix (done ++ [c]))
        ((x.mul (ofNat radix)).add (ofNat (digitValue c))) := by
      rw [literalValue_concat]
      obtain ⟨b, rfl, hb, hb'⟩ := hmark.exists_eq_pow
      exact h.step hb hb' hc.digitValue_lt
    obtain ⟨y, hread, hy⟩ := ih hcs hstep
    refine ⟨y, ?_, by rwa [List.append_assoc] at hy⟩
    unfold Number.accumulate
    rw [hmark.digitValue?_eq, if_pos hc]
    exact hread

theorem accumulate_eq_none {mark digits : List Char} (hmark : Mark mark radix)
    (hdigits : ¬∀ c ∈ digits, IsDigit radix c) (x : Binary64) :
    accumulate radix x digits = none := by
  induction digits generalizing x with
  | nil => exact absurd (by simp) hdigits
  | cons c cs ih =>
    unfold Number.accumulate
    rw [hmark.digitValue?_eq]
    by_cases hc : IsDigit radix c
    · rw [if_pos hc]
      exact ih (fun hcs => hdigits (List.forall_mem_cons.mpr ⟨hc, hcs⟩)) _
    · rw [if_neg hc]

/-- Behind a mark only digits are read. -/
theorem readTrimmed_mark {mark digits : List Char} (hmark : Mark mark radix) (hne : digits ≠ []) :
    readTrimmed (mark ++ digits) = .ok ((Number.accumulate radix .zero digits).getD .nan) := by
  obtain ⟨c, rfl⟩ : ∃ c, mark = ['0', c] := by
    rcases hmark with h | h | h <;> exact ⟨_, rfl⟩
  have hlong : 2 < byteLength (['0', c] ++ digits) := by
    have := length_le_byteLength (['0', c] ++ digits)
    have := List.length_pos_iff.mpr hne
    rw [List.length_append, List.length_cons, List.length_singleton] at *
    omega
  have hcut : cutBytes 2 (['0', c] ++ digits) = some (['0', c], digits) :=
    cutBytes_eq_some_iff.mpr ⟨rfl, hmark.byteLength_eq⟩
  have hname (name : List Char) (h : name.head? ≠ some '0') : ['0', c] ++ digits ≠ name := by
    rintro rfl
    exact h rfl
  unfold readTrimmed
  rw [if_neg (not_or_intro (hname _ (by decide)) (hname _ (by decide))),
    if_neg (hname _ (by decide)), if_pos hlong]
  simp only [hcut, radixOf?_eq_some_iff.mpr hmark]

theorem isBlank_of_isDigit {c : Char} (h : IsDigit radix c) : isBlank c = false := by
  have hascii : c.toNat < 128 := not_le.mp fun hlarge => not_isDigit_of_large hlarge h
  have htable : ∀ n < 128, (Char.ofNat n).toLower ∈ digitChars →
      isBlank (Char.ofNat n) = false := by
    decide +kernel
  have hc := htable c.toNat hascii
  rw [Char.ofNat_toNat] at hc
  exact hc (List.mem_of_mem_take h)

theorem isBlank_of_mem_mark {mark : List Char} (hmark : Mark mark radix) {c : Char}
    (hc : c ∈ mark) : isBlank c = false := by
  have hmarks : ∀ d ∈ "0xXoObB".toList, isBlank d = false :=
    List.all_iff_forall_prop.mp (by decide)
  have hsub : mark ⊆ "0xXoObB".toList := by
    rcases hmark with h | h | h <;> rcases h with rfl | rfl <;> simp
  exact hmarks c (hsub hc)

/-- A literal is read as the integer whose digits after the first 53 bits are zero, and this is the
    double nearest to the literal unless the digits that are kept are a tie. -/
theorem ofText_literal {mark digits : List Char} (hmark : Mark mark radix) (hne : digits ≠ [])
    (hdigits : ∀ c ∈ digits, IsDigit radix c) :
    ∃ x, ofText (String.ofList (mark ++ digits)) = .ok x ∧
      (∃ j, (j = 0 ∨ 2 ^ 53 ≤ literalValue radix digits / radix ^ j) ∧
        x.Nearest (literalValue radix digits / radix ^ j * radix ^ j : ℕ)) ∧
      (x.Nearest (literalValue radix digits) ↔ ¬Misread radix (literalValue radix digits)) := by
  obtain ⟨b, hb, -, -⟩ := hmark.exists_eq_pow
  have hstart : Reading radix (literalValue radix []) zero := reading_zero (hb ▸ by positivity)
  obtain ⟨x, hread, hx⟩ := hstart.accumulate hmark hdigits
  rw [List.nil_append] at hx
  refine ⟨x, ?_, ?_, ?_⟩
  · have hblank : ∀ c ∈ mark ++ digits, isBlank c = false :=
      List.forall_mem_append.mpr
        ⟨fun c hc => isBlank_of_mem_mark hmark hc, fun c hc => isBlank_of_isDigit (hdigits c hc)⟩
    unfold ofText readChars
    rw [String.toList_ofList, trim_of_isBlank hblank]
    cases htext : mark ++ digits with
    | nil => exact absurd (List.append_eq_nil_iff.mp htext).2 hne
    | cons c rest =>
      simp only
      rw [← htext, readTrimmed_mark hmark hne, hread]
      rfl
  · obtain ⟨j, hkept, -, rfl⟩ := hx
    exact ⟨j, hkept, ofNat_nearest _⟩
  · subst hb
    exact hx.nearest_iff

/-- A literal of 54 bits, which is still read to the nearest double. -/
theorem ofText_literal_long :
    Mark "0X".toList 16 ∧ (∀ c ∈ "20000000000003".toList, IsDigit 16 c) ∧
      ofText "0X20000000000003" = .ok ⟨0x4340000000000002⟩ ∧
      (⟨0x4340000000000002⟩ : Binary64).Nearest (literalValue 16 "20000000000003".toList) := by
  have hmark : Mark "0X".toList 16 := .hexadecimal (.inr rfl)
  have hdigits : ∀ c ∈ "20000000000003".toList, IsDigit 16 c :=
    List.all_iff_forall_prop.mp (by decide)
  have hvalue : ofText "0X20000000000003" = .ok ⟨0x4340000000000002⟩ := by decide +kernel
  obtain ⟨x, hread, -, hnearest⟩ := ofText_literal hmark (by decide) hdigits
  obtain rfl : (⟨0x4340000000000002⟩ : Binary64) = x :=
    Except.ok.inj (hvalue.symm.trans hread)
  exact ⟨hmark, hdigits, hvalue, hnearest.mpr (not_misread_of_lt (by decide +kernel))⟩

/-- The integer `2 ^ 57 + 17` is read to `2 ^ 57` behind a mark, although `2 ^ 57 + 32` is nearer,
    which is what its decimal numeral is read to. -/
theorem literal_misread :
    literalValue 16 "200000000000011".toList = 2 ^ 57 + 17 ∧
      ofText "0x200000000000011" = .ok ⟨0x4380000000000000⟩ ∧
      ¬(⟨0x4380000000000000⟩ : Binary64).Nearest (2 ^ 57 + 17 : ℕ) ∧
      ofText "144115188075855889" = .ok ⟨0x4380000000000001⟩ ∧
      (⟨0x4380000000000001⟩ : Binary64).Nearest (2 ^ 57 + 17 : ℕ) := by
  have hround : ofNat (2 ^ 57 + 17) = ⟨0x4380000000000001⟩ := by decide +kernel
  refine ⟨by decide +kernel, by decide +kernel, fun h => ?_, by decide +kernel, ?_⟩
  · have heq := eq_ofNat h (by decide)
    rw [hround] at heq
    revert heq
    decide
  · rw [← hround]
    exact ofNat_nearest _

end

end ScriptSandbox.Binary64
