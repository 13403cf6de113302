import Mathlib.Data.Int.Bitwise
import ScriptSandbox.Proofs.Number.Word

/-
  Operators on words.

  The word of a double is its `wordPart` modulo `2 ^ 32`, so doubles whose word parts are congruent
  have the same words (`words_congr`), and what is computed on words cannot tell them apart. What is
  computed is integer arithmetic (`wordArithmetic`). The complement of a signed word is its negation
  less one, the operators on bits combine the bits of integers in two's complement
  (`testBit_toInt`), a shift to the left is a multiplication that wraps, and one to the right is a
  division that is rounded down. Each result is an integer that a double represents.
-/

namespace ScriptSandbox

/-! ## Bits of integers -/

/-- An integer is its bits, read in two's complement. -/
theorem eq_of_testBit_eq {i j : ℤ} (h : ∀ k, i.testBit k = j.testBit k) : i = j := by
  -- beyond its length a natural number has no bits, and its complement has all of them
  have hsigns (m n : ℕ) : ¬ ∀ k, m.testBit k = !n.testBit k := by
    intro h
    have hm : m.testBit (m + n) = false := Nat.testBit_lt_two_pow
      (lt_of_lt_of_le Nat.lt_two_pow_self (Nat.pow_le_pow_right two_pos (by omega)))
    have hn : n.testBit (m + n) = false := Nat.testBit_lt_two_pow
      (lt_of_lt_of_le Nat.lt_two_pow_self (Nat.pow_le_pow_right two_pos (by omega)))
    have hk := h (m + n)
    rw [hm, hn] at hk
    cases hk
  cases i with
  | ofNat m =>
    cases j with
    | ofNat n => exact congrArg Int.ofNat (Nat.eq_of_testBit_eq h)
    | negSucc n => exact (hsigns m n h).elim
  | negSucc m =>
    cases j with
    | ofNat n => exact (hsigns n m fun k => (h k).symm).elim
    | negSucc n =>
      refine congrArg Int.negSucc (Nat.eq_of_testBit_eq fun k => ?_)
      exact Bool.not_inj (h k)

/-- The bits of a signed word: those of the word, and above them its sign. -/
theorem testBit_toInt {w : ℕ} (x : BitVec w) (k : ℕ) :
    x.toInt.testBit k = if k < w then x.getLsbD k else x.msb := by
  rw [BitVec.toInt_eq_msb_cond]
  cases hmsb : x.msb with
  | false =>
    rw [if_neg Bool.false_ne_true]
    show x.toNat.testBit k = _
    rw [BitVec.testBit_toNat]
    split
    · rfl
    · exact BitVec.getLsbD_of_ge x k (by omega)
  | true =>
    have hlt : x.toNat < 2 ^ w := x.isLt
    have hneg : (x.toNat : ℤ) - (2 ^ w : ℕ) = Int.negSucc (2 ^ w - (x.toNat + 1)) := by
      rw [Int.negSucc_eq]
      omega
    rw [if_pos rfl, hneg]
    show (!(2 ^ w - (x.toNat + 1)).testBit k) = _
    rw [Nat.testBit_two_pow_sub_succ hlt, BitVec.testBit_toNat]
    split
    · next hk => simp [hk]
    · next hk => simp [hk]

/-! ## Words as integers -/

theorem toInt_complement (x : Int32) : (~~~x).toInt = -x.toInt - 1 := by
  have hlow := x.le_toInt
  have hhigh := x.toInt_lt
  rw [Int32.toInt_not, Int.bmod_eq_emod]
  split <;> omega

theorem toInt_and (x y : Int32) : (x &&& y).toInt = Int.land x.toInt y.toInt := by
  refine eq_of_testBit_eq fun k => ?_
  show (x.toBitVec &&& y.toBitVec).toInt.testBit k = _
  rw [Int.testBit_land]
  show _ = (x.toBitVec.toInt.testBit k && y.toBitVec.toInt.testBit k)
  rw [testBit_toInt, testBit_toInt, testBit_toInt, BitVec.getLsbD_and, BitVec.msb_and]
  split <;> rfl

theorem toInt_or (x y : Int32) : (x ||| y).toInt = Int.lor x.toInt y.toInt := by
  refine eq_of_testBit_eq fun k => ?_
  show (x.toBitVec ||| y.toBitVec).toInt.testBit k = _
  rw [Int.testBit_lor]
  show _ = (x.toBitVec.toInt.testBit k || y.toBitVec.toInt.testBit k)
  rw [testBit_toInt, testBit_toInt, testBit_toInt, BitVec.getLsbD_or, BitVec.msb_or]
  split <;> rfl

theorem toInt_xor (x y : Int32) : (x ^^^ y).toInt = Int.xor x.toInt y.toInt := by
  refine eq_of_testBit_eq fun k => ?_
  show (x.toBitVec ^^^ y.toBitVec).toInt.testBit k = _
  rw [Int.testBit_lxor]
  show _ = Bool.xor (x.toBitVec.toInt.testBit k) (y.toBitVec.toInt.testBit k)
  rw [testBit_toInt, testBit_toInt, testBit_toInt, BitVec.getLsbD_xor, BitVec.msb_xor]
  split <;> rfl

namespace Binary64

variable {a b a' b' : Binary64}

theorem toNat_shiftCount (b : Binary64) : b.shiftCount.toNat = b.toUInt32.toNat % 32 := by
  unfold shiftCount
  rw [UInt32.toNat_and]
  exact Nat.and_two_pow_sub_one_eq_mod b.toUInt32.toNat 5

/-- The two words of a double differ by a multiple of `2 ^ 32`. -/
theorem toInt32_bmod (a : Binary64) : (a.toUInt32.toNat : ℤ).bmod (2 ^ 32) = a.toInt32.toInt := by
  show _ = a.toInt32.toBitVec.toInt
  rw [toBitVec_toInt32, BitVec.toInt_eq_toNat_bmod]
  rfl

theorem toInt_shiftLeft (a b : Binary64) :
    (a.toUInt32 <<< b.shiftCount).toInt32.toInt =
      (a.toInt32.toInt * 2 ^ (b.toUInt32.toNat % 32)).bmod (2 ^ 32) := by
  show (a.toUInt32 <<< b.shiftCount).toBitVec.toInt = _
  rw [BitVec.toInt_eq_toNat_bmod]
  show (((a.toUInt32 <<< b.shiftCount).toNat : ℤ)).bmod (2 ^ 32) = _
  rw [UInt32.toNat_shiftLeft, toNat_shiftCount, Nat.mod_mod, Nat.shiftLeft_eq, Int.natCast_mod,
    Int.emod_bmod, ← toInt32_bmod, Int.bmod_mul_bmod, Nat.cast_mul, Nat.cast_pow, Nat.cast_ofNat]

theorem toInt_shiftRight (a b : Binary64) :
    (a.toInt32 >>> b.shiftCount.toInt32).toInt =
      a.toInt32.toInt / 2 ^ (b.toUInt32.toNat % 32) := by
  have hcount : b.shiftCount.toInt32.toBitVec.toNat = b.toUInt32.toNat % 32 := toNat_shiftCount b
  have hlt : b.toUInt32.toNat % 32 < 32 := Nat.mod_lt _ (by norm_num)
  -- the distance is at most 31 already
  have hsmod : (b.shiftCount.toInt32.toBitVec.smod 32).toNat = b.toUInt32.toNat % 32 := by
    have hmsb : b.shiftCount.toInt32.toBitVec.msb = false := by
      rw [BitVec.msb_eq_false_iff_two_mul_lt, hcount]
      omega
    have hmsb' : (32 : BitVec 32).msb = false := by decide
    rw [BitVec.smod_eq, hmsb, hmsb', BitVec.umod_eq, BitVec.toNat_umod, hcount]
    exact Nat.mod_eq_of_lt hlt
  show (a.toInt32 >>> b.shiftCount.toInt32).toBitVec.toInt = _
  rw [Int32.toBitVec_shiftRight, BitVec.sshiftRight_eq', hsmod, BitVec.toInt_sshiftRight,
    Int.shiftRight_eq_div_pow, Nat.cast_pow, Nat.cast_ofNat]
  rfl

theorem toNat_shiftRightUnsigned (a b : Binary64) :
    (a.toUInt32 >>> b.shiftCount).toNat = a.toUInt32.toNat / 2 ^ (b.toUInt32.toNat % 32) := by
  rw [UInt32.toNat_shiftRight, toNat_shiftCount, Nat.mod_mod, Nat.shiftRight_eq_div_pow]

/-! ## The integers behind words -/

/-- The integer that a double stands for in a word: the integer part of a finite double, and 0 for
    NaN and the infinities. -/
def wordPart (x : Binary64) : ℤ := if x.isFinite then integerPart x.value else 0

theorem Represents.wordPart_eq {x : Binary64} {i : ℤ} (h : x.Represents i) : x.wordPart = i := by
  rw [wordPart, h.isFinite, if_pos rfl, h.value, integerPart_intCast]

theorem toNat_toUInt32_eq (x : Binary64) : (x.toUInt32.toNat : ℤ) = x.wordPart % 2 ^ 32 := by
  unfold wordPart
  cases h : x.isFinite with
  | true => exact toNat_toUInt32 h
  | false =>
    rw [(words_of_not_isFinite h).1]
    rfl

/-- Doubles whose integers agree modulo `2 ^ 32` have the same words. -/
theorem words_congr (h : a.wordPart ≡ a'.wordPart [ZMOD 2 ^ 32]) :
    a.toUInt32 = a'.toUInt32 ∧ a.toInt32 = a'.toInt32 := by
  have hunsigned : a.toUInt32 = a'.toUInt32 := by
    refine UInt32.toNat_inj.mp ?_
    have hwords : (a.toUInt32.toNat : ℤ) = a'.toUInt32.toNat := by
      rw [toNat_toUInt32_eq, toNat_toUInt32_eq]
      exact h
    exact_mod_cast hwords
  refine ⟨hunsigned, Int32.toBitVec_inj.mp ?_⟩
  rw [toBitVec_toInt32, toBitVec_toInt32, hunsigned]

theorem bitNot_congr (h : a.wordPart ≡ a'.wordPart [ZMOD 2 ^ 32]) : a.bitNot = a'.bitNot := by
  rw [bitNot, bitNot, (words_congr h).2]

/-! ## Results -/

/-- The double of an integer that it stands for exactly. -/
structure IsInteger (x : Binary64) (i : ℤ) : Prop where
  eq_ofInt : x = ofInt i
  represents : x.Represents i

theorem isInteger_ofInt32 {i : ℤ} {x : Int32} (h : x.toInt = i) : (ofInt32 x).IsInteger i := by
  subst h
  exact ⟨rfl, ofInt32_represents x⟩

theorem isInteger_ofUInt32 {n : ℕ} {x : UInt32} (h : x.toNat = n) : (ofUInt32 x).IsInteger n := by
  subst h
  have hnonneg : ¬ ((x.toNat : ℤ) < 0) := by omega
  refine ⟨?_, ofNat_represents (lt_trans x.toNat_lt (by norm_num))⟩
  unfold ofUInt32 ofNat ofInt
  rw [decide_eq_false hnonneg, Int.natAbs_natCast]

/-- What the operators on words make of two doubles, in integers. The left operand is taken as a
    signed or as an unsigned word, and the distance of a shift is an unsigned word modulo 32. -/
structure WordArithmetic (a b : Binary64) (i j : ℤ) (u s : ℕ) : Prop where
  bitNot : a.bitNot.IsInteger (-i - 1)
  bitAnd : (a.bitAnd b).IsInteger (Int.land i j)
  bitOr : (a.bitOr b).IsInteger (Int.lor i j)
  bitXor : (a.bitXor b).IsInteger (Int.xor i j)
  shiftLeft : ∃ n : ℤ, (a.shiftLeft b).IsInteger n ∧ n ≡ i * 2 ^ s [ZMOD 2 ^ 32] ∧
    -2 ^ 31 ≤ n ∧ n < 2 ^ 31
  shiftRight : (a.shiftRight b).IsInteger ⌊(i / 2 ^ s : ℚ)⌋
  shiftRightUnsigned : (a.shiftRightUnsigned b).IsInteger ⌊(u / 2 ^ s : ℚ)⌋ ∧
    0 ≤ ⌊(u / 2 ^ s : ℚ)⌋ ∧ ⌊(u / 2 ^ s : ℚ)⌋ < 2 ^ 32

theorem floor_div_two_pow (i : ℤ) (s : ℕ) : ⌊(i / 2 ^ s : ℚ)⌋ = i / 2 ^ s := by
  have hfloor := Rat.floor_intCast_div_natCast i (2 ^ s)
  rwa [Nat.cast_pow, Nat.cast_ofNat, Nat.cast_pow, Nat.cast_ofNat] at hfloor

theorem wordArithmetic (a b : Binary64) :
    WordArithmetic a b a.toInt32.toInt b.toInt32.toInt a.toUInt32.toNat
      (b.toUInt32.toNat % 32) where
  bitNot := isInteger_ofInt32 (toInt_complement _)
  bitAnd := isInteger_ofInt32 (toInt_and _ _)
  bitOr := isInteger_ofInt32 (toInt_or _ _)
  bitXor := isInteger_ofInt32 (toInt_xor _ _)
  shiftLeft := by
    refine ⟨_, isInteger_ofInt32 rfl, ?_, Int32.le_toInt _, Int32.toInt_lt _⟩
    rw [toInt_shiftLeft]
    exact Int.bmod_emod
  shiftRight := by
    rw [floor_div_two_pow]
    exact isInteger_ofInt32 (toInt_shiftRight a b)
  shiftRightUnsigned := by
    have hquotient : ⌊((a.toUInt32.toNat : ℕ) / 2 ^ (b.toUInt32.toNat % 32) : ℚ)⌋ =
        ((a.toUInt32 >>> b.shiftCount).toNat : ℤ) := by
      have hfloor := floor_div_two_pow a.toUInt32.toNat (b.toUInt32.toNat % 32)
      rw [Int.cast_natCast] at hfloor
      rw [hfloor, toNat_shiftRightUnsigned, Int.natCast_div, Nat.cast_pow, Nat.cast_ofNat]
    rw [hquotient]
    exact ⟨isInteger_ofUInt32 rfl, Int.natCast_nonneg _,
      by exact_mod_cast (a.toUInt32 >>> b.shiftCount).toNat_lt⟩

end Binary64

end ScriptSandbox
