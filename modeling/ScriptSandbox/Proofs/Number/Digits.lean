import Mathlib.Data.Bool.AllAny
import Mathlib.Data.List.Basic
import Mathlib.Data.Nat.Digits.Defs
import ScriptSandbox.Number.Numeral

/-
  Digits of a radix, radix marks, and the cut behind a mark.

  A text is cut by bytes, so a cut exists just at the character boundaries (`cutBytes_eq_some_iff`,
  `cutBytes_isSome_iff`). A digit is one of `0` to `9` and `a` to `f` in either case that counts
  less than the radix (`IsDigit`, `Mark.digitValue?_eq`), and a run of digits denotes an integer
  (`literalValue`).
-/

namespace ScriptSandbox.Number

/-! ## Cutting by bytes -/

section

variable {cs a b : List Char} {n : ℕ}

theorem byteLength_cons (c : Char) (cs : List Char) :
    byteLength (c :: cs) = c.utf8Size + byteLength cs := by
  have hfold (n : ℕ) (ds : List Char) : ds.foldl (fun n c => n + c.utf8Size) n =
      n + byteLength ds := by
    unfold byteLength
    induction ds generalizing n with
    | nil => rfl
    | cons d ds ih =>
      rw [List.foldl_cons, List.foldl_cons, ih, ih (0 + d.utf8Size)]
      omega
  rw [byteLength, List.foldl_cons, hfold, Nat.zero_add]

/-- The length is that of the text in UTF-8. -/
theorem byteLength_eq (cs : List Char) : byteLength cs = (String.ofList cs).utf8ByteSize := by
  induction cs with
  | nil => simp [byteLength]
  | cons c cs ih =>
    rw [byteLength_cons, ih, String.ofList_cons, String.utf8ByteSize_append]
    simp

theorem length_le_byteLength (cs : List Char) : cs.length ≤ byteLength cs := by
  induction cs with
  | nil => exact Nat.zero_le _
  | cons c cs ih =>
    have := c.utf8Size_pos
    rw [byteLength_cons, List.length_cons]
    omega

theorem cutBytes_append (a b : List Char) : cutBytes (byteLength a) (a ++ b) = some (a, b) := by
  induction a with
  | nil => cases b <;> rfl
  | cons c a ih =>
    have hsize := c.utf8Size_pos
    obtain ⟨k, hk⟩ : ∃ k, c.utf8Size + byteLength a = k + 1 :=
      ⟨c.utf8Size + byteLength a - 1, by omega⟩
    have hrest : k + 1 - c.utf8Size = byteLength a := by omega
    rw [byteLength_cons, hk, List.cons_append, cutBytes, if_pos (by omega), hrest, ih]
    rfl

theorem append_of_cutBytes (h : cutBytes n cs = some (a, b)) : cs = a ++ b ∧ byteLength a = n := by
  induction n, cs using cutBytes.induct generalizing a with
  | case1 cs =>
    rw [cutBytes, Option.some.injEq, Prod.mk.injEq] at h
    obtain ⟨rfl, rfl⟩ := h
    exact ⟨rfl, rfl⟩
  | case2 n => cases h
  | case3 n c cs hfit ih =>
    rw [cutBytes, if_pos hfit, Option.map_eq_some_iff] at h
    obtain ⟨⟨front, back⟩, hcut, hparts⟩ := h
    obtain ⟨rfl, rfl⟩ := Prod.mk.inj hparts
    obtain ⟨rfl, hlength⟩ := ih hcut
    exact ⟨rfl, by rw [byteLength_cons]; omega⟩
  | case4 n c cs hfit =>
    rw [cutBytes, if_neg hfit] at h
    cases h

/-- A cut parts the text where the part in front has the given number of bytes. -/
theorem cutBytes_eq_some_iff :
    cutBytes n cs = some (a, b) ↔ cs = a ++ b ∧ byteLength a = n := by
  refine ⟨append_of_cutBytes, ?_⟩
  rintro ⟨rfl, rfl⟩
  exact cutBytes_append a b

/-- A text can be cut where a character begins or the text ends. -/
theorem cutBytes_isSome_iff :
    (cutBytes n cs).isSome = true ↔ String.Pos.Raw.IsValid (String.ofList cs) ⟨n⟩ := by
  rw [Option.isSome_iff_exists, Prod.exists]
  simp only [cutBytes_eq_some_iff]
  rw [String.Pos.Raw.isValid_iff_exists_append]
  constructor
  · rintro ⟨a, b, rfl, rfl⟩
    refine ⟨String.ofList a, String.ofList b, String.ofList_append, ?_⟩
    rw [String.rawEndPos, byteLength_eq]
  · rintro ⟨s, t, happend, hlength⟩
    refine ⟨s.toList, t.toList, ?_, ?_⟩
    · rw [← String.toList_append, ← happend, String.toList_ofList]
    · rw [byteLength_eq, String.ofList_toList]
      exact (congrArg String.Pos.Raw.byteIdx hlength).symm

end

/-- A cut behind two bytes does not harm the text: it is not longer, or a character ends there. -/
def Cuttable (cs : List Char) : Prop :=
  (String.ofList cs).utf8ByteSize ≤ 2 ∨ String.Pos.Raw.IsValid (String.ofList cs) ⟨2⟩

theorem cuttable_iff {cs : List Char} :
    Cuttable cs ↔ byteLength cs ≤ 2 ∨ (cutBytes 2 cs).isSome = true := by
  rw [Cuttable, cutBytes_isSome_iff, byteLength_eq]

instance (cs : List Char) : Decidable (Cuttable cs) := decidable_of_iff _ cuttable_iff.symm

/-! ## Marks -/

/-- A radix mark, with its letter in either case, and the radix that it announces. -/
inductive Mark : List Char → ℕ → Prop
  | hexadecimal {c : Char} (h : c = 'x' ∨ c = 'X') : Mark ['0', c] 16
  | octal {c : Char} (h : c = 'o' ∨ c = 'O') : Mark ['0', c] 8
  | binary {c : Char} (h : c = 'b' ∨ c = 'B') : Mark ['0', c] 2

theorem radixOf?_eq_some_iff {mark : List Char} {radix : ℕ} :
    radixOf? mark = some radix ↔ Mark mark radix := by
  constructor
  · intro h
    unfold radixOf? at h
    split at h
    all_goals first
      | (obtain rfl := Option.some.inj h
         constructor
         simp)
      | cases h
  · rintro (h | h | h) <;> rcases h with rfl | rfl <;> rfl

theorem Mark.byteLength_eq {mark : List Char} {radix : ℕ} (h : Mark mark radix) :
    byteLength mark = 2 := by
  rcases h with h | h | h <;> rcases h with rfl | rfl <;> rfl

/-- The radix is a power of two. -/
theorem Mark.exists_eq_pow {mark : List Char} {radix : ℕ} (h : Mark mark radix) :
    ∃ b, radix = 2 ^ b ∧ 0 < b ∧ b ≤ 4 := by
  rcases h with h | h | h
  · exact ⟨4, rfl, by omega, by omega⟩
  · exact ⟨3, rfl, by omega, by omega⟩
  · exact ⟨1, rfl, by omega, by omega⟩

/-! ## Digits -/

/-- The digits by their value. -/
def digitChars : List Char := "0123456789abcdef".toList

/-- A digit of the radix, in either case. -/
def IsDigit (radix : ℕ) (c : Char) : Prop := c.toLower ∈ digitChars.take radix

instance (radix : ℕ) (c : Char) : Decidable (IsDigit radix c) :=
  inferInstanceAs (Decidable (_ ∈ _))

/-- What a digit counts. -/
def digitValue (c : Char) : ℕ := digitChars.idxOf c.toLower

/-- The integer that a run of digits denotes. -/
def literalValue (radix : ℕ) (cs : List Char) : ℕ := Nat.ofDigits radix (cs.map digitValue).reverse

theorem literalValue_concat (radix : ℕ) (cs : List Char) (c : Char) :
    literalValue radix (cs ++ [c]) = literalValue radix cs * radix + digitValue c := by
  unfold literalValue
  rw [List.map_append, List.reverse_append]
  simp only [List.map_cons, List.map_nil, List.reverse_cons, List.reverse_nil, List.nil_append,
    List.cons_append, Nat.ofDigits_cons]
  rw [mul_comm, add_comm]

theorem IsDigit.digitValue_lt {radix : ℕ} {c : Char} (h : IsDigit radix c) :
    digitValue c < radix :=
  (List.mem_take_iff_idxOf_lt (List.mem_of_mem_take h)).mp h

theorem not_isDigit_of_large {radix : ℕ} {c : Char} (h : 128 ≤ c.toNat) : ¬IsDigit radix c := by
  have hsame : c.toLower = c := by
    unfold Char.toLower
    rw [dif_neg]
    rintro ⟨-, hle⟩
    have : c.toNat ≤ 90 := hle
    omega
  intro hdigit
  have hmem : c ∈ digitChars := hsame ▸ List.mem_of_mem_take hdigit
  have hsmall : ∀ d ∈ digitChars, d.toNat < 128 := List.all_iff_forall_prop.mp (by decide)
  have := hsmall c hmem
  omega

/-- Reading a digit is looking it up. -/
theorem Mark.digitValue?_eq {mark : List Char} {radix : ℕ} (h : Mark mark radix) (c : Char) :
    digitValue? radix c = if IsDigit radix c then some (digitValue c) else none := by
  rcases lt_or_ge c.toNat 128 with hascii | hlarge
  · have htable : ∀ r ∈ [2, 8, 16], ∀ n < 128, digitValue? r (Char.ofNat n) =
        if IsDigit r (Char.ofNat n) then some (digitValue (Char.ofNat n)) else none := by
      decide +kernel
    have hradix : radix ∈ [2, 8, 16] := by rcases h with h | h | h <;> decide
    have hc := htable radix hradix c.toNat hascii
    rwa [Char.ofNat_toNat] at hc
  · have hnone (low high : Char) (hhigh : high.toNat < 128) : ¬(low ≤ c ∧ c ≤ high) := by
      rintro ⟨-, hle⟩
      have : c.toNat ≤ high.toNat := hle
      omega
    unfold digitValue?
    rw [if_neg (hnone '0' '9' (by decide)), if_neg (hnone 'a' 'z' (by decide)),
      if_neg (hnone 'A' 'Z' (by decide)), if_neg (not_isDigit_of_large hlarge)]
    rfl

end ScriptSandbox.Number
