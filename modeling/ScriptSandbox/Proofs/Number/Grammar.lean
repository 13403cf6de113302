import Mathlib.Data.List.DropRight
import ScriptSandbox.Proofs.Number.Literal

/-
  The grammar of numerals.

  `Numeral` is what a string may hold between blanks to be a number: nothing, a spelling of
  infinity, digits behind a radix mark, or a decimal. `ofText` gives a number for exactly these, and
  NaN for every other text that it can cut (`ofText_isNaN_iff`). Each part of the reader takes
  exactly its part of the grammar, and marked and decimal numerals exclude each other by their
  second character.
-/

namespace ScriptSandbox.Number

/-! ## The grammar -/

/-- An optional sign. -/
inductive Sign : List Char → Prop
  | none : Sign []
  | plus : Sign ['+']
  | minus : Sign ['-']

/-- One or more decimal digits. -/
def Digits (ds : List Char) : Prop := ds ≠ [] ∧ ∀ c ∈ ds, c.isDigit = true

/-- Digits with an optional point and optional further digits, or a point and digits. -/
inductive Mantissa : List Char → Prop
  | whole {ds : List Char} (h : Digits ds) : Mantissa ds
  | point {ds fraction : List Char} (h : Digits ds) (hfraction : ∀ c ∈ fraction, c.isDigit = true) :
      Mantissa (ds ++ '.' :: fraction)
  | fraction {ds : List Char} (h : Digits ds) : Mantissa ('.' :: ds)

/-- An optional exponent: its letter, an optional sign and digits. -/
inductive Exponent : List Char → Prop
  | none : Exponent []
  | some {e : Char} {sign ds : List Char} (he : e = 'e' ∨ e = 'E') (hsign : Sign sign)
      (hds : Digits ds) : Exponent (e :: (sign ++ ds))

/-- What a string without blanks at its ends may be to be a number. -/
inductive Numeral : List Char → Prop
  | empty : Numeral []
  | infinity {sign : List Char} (h : Sign sign) : Numeral (sign ++ "Infinity".toList)
  | marked {mark digits : List Char} {radix : ℕ} (hmark : Mark mark radix) (hne : digits ≠ [])
      (hdigits : ∀ c ∈ digits, IsDigit radix c) : Numeral (mark ++ digits)
  | decimal {sign mantissa exponent : List Char} (hsign : Sign sign) (hmantissa : Mantissa mantissa)
      (hexponent : Exponent exponent) : Numeral (sign ++ (mantissa ++ exponent))

/-- The code points with the Unicode property White_Space. -/
def whiteSpace : List ℕ :=
  [0x9, 0xA, 0xB, 0xC, 0xD, 0x20, 0x85, 0xA0, 0x1680, 0x2000, 0x2001, 0x2002, 0x2003, 0x2004,
    0x2005, 0x2006, 0x2007, 0x2008, 0x2009, 0x200A, 0x2028, 0x2029, 0x202F, 0x205F, 0x3000]

/-- White space or the byte order mark. -/
def Blank (c : Char) : Prop := c.toNat ∈ whiteSpace ∨ c.toNat = 0xFEFF

instance (c : Char) : Decidable (Blank c) := inferInstanceAs (Decidable (_ ∨ _))

/-- `t` is what is left of `cs` without the blanks at both ends. -/
structure TrimsTo (cs t : List Char) : Prop where
  split : ∃ before after, cs = before ++ (t ++ after) ∧ (∀ c ∈ before, Blank c) ∧
    ∀ c ∈ after, Blank c
  first : ∀ c ∈ t.head?, ¬Blank c
  last : ∀ c ∈ t.getLast?, ¬Blank c

/-! ## Trimming -/

section

variable {c : Char} {cs ds t rest : List Char}

theorem isBlank_iff : isBlank c = true ↔ Blank c := by
  simp only [isBlank, Blank, whiteSpace, Bool.or_eq_true, Bool.and_eq_true, decide_eq_true_eq,
    beq_iff_eq, List.mem_cons, List.not_mem_nil, or_false]
  omega

theorem dropWhile_blanks (h : ∀ c ∈ ds, Blank c) :
    (ds ++ rest).dropWhile isBlank = rest.dropWhile isBlank := by
  rw [List.dropWhile_append_of_pos fun c hc => isBlank_iff.mpr (h c hc)]

theorem dropWhile_of_head (h : ∀ c ∈ cs.head?, ¬Blank c) : cs.dropWhile isBlank = cs := by
  cases cs with
  | nil => rfl
  | cons c cs =>
    rw [List.dropWhile_cons_of_neg]
    rw [isBlank_iff]
    exact h c rfl

/-- There is one way to trim. -/
theorem TrimsTo.trim_eq (h : TrimsTo cs t) : trim cs = t := by
  obtain ⟨⟨before, after, rfl, hbefore, hafter⟩, hfirst, hlast⟩ := h
  have hafter' : ∀ c ∈ after.reverse, Blank c := fun c hc => hafter c (List.mem_reverse.mp hc)
  unfold trim
  rw [dropWhile_blanks hbefore]
  rcases eq_or_ne t [] with rfl | hne
  · rw [List.nil_append, ← List.append_nil after, dropWhile_blanks hafter]
    rfl
  · have hfirst' : ∀ c ∈ (t ++ after).head?, ¬Blank c := by
      rwa [List.head?_append_of_ne_nil _ hne]
    have hlast' : ∀ c ∈ t.reverse.head?, ¬Blank c := by rwa [List.head?_reverse]
    rw [dropWhile_of_head hfirst', List.reverse_append, dropWhile_blanks hafter',
      dropWhile_of_head hlast', List.reverse_reverse]

theorem trimsTo_trim (cs : List Char) : TrimsTo cs (trim cs) := by
  have htrim : trim cs = (cs.dropWhile isBlank).rdropWhile isBlank := rfl
  have hparts := List.rdropWhile_append_rtakeWhile (p := isBlank) (l := cs.dropWhile isBlank)
  rw [← htrim] at hparts
  refine ⟨⟨cs.takeWhile isBlank, (cs.dropWhile isBlank).rtakeWhile isBlank, ?_, ?_, ?_⟩, ?_, ?_⟩
  · rw [hparts, List.takeWhile_append_dropWhile]
  · exact fun c hc => isBlank_iff.mp (List.mem_takeWhile_imp hc)
  · exact fun c hc => isBlank_iff.mp (List.mem_rtakeWhile_imp hc)
  · -- what is dropped at the end does not change the first character
    intro c hc
    rw [← isBlank_iff, Bool.not_eq_true]
    have hhead : (cs.dropWhile isBlank).head? = some c := by
      rw [← hparts, List.head?_append, Option.mem_def.mp hc]
      rfl
    have hnot := List.head?_dropWhile_not isBlank cs
    rw [hhead] at hnot
    exact hnot
  · intro c hc
    rw [← isBlank_iff]
    obtain ⟨hne, rfl⟩ := List.mem_getLast?_eq_getLast hc
    exact List.rdropWhile_last_not isBlank _ hne

/-! ## The parts of a decimal -/

theorem spanDigits_spec (cs : List Char) :
    ∃ ds rest, spanDigits cs = (ds, rest) ∧ cs = ds ++ rest ∧ (∀ c ∈ ds, c.isDigit = true) ∧
      ∀ c ∈ rest.head?, c.isDigit = false := by
  refine ⟨cs.takeWhile Char.isDigit, cs.dropWhile Char.isDigit,
    List.span_eq_takeWhile_dropWhile _ _, List.takeWhile_append_dropWhile.symm,
    fun c hc => List.mem_takeWhile_imp hc, fun c hc => ?_⟩
  have hnot := List.head?_dropWhile_not Char.isDigit cs
  rw [Option.mem_def.mp hc] at hnot
  exact hnot

theorem takeSign_spec (cs : List Char) :
    ∃ negative sign rest, takeSign cs = (negative, rest) ∧ Sign sign ∧ cs = sign ++ rest := by
  unfold takeSign
  split
  · exact ⟨_, _, _, rfl, .plus, rfl⟩
  · exact ⟨_, _, _, rfl, .minus, rfl⟩
  · exact ⟨_, _, _, rfl, .none, rfl⟩

theorem takeSign_append {sign : List Char} (hsign : Sign sign)
    (hrest : ∀ c ∈ rest.head?, c ≠ '+' ∧ c ≠ '-') :
    ∃ negative, takeSign (sign ++ rest) = (negative, rest) := by
  cases hsign with
  | plus => exact ⟨_, rfl⟩
  | minus => exact ⟨_, rfl⟩
  | none =>
    refine ⟨false, ?_⟩
    rw [List.nil_append]
    unfold takeSign
    split
    · exact absurd rfl (hrest _ rfl).1
    · exact absurd rfl (hrest _ rfl).2
    · rfl

theorem ne_sign_of_isDigit (h : c.isDigit = true) : c ≠ '+' ∧ c ≠ '-' := by
  constructor <;> rintro rfl <;> exact absurd h (by decide)

theorem Digits.head (h : Digits ds) : ∀ c ∈ ds.head?, c.isDigit = true :=
  fun c hc => h.2 c (List.mem_of_mem_head? hc)

theorem readExponent?_isSome_iff : (readExponent? cs).isSome = true ↔ Exponent cs := by
  constructor
  · intro h
    cases cs with
    | nil => exact .none
    | cons c cs =>
      obtain ⟨negative, sign, tail, hsplit, hsign, rfl⟩ := takeSign_spec cs
      obtain ⟨ds, rest, hspan, rfl, hds, -⟩ := spanDigits_spec tail
      unfold readExponent? at h
      simp only [hsplit, hspan] at h
      split at h
      · next he =>
        split at h
        · cases h
        · next hparts =>
          have hboth : ds ≠ [] ∧ rest = [] := by simpa [List.isEmpty_iff] using hparts
          rw [hboth.2, List.append_nil]
          exact .some he hsign ⟨hboth.1, hds⟩
      · cases h
  · rintro (_ | ⟨he, hsign, hds⟩)
    · rfl
    · next c sign ds =>
      obtain ⟨negative, hsplit⟩ :=
        takeSign_append hsign fun d hd => ne_sign_of_isDigit (hds.head d hd)
      unfold readExponent?
      simp [he, hsplit, spanDigits_all hds.2, hds.1]

/-- An exponent starts with its letter. -/
theorem Exponent.head (h : Exponent cs) : ∀ c ∈ cs.head?, c.isDigit = false ∧ c ≠ '.' := by
  rcases h with _ | ⟨he, -, -⟩
  · simp
  · rintro c ⟨⟩
    rcases he with rfl | rfl <;> decide

theorem takeFraction_spec (cs : List Char) :
    ∃ fraction rest, takeFraction cs = (fraction, rest) ∧ (∀ c ∈ fraction, c.isDigit = true) ∧
      (cs = '.' :: (fraction ++ rest) ∨ (fraction = [] ∧ cs = rest)) := by
  unfold takeFraction
  split
  · next cs =>
    obtain ⟨fraction, rest, hspan, rfl, hfraction, -⟩ := spanDigits_spec cs
    exact ⟨fraction, rest, hspan, hfraction, .inl rfl⟩
  · exact ⟨[], cs, rfl, by simp, .inr ⟨rfl, rfl⟩⟩

/-- What is read is a mantissa with an exponent behind it. -/
theorem exists_mantissa (h : (readUnsigned? cs).isSome = true) :
    ∃ mantissa exponent, cs = mantissa ++ exponent ∧ Mantissa mantissa ∧ Exponent exponent := by
  obtain ⟨whole, tail, hspan, rfl, hwhole, -⟩ := spanDigits_spec cs
  obtain ⟨fraction, rest, htail, hfraction, hpoint⟩ := takeFraction_spec tail
  unfold readUnsigned? at h
  simp only [hspan, htail] at h
  split at h
  · cases h
  · next hsome =>
    rw [Option.isSome_map, readExponent?_isSome_iff] at h
    have hsome : whole ≠ [] ∨ fraction ≠ [] := by
      simpa [List.isEmpty_iff, imp_iff_not_or] using hsome
    rcases hpoint with rfl | ⟨rfl, rfl⟩
    · rcases eq_or_ne whole [] with rfl | hne
      · exact ⟨'.' :: fraction, rest, rfl, .fraction ⟨hsome.resolve_left (by simp), hfraction⟩, h⟩
      · exact ⟨whole ++ '.' :: fraction, rest, by simp, .point ⟨hne, hwhole⟩ hfraction, h⟩
    · exact ⟨whole, tail, rfl, .whole ⟨hsome.resolve_right (by simp), hwhole⟩, h⟩

theorem readUnsigned?_isSome_iff :
    (readUnsigned? cs).isSome = true ↔
      ∃ mantissa exponent, cs = mantissa ++ exponent ∧ Mantissa mantissa ∧ Exponent exponent := by
  refine ⟨exists_mantissa, ?_⟩
  rintro ⟨mantissa, exponent, rfl, hmantissa, hexponent⟩
  have hstop := hexponent.head
  have htail : ∀ c ∈ exponent.head?, c.isDigit = false := fun c hc => (hstop c hc).1
  obtain ⟨e, he⟩ := Option.isSome_iff_exists.mp (readExponent?_isSome_iff.mpr hexponent)
  refine Option.isSome_iff_exists.mpr ?_
  cases hmantissa with
  | whole h => exact ⟨_, readUnsigned?_whole h.1 h.2 hstop he⟩
  | point h hfraction =>
    rw [List.append_assoc]
    exact ⟨_, readUnsigned?_point (.inl h.1) h.2 hfraction htail he⟩
  | fraction h =>
    have hnone : ∀ c ∈ ([] : List Char), c.isDigit = true := by simp
    exact ⟨_, readUnsigned?_point (.inr h.1) hnone h.2 htail he⟩

/-- A mantissa starts with a digit or the point. -/
theorem Mantissa.head (h : Mantissa cs) : ∀ c ∈ (cs ++ rest).head?, c ≠ '+' ∧ c ≠ '-' := by
  have hdigits {ds tail : List Char} (hds : Digits ds) :
      ∀ c ∈ (ds ++ tail).head?, c ≠ '+' ∧ c ≠ '-' := by
    intro c hc
    rw [List.head?_append_of_ne_nil _ hds.1] at hc
    exact ne_sign_of_isDigit (hds.head c hc)
  cases h with
  | whole h => exact hdigits h
  | point h =>
    rw [List.append_assoc]
    exact hdigits h
  | fraction h =>
    rintro c ⟨⟩
    decide

theorem readDecimal?_isSome_iff :
    (readDecimal? cs).isSome = true ↔
      ∃ sign mantissa exponent, cs = sign ++ (mantissa ++ exponent) ∧ Sign sign ∧
        Mantissa mantissa ∧ Exponent exponent := by
  rw [readDecimal?_eq, Option.isSome_map, readUnsigned?_isSome_iff]
  constructor
  · rintro ⟨mantissa, exponent, hrest, hmantissa, hexponent⟩
    obtain ⟨negative, sign, rest, hsplit, hsign, rfl⟩ := takeSign_spec cs
    rw [hsplit] at hrest
    exact ⟨sign, mantissa, exponent, by rw [← hrest], hsign, hmantissa, hexponent⟩
  · rintro ⟨sign, mantissa, exponent, rfl, hsign, hmantissa, hexponent⟩
    obtain ⟨negative, hsplit⟩ := takeSign_append hsign hmantissa.head
    exact ⟨mantissa, exponent, by rw [hsplit], hmantissa, hexponent⟩

/-! ## The forms exclude each other -/

theorem mem_decimal {sign mantissa exponent : List Char} (hsign : Sign sign)
    (hmantissa : Mantissa mantissa) (hexponent : Exponent exponent) :
    ∀ c ∈ sign ++ (mantissa ++ exponent), isNumeral c = true := by
  have hsigns {sign : List Char} (h : Sign sign) : ∀ c ∈ sign, isNumeral c = true := by
    cases h <;> exact List.all_eq_true.mp rfl
  have hdigits {ds : List Char} (h : ∀ c ∈ ds, c.isDigit = true) : ∀ c ∈ ds, isNumeral c = true :=
    fun c hc => isNumeral_of_isDigit (h c hc)
  refine List.forall_mem_append.mpr ⟨hsigns hsign, List.forall_mem_append.mpr ⟨?_, ?_⟩⟩
  · cases hmantissa with
    | whole h => exact hdigits h.2
    | point h hfraction =>
      exact List.forall_mem_append.mpr
        ⟨hdigits h.2, List.forall_mem_cons.mpr ⟨rfl, hdigits hfraction⟩⟩
    | fraction h => exact List.forall_mem_cons.mpr ⟨rfl, hdigits h.2⟩
  · rcases hexponent with _ | ⟨he, hexponent, hds⟩
    · simp
    · refine List.forall_mem_cons.mpr
        ⟨?_, List.forall_mem_append.mpr ⟨hsigns hexponent, hdigits hds.2⟩⟩
      rcases he with rfl | rfl <;> rfl

/-- The letter of a mark stands in no decimal. -/
theorem Mark.exists_letter {mark : List Char} {radix : ℕ} (h : Mark mark radix) :
    ∃ c, mark = ['0', c] ∧ isNumeral c = false := by
  rcases h with h | h | h <;> rcases h with rfl | rfl <;> exact ⟨_, rfl, by decide⟩

theorem Mark.unique {mark mark' digits digits' : List Char} {radix radix' : ℕ}
    (h : Mark mark radix) (h' : Mark mark' radix') (heq : mark ++ digits = mark' ++ digits') :
    radix = radix' ∧ digits = digits' := by
  obtain ⟨c, rfl, -⟩ := h.exists_letter
  obtain ⟨c', rfl, -⟩ := h'.exists_letter
  obtain ⟨hmark, hdigits⟩ := List.append_inj heq rfl
  rw [← hmark, ← radixOf?_eq_some_iff] at h'
  rw [← radixOf?_eq_some_iff] at h
  exact ⟨Option.some.inj (h.symm.trans h'), hdigits⟩

/-- Digits behind a mark, of whatever kind they are. -/
def Marked (cs : List Char) : Prop :=
  ∃ mark radix digits, Mark mark radix ∧ digits ≠ [] ∧ cs = mark ++ digits

/-- A spelling of infinity. -/
def Infinite (cs : List Char) : Prop := ∃ sign, Sign sign ∧ cs = sign ++ "Infinity".toList

theorem not_marked_of_infinite (h : Infinite cs) : ¬Marked cs := by
  rintro ⟨mark, radix, digits, hmark, -, rfl⟩
  obtain ⟨sign, hsign, heq⟩ := h
  obtain ⟨c, rfl, -⟩ := hmark.exists_letter
  cases hsign <;> cases heq

/-- A text that is neither marked nor infinite is a numeral just if it is a decimal. -/
theorem numeral_iff_readDecimal? (hne : cs ≠ []) (hinfinite : ¬Infinite cs) (hmarked : ¬Marked cs) :
    Numeral cs ↔ (readDecimal? cs).isSome = true := by
  rw [readDecimal?_isSome_iff]
  constructor
  · rintro (_ | hsign | ⟨hmark, hdigits, -⟩ | ⟨hsign, hmantissa, hexponent⟩)
    · exact absurd rfl hne
    · exact absurd ⟨_, hsign, rfl⟩ hinfinite
    · exact absurd ⟨_, _, _, hmark, hdigits, rfl⟩ hmarked
    · exact ⟨_, _, _, rfl, hsign, hmantissa, hexponent⟩
  · rintro ⟨sign, mantissa, exponent, rfl, hsign, hmantissa, hexponent⟩
    exact .decimal hsign hmantissa hexponent

/-- A marked text is a numeral just if its digits are digits of its radix. -/
theorem numeral_mark_iff {mark digits : List Char} {radix : ℕ} (hmark : Mark mark radix)
    (hne : digits ≠ []) : Numeral (mark ++ digits) ↔ ∀ c ∈ digits, IsDigit radix c := by
  refine ⟨fun h => ?_, fun h => .marked hmark hne h⟩
  have hmarked : Marked (mark ++ digits) := ⟨_, _, _, hmark, hne, rfl⟩
  generalize htext : mark ++ digits = cs at h hmarked
  rcases h with _ | hsign | ⟨hmark', hne', hdigits'⟩ | ⟨hsign, hmantissa, hexponent⟩
  · exact absurd (List.append_eq_nil_iff.mp htext).2 hne
  · exact absurd hmarked (not_marked_of_infinite ⟨_, hsign, rfl⟩)
  · obtain ⟨rfl, rfl⟩ := hmark.unique hmark' htext
    exact hdigits'
  · obtain ⟨c, rfl, hc⟩ := hmark.exists_letter
    have hmem : c ∈ ['0', c] ++ digits := by simp
    rw [htext] at hmem
    rw [mem_decimal hsign hmantissa hexponent c hmem] at hc
    cases hc

/-! ## Numbers and NaN -/

open Binary64

theorem isNaN_ofMagnitude {negative : Bool} {M : ℕ} (h : M ≤ 2047 * 2 ^ 52) :
    (ofMagnitude negative M).isNaN = false := by
  have hlt : M < 2 ^ 63 := by omega
  unfold isNaN
  rw [exponentField_ofMagnitude hlt, fraction_ofMagnitude hlt, decide_eq_false_iff_not]
  omega

theorem isNaN_ofRatio (negative : Bool) (num den : ℕ) :
    (ofRatio negative num den).isNaN = false := by
  refine isNaN_ofMagnitude ?_
  unfold nearestMagnitude
  split
  · omega
  · exact min_le_right _ _

theorem isNaN_ofDecimal (negative : Bool) (coefficient : ℕ) (exponent : ℤ) :
    (ofDecimal negative coefficient exponent).isNaN = false := by
  unfold ofDecimal
  simp only
  split
  · exact isNaN_ofMagnitude (by omega)
  · split
    · exact isNaN_ofMagnitude (by simp)
    · split
      · exact isNaN_ofMagnitude (by omega)
      · exact isNaN_ofRatio _ _ _

/-- With the characters checked first, the reader that also knows names takes just the decimals. -/
theorem isNaN_readPlain (cs : List Char) :
    (readPlain cs).isNaN = false ↔ (readDecimal? cs).isSome = true := by
  by_cases h : ∀ c ∈ cs, isNumeral c = true
  · rw [readPlain_of_isNumeral h, readDecimal?_eq]
    cases readUnsigned? (takeSign cs).2 with
    | none =>
      rw [Option.map_none]
      decide
    | some d => simp [isNaN_ofDecimal]
  · have hnan : (readPlain cs).isNaN = true := by
      unfold readPlain
      rw [if_neg (by rwa [List.all_eq_true])]
      decide
    rw [hnan, readDecimal?_isSome_iff]
    refine ⟨nofun, ?_⟩
    rintro ⟨sign, mantissa, exponent, rfl, hsign, hmantissa, hexponent⟩
    exact absurd (mem_decimal hsign hmantissa hexponent) h

/-- A marked text can be cut, and its digits are read or not. -/
theorem readTrimmed_marked {mark digits : List Char} {radix : ℕ} (hmark : Mark mark radix)
    (hne : digits ≠ []) :
    ∃ x, readTrimmed (mark ++ digits) = .ok x ∧
      (x.isNaN = false ↔ ∀ c ∈ digits, IsDigit radix c) := by
  rw [readTrimmed_mark hmark hne]
  refine ⟨_, rfl, ?_⟩
  by_cases hdigits : ∀ c ∈ digits, IsDigit radix c
  · obtain ⟨b, rfl, -, -⟩ := hmark.exists_eq_pow
    have hstart : Reading (2 ^ b) (literalValue (2 ^ b) []) zero := reading_zero (by positivity)
    obtain ⟨x, hread, j, -, -, rfl⟩ := hstart.accumulate hmark hdigits
    rw [hread, Option.getD_some]
    exact ⟨fun _ => hdigits, fun _ => isNaN_ofRatio _ _ _⟩
  · rw [accumulate_eq_none hmark hdigits]
    exact ⟨fun h => absurd h (by decide), fun h => absurd h hdigits⟩

theorem ne_infinity (h : ¬Infinite cs) :
    ¬(cs = "Infinity".toList ∨ cs = "+Infinity".toList) ∧ cs ≠ "-Infinity".toList := by
  refine ⟨?_, ?_⟩
  · rintro (rfl | rfl)
    · exact h ⟨_, .none, rfl⟩
    · exact h ⟨_, .plus, rfl⟩
  · rintro rfl
    exact h ⟨_, .minus, rfl⟩

theorem readTrimmed_infinite (h : Infinite cs) :
    ∃ x, readTrimmed cs = .ok x ∧ x.isNaN = false := by
  obtain ⟨sign, hsign, rfl⟩ := h
  cases hsign <;> exact ⟨_, rfl, by decide⟩

/-- Every other text that can be cut is read as a decimal. -/
theorem readTrimmed_decimal (hinfinite : ¬Infinite cs) (hmarked : ¬Marked cs) (hcut : Cuttable cs) :
    readTrimmed cs = .ok (readPlain cs) := by
  obtain ⟨hpositive, hnegative⟩ := ne_infinity hinfinite
  unfold readTrimmed
  rw [if_neg hpositive, if_neg hnegative]
  simp only
  split
  · next hlong =>
    obtain ⟨⟨mark, digits⟩, hparts⟩ :=
      Option.isSome_iff_exists.mp ((cuttable_iff.mp hcut).resolve_left hlong.not_ge)
    obtain ⟨rfl, hlength⟩ := cutBytes_eq_some_iff.mp hparts
    rw [hparts]
    simp only
    split
    · next radix hradix =>
      have hne : digits ≠ [] := by
        rintro rfl
        rw [List.append_nil] at hlong
        omega
      exact absurd ⟨mark, radix, digits, radixOf?_eq_some_iff.mp hradix, hne, rfl⟩ hmarked
    · rfl
  · rfl

/-- A text that cannot be cut is not read. -/
theorem readTrimmed_of_not_cuttable (h : ¬Cuttable cs) :
    readTrimmed cs = .error .splitCharacter := by
  have hinfinite : ¬Infinite cs := by
    rintro ⟨sign, hsign, rfl⟩
    revert h
    cases hsign <;> decide
  rw [cuttable_iff, not_or, not_le, Bool.not_eq_true, Option.isSome_eq_false_iff,
    Option.isNone_iff_eq_none] at h
  obtain ⟨hpositive, hnegative⟩ := ne_infinity hinfinite
  unfold readTrimmed
  rw [if_neg hpositive, if_neg hnegative]
  simp only [h.1, h.2, if_true]

theorem readTrimmed_isNaN_iff (hne : cs ≠ []) (hcut : Cuttable cs) :
    ∃ x, readTrimmed cs = .ok x ∧ (x.isNaN = false ↔ Numeral cs) := by
  by_cases hinfinite : Infinite cs
  · obtain ⟨x, hread, hx⟩ := readTrimmed_infinite hinfinite
    obtain ⟨sign, hsign, rfl⟩ := hinfinite
    exact ⟨x, hread, fun _ => .infinity hsign, fun _ => hx⟩
  by_cases hmarked : Marked cs
  · obtain ⟨mark, radix, digits, hmark, hdigits, rfl⟩ := hmarked
    rw [numeral_mark_iff hmark hdigits]
    exact readTrimmed_marked hmark hdigits
  · rw [readTrimmed_decimal hinfinite hmarked hcut, numeral_iff_readDecimal? hne hinfinite hmarked]
    exact ⟨_, rfl, isNaN_readPlain cs⟩

theorem ofText_eq (s : String) :
    ofText s = if trim s.toList = [] then .ok zero else readTrimmed (trim s.toList) := by
  unfold ofText readChars
  cases trim s.toList with
  | nil => rfl
  | cons c rest => exact (if_neg (List.cons_ne_nil _ _)).symm

/-- A string is read as a number just if what is left of it without the blanks at its ends is a
    numeral. -/
theorem ofText_isNaN_iff (s : String) :
    (∃ t, TrimsTo s.toList t) ∧
    ∀ t, TrimsTo s.toList t → Cuttable t →
      ∃ x, ofText s = .ok x ∧ (x.isNaN = false ↔ Numeral t) := by
  refine ⟨⟨_, trimsTo_trim _⟩, fun t ht hcut => ?_⟩
  rw [ofText_eq, ht.trim_eq]
  by_cases hne : t = []
  · rw [if_pos hne, hne]
    exact ⟨zero, rfl, fun _ => .empty, fun _ => by decide⟩
  · rw [if_neg hne]
    exact readTrimmed_isNaN_iff hne hcut

/-- A decimal between blanks is a number, and a sign in front of a mark makes none. -/
theorem ofText_isNaN_iff_signed :
    (TrimsTo "\uFEFF -.5E+3\n".toList "-.5E+3".toList ∧ Cuttable "-.5E+3".toList ∧
      ∃ x, ofText "\uFEFF -.5E+3\n" = .ok x ∧ x.isNaN = false) ∧
    (TrimsTo "-0x1f".toList "-0x1f".toList ∧ Cuttable "-0x1f".toList ∧
      ¬Numeral "-0x1f".toList) := by
  have hdecimal : TrimsTo "\uFEFF -.5E+3\n".toList "-.5E+3".toList :=
    ⟨⟨"\uFEFF ".toList, "\n".toList, by decide, List.all_iff_forall_prop.mp (by decide),
      List.all_iff_forall_prop.mp (by decide)⟩, by rintro c ⟨⟩; decide, by rintro c ⟨⟩; decide⟩
  have hsigned : TrimsTo "-0x1f".toList "-0x1f".toList :=
    ⟨⟨[], [], by decide, by simp, by simp⟩, by rintro c ⟨⟩; decide, by rintro c ⟨⟩; decide⟩
  have hfive : Digits ['5'] := ⟨by decide, List.all_eq_true.mp rfl⟩
  have hthree : Digits ['3'] := ⟨by decide, List.all_eq_true.mp rfl⟩
  have hnumeral : Numeral "-.5E+3".toList :=
    .decimal .minus (.fraction hfive) (.some (.inr rfl) .plus hthree)
  obtain ⟨x, hread, hx⟩ := (ofText_isNaN_iff "\uFEFF -.5E+3\n").2 _ hdecimal (by decide)
  obtain ⟨y, hread', hy⟩ := (ofText_isNaN_iff "-0x1f").2 _ hsigned (by decide)
  have hnan : ofText "-0x1f" = .ok nan := by decide +kernel
  obtain rfl : nan = y := Except.ok.inj (hnan.symm.trans hread')
  exact ⟨⟨hdecimal, by decide, x, hread, hx.mpr hnumeral⟩, hsigned, by decide,
    fun h => absurd (hy.mpr h) (by decide)⟩

end

end ScriptSandbox.Number
