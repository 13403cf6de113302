import ScriptSandbox.Fault
import ScriptSandbox.Number.Binary64

/-
  Reading a number from a string.

  `Binary64.ofText` trims blanks at both ends and reads what is left: nothing is zero, then the
  spellings of infinity, then an integer behind `0x`, `0o` or `0b`, then a decimal. Everything else
  is NaN. The two characters of a radix mark are cut off by bytes, and a longer text whose
  third byte lies inside a character cannot be cut: that is a fault.
-/

namespace ScriptSandbox.Number

/-! ## Blanks -/

/-- The characters trimmed from a numeral: those with the Unicode property White_Space, and the
    byte order mark. -/
def isBlank (c : Char) : Bool :=
  let n := c.toNat
  (9 ≤ n && n ≤ 13) || n == 0x20 || n == 0x85 || n == 0xA0 || n == 0x1680 ||
    (0x2000 ≤ n && n ≤ 0x200A) || n == 0x2028 || n == 0x2029 || n == 0x202F || n == 0x205F ||
    n == 0x3000 || n == 0xFEFF

/-- The text without blanks at its ends. -/
def trim (cs : List Char) : List Char :=
  ((cs.dropWhile isBlank).reverse.dropWhile isBlank).reverse

/-! ## Radix marks -/

/-- Number of bytes of the text in UTF-8. -/
def byteLength (cs : List Char) : Nat := cs.foldl (fun n c => n + c.utf8Size) 0

/-- The text cut after `n` bytes, if no character lies across the cut. -/
def cutBytes : (n : Nat) → List Char → Option (List Char × List Char)
  | 0, cs => some ([], cs)
  | _ + 1, [] => none
  | n + 1, c :: cs =>
    if c.utf8Size ≤ n + 1 then (cutBytes (n + 1 - c.utf8Size) cs).map fun (a, b) => (c :: a, b)
    else none

/-- The radix that a mark announces. -/
def radixOf? : List Char → Option Nat
  | ['0', 'x'] | ['0', 'X'] => some 16
  | ['0', 'o'] | ['0', 'O'] => some 8
  | ['0', 'b'] | ['0', 'B'] => some 2
  | _ => none

/-- The value of an ASCII digit in the given radix. -/
def digitValue? (radix : Nat) (c : Char) : Option Nat :=
  let value? :=
    if '0' ≤ c ∧ c ≤ '9' then some (c.toNat - '0'.toNat)
    else if 'a' ≤ c ∧ c ≤ 'z' then some (c.toNat - 'a'.toNat + 10)
    else if 'A' ≤ c ∧ c ≤ 'Z' then some (c.toNat - 'A'.toNat + 10)
    else none
  value?.filter (· < radix)

/-- The digits read from the left in doubles, rounding at every digit. -/
def accumulate (radix : Nat) : (total : Binary64) → List Char → Option Binary64
  | total, [] => some total
  | total, c :: cs =>
    match digitValue? radix c with
    | some d => accumulate radix ((total.mul (.ofNat radix)).add (.ofNat d)) cs
    | none => none

/-! ## Decimals -/

/-- The longest run of decimal digits at the front, and the rest. -/
def spanDigits (cs : List Char) : List Char × List Char := cs.span Char.isDigit

/-- The number that a run of decimal digits denotes. -/
def natOfDigits (ds : List Char) : Nat :=
  ds.foldl (fun n c => 10 * n + (c.toNat - '0'.toNat)) 0

/-- An optional sign: whether it is a minus, and the rest. -/
def takeSign : List Char → Bool × List Char
  | '+' :: cs => (false, cs)
  | '-' :: cs => (true, cs)
  | cs => (false, cs)

/-- An optional fraction: the digits behind a point, and the rest. -/
def takeFraction : List Char → List Char × List Char
  | '.' :: cs => spanDigits cs
  | cs => ([], cs)

/-- A whole exponent part, or nothing at all; `none` when anything else follows. -/
def readExponent? : List Char → Option Int
  | [] => some 0
  | c :: cs =>
    if c = 'e' ∨ c = 'E' then
      let (negative, rest) := takeSign cs
      let (ds, rest) := spanDigits rest
      if ds.isEmpty || !rest.isEmpty then none
      else some (if negative then -(natOfDigits ds : Int) else natOfDigits ds)
    else none

/-- A decimal numeral: an optional sign, digits with an optional point among or around them, and
    an optional exponent. -/
def readDecimal? (cs : List Char) : Option Binary64 :=
  let (negative, cs) := takeSign cs
  let (whole, cs) := spanDigits cs
  let (fraction, cs) := takeFraction cs
  if whole.isEmpty && fraction.isEmpty then none
  else
    (readExponent? cs).map fun e =>
      Binary64.ofDecimal negative (natOfDigits (whole ++ fraction)) (e - fraction.length)

/-- A text as a reader of doubles takes it that also knows the names of infinity and NaN, behind a
    sign and in any case. -/
def readNamed? (cs : List Char) : Option Binary64 :=
  let (negative, rest) := takeSign cs
  let name := rest.map Char.toLower
  if name = "inf".toList ∨ name = "infinity".toList then some (.infinity negative)
  else if name = "nan".toList then some (if negative then Binary64.nan.neg else .nan)
  else readDecimal? cs

/-- The characters of a decimal: digits, point, exponent letter and signs. -/
def isNumeral (c : Char) : Bool :=
  c.isDigit || c == '.' || c == 'e' || c == 'E' || c == '+' || c == '-'

/-- A decimal, or NaN. The characters are checked first, so that no name is taken for a number. -/
def readPlain (cs : List Char) : Binary64 :=
  if cs.all isNumeral then (readNamed? cs).getD .nan else .nan

/-! ## Numerals -/

/-- A trimmed, non-empty text as a number. -/
def readTrimmed (cs : List Char) : Except Fault Binary64 :=
  if cs = "Infinity".toList ∨ cs = "+Infinity".toList then .ok (.infinity false)
  else if cs = "-Infinity".toList then .ok (.infinity true)
  else
    let decimal : Except Fault Binary64 := .ok (readPlain cs)
    if 2 < byteLength cs then
      match cutBytes 2 cs with
      | none => .error .splitCharacter
      | some (mark, digits) =>
        match radixOf? mark with
        | some radix => .ok ((accumulate radix .zero digits).getD .nan)
        | none => decimal
    else decimal

/-- The characters of a string as a number. -/
def readChars (cs : List Char) : Except Fault Binary64 :=
  match trim cs with
  | [] => .ok .zero
  | c :: rest => readTrimmed (c :: rest)

end ScriptSandbox.Number

namespace ScriptSandbox.Binary64

/-- The numeric value of a string: NaN when it is no numeral. -/
def ofText (s : String) : Except Fault Binary64 := Number.readChars s.toList

end ScriptSandbox.Binary64
