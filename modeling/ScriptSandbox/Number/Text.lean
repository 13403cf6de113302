import ScriptSandbox.Number.Layout

/-
  The text of a number.

  `Binary64.text` is what a script sees when a number becomes a string; `Binary64.taggedText` is the
  form in diagnostics, where an integer shows its `.0`.
-/

namespace ScriptSandbox

open Number

/-- Number text in scripts: full notation from `1e-6` up to `1e21`, and a signed exponent. -/
def scriptLayout : Layout := ⟨-5, 21, false, true⟩

/-- Number text in diagnostics: full notation from `1e-4` up to `1e16`, always with a fraction. -/
def diagnosticLayout : Layout := ⟨-3, 16, true, false⟩

namespace Binary64

/-- The text of a number as characters. Both zeros read `0`. -/
def textChars (x : Binary64) : List Char :=
  if x.isNaN then "NaN".toList
  else if x.isZero then ['0']
  else if x.isInfinite then (if x.isNegative then "-Infinity" else "Infinity").toList
  else scriptLayout.writeFinite .up x

/-- The text of a number: the fewest digits that read back, an exact tie upward. -/
def text (x : Binary64) : String := String.ofList x.textChars

/-- The text of a number in diagnostics. -/
def taggedText (x : Binary64) : String :=
  if x.isNaN then "NaN"
  else if x.isInfinite then (if x.isNegative then "-inf" else "inf")
  else if x.isZero then (if x.isNegative then "-0.0" else "0.0")
  else String.ofList (diagnosticLayout.writeFinite .up x)

end Binary64

end ScriptSandbox
