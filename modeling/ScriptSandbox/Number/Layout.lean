import ScriptSandbox.Number.Shortest

/-
  Layouts of a decimal.

  A `Layout` says for which positions of the point a decimal is written out in full; outside this
  range it is written with one digit before the point and an exponent.
-/

namespace ScriptSandbox.Number

/-- How a decimal is laid out. Full notation is used while the point stands between `lowest` and
    `highest`; `fraction` writes `.0` behind an integer in full notation, and `plus` writes the
    sign of an exponent that is not negative. -/
structure Layout where
  lowest : Int
  highest : Int
  fraction : Bool
  plus : Bool

/-- Digits with the point behind all of them: zeros up to the point. -/
def integerText (l : Layout) (ds : List Char) (point : Nat) : List Char :=
  ds ++ List.replicate (point - ds.length) '0' ++ (if l.fraction then ".0".toList else [])

/-- Digits with the point inside. -/
def splitText (ds : List Char) (point : Nat) : List Char :=
  ds.take point ++ '.' :: ds.drop point

/-- Digits with the point in front of all of them, `zeros` places away. -/
def leadingText (ds : List Char) (zeros : Nat) : List Char :=
  '0' :: '.' :: List.replicate zeros '0' ++ ds

/-- One digit before the point and an exponent. -/
def exponentText (l : Layout) (ds : List Char) (exponent : Int) : List Char :=
  let sign := if exponent < 0 then ['-'] else if l.plus then ['+'] else []
  let mantissa :=
    match ds with
    | d :: e :: rest => d :: '.' :: e :: rest
    | _ => ds
  mantissa ++ 'e' :: sign ++ digitsOf exponent.natAbs

/-- The digits `ds` with the decimal point at `point`. -/
def Layout.write (l : Layout) (ds : List Char) (point : Int) : List Char :=
  if l.lowest ≤ point ∧ point ≤ l.highest then
    if (ds.length : Int) ≤ point then integerText l ds point.toNat
    else if 1 ≤ point then splitText ds point.toNat
    else leadingText ds (-point).toNat
  else exponentText l ds (point - 1)

/-- The text of a finite double other than zero. -/
def Layout.writeFinite (l : Layout) (tie : Tie) (x : Binary64) : List Char :=
  let d := shortest tie x
  let body := l.write d.digits d.point
  if x.isNegative then '-' :: body else body

end ScriptSandbox.Number
