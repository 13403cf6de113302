import ScriptSandbox.Number.Binary64

/-
  The shortest decimal digits that read back.

  Around a positive finite double lies the interval of reals that round to it. `shortest` looks
  for the coarsest power of ten that has a multiple in this interval and takes the multiple nearest
  to the double; an exact tie goes up or to the even digit as the caller asks.
-/

namespace ScriptSandbox.Number

/-- The reals `low / den` to `high / den` that round to `value / den`. The ends belong to it when
    `closed`. -/
structure Rounding where
  low : Nat
  value : Nat
  high : Nat
  den : Nat
  closed : Bool

/-- The rounding interval of a positive finite double: half a place to each side, and a quarter
    below a power of two, where the doubles get denser. -/
def Rounding.ofBinary64 (x : Binary64) : Rounding :=
  let m := x.significand
  let below := if m = Nat.pow 2 52 then 1 else 2
  let q := x.place - 2
  let scale := Nat.pow 2 q.toNat
  { low := (4 * m - below) * scale
    value := 4 * m * scale
    high := (4 * m + 2) * scale
    den := Nat.pow 2 (-q).toNat
    closed := m % 2 = 0 }

/-- Whether `num / den'` lies in the interval. -/
def Rounding.contains (r : Rounding) (num den' : Nat) : Bool :=
  if r.closed then
    decide (r.low * den' ≤ num * r.den) && decide (num * r.den ≤ r.high * den')
  else
    decide (r.low * den' < num * r.den) && decide (num * r.den < r.high * den')

/-- Where an exact tie between two shortest decimals goes. -/
inductive Tie where
  | up
  | even
deriving DecidableEq

/-- A decimal `coefficient * 10 ^ exponent`. -/
structure Decimal where
  coefficient : Nat
  exponent : Int
deriving DecidableEq, Repr

/-- The multiple of `10 ^ unit` in the interval that is nearest to its value, if there is one. -/
def Rounding.onGrid? (r : Rounding) (tie : Tie) (unit : Int) : Option Nat :=
  let up := Nat.pow 10 unit.toNat
  let down := Nat.pow 10 (-unit).toNat
  let c := r.value * down / (r.den * up)
  let lower := r.contains (c * up) down
  let upper := r.contains ((c + 1) * up) down
  if lower && upper then
    -- twice the distance of the value from `c`, measured against one unit
    let twice := 2 * (r.value * down - c * (r.den * up))
    let one := r.den * up
    if twice < one then some c
    else if one < twice then some (c + 1)
    else match tie with
      | .up => some (c + 1)
      | .even => some (if c % 2 = 0 then c else c + 1)
  else if lower then some c
  else if upper then some (c + 1)
  else none

/-- The first unit at or below `unit`, in at most `tries` steps, that has a multiple in the
    interval. -/
def Rounding.search (r : Rounding) (tie : Tie) : (tries : Nat) → (unit : Int) → Decimal
  | 0, unit => ⟨0, unit⟩
  | tries + 1, unit =>
    match r.onGrid? tie unit with
    | some c => ⟨c, unit⟩
    | none => r.search tie tries (unit - 1)

/-- A unit above the double: one more than its decimal order of magnitude. -/
def Rounding.startUnit (r : Rounding) : Int :=
  ((Nat.log2 r.high : Int) - (Nat.log2 r.den : Int) + 1) * 30103 / 100000 + 1

/-- The shortest decimal that reads back as the positive finite double `x`. -/
def shortest (tie : Tie) (x : Binary64) : Decimal :=
  let r := Rounding.ofBinary64 x
  r.search tie 24 r.startUnit

/-- The decimal digits of a natural number. -/
def digitsOf (n : Nat) : List Char := Nat.toDigits 10 n

namespace Decimal

/-- The digits of the coefficient. -/
def digits (d : Decimal) : List Char := digitsOf d.coefficient

/-- Where the decimal point stands, counted from before the first digit. -/
def point (d : Decimal) : Int := d.exponent + d.digits.length

end Decimal

end ScriptSandbox.Number
