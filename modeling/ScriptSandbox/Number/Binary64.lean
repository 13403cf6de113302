/-
  Doubles by their bits.

  A `Binary64` is the 64 bits of an IEEE 754 double. `significand x * 2 ^ place x` is the exact
  magnitude of a finite `x`, and `ofRatio` goes back: it rounds a quotient of naturals to the
  nearest double, ties to even. Comparison works on the bits. Sums, products, quotients and
  remainders are computed exactly and rounded once. A NaN operand is passed on with its payload, and
  an invalid operation gives `indefinite`, so that the identity of a NaN is determined.
-/

namespace ScriptSandbox

/-- The bits of a double. Equality is equality of bits: zero and minus zero differ, and so do two
    NaNs with different payloads. -/
structure Binary64 where
  bits : UInt64
deriving DecidableEq, Repr

namespace Binary64

/-! ## Parts -/

/-- The sign bit. -/
def isNegative (x : Binary64) : Bool := x.bits.toNat / Nat.pow 2 63 % 2 = 1

/-- The biased exponent, below 2048. -/
def exponentField (x : Binary64) : Nat := x.bits.toNat / Nat.pow 2 52 % Nat.pow 2 11

/-- The stored fraction, below `2 ^ 52`. -/
def fraction (x : Binary64) : Nat := x.bits.toNat % Nat.pow 2 52

def isFinite (x : Binary64) : Bool := x.exponentField ≠ 2047

def isNaN (x : Binary64) : Bool := x.exponentField = 2047 ∧ x.fraction ≠ 0

def isInfinite (x : Binary64) : Bool := x.exponentField = 2047 ∧ x.fraction = 0

/-- The significand of a finite double as an integer, with the hidden bit of a normal one. -/
def significand (x : Binary64) : Nat :=
  if x.exponentField = 0 then x.fraction else x.fraction + Nat.pow 2 52

/-- The binary exponent of the last place of the significand. -/
def place (x : Binary64) : Int :=
  if x.exponentField = 0 then -1074 else (x.exponentField : Int) - 1075

/-- Plus or minus zero. -/
def isZero (x : Binary64) : Bool := x.exponentField = 0 ∧ x.fraction = 0

/-- The integer part of a finite double, cut toward zero. -/
def truncate (x : Binary64) : Int :=
  let magnitude : Nat :=
    if 0 ≤ x.place then x.significand * Nat.pow 2 x.place.toNat
    else x.significand / Nat.pow 2 (-x.place).toNat
  if x.isNegative then -(magnitude : Int) else magnitude

/-! ## Rounding a quotient -/

/-- A sign and the remaining 63 bits. -/
def ofMagnitude (negative : Bool) (magnitude : Nat) : Binary64 :=
  ⟨UInt64.ofNat (if negative then magnitude + Nat.pow 2 63 else magnitude)⟩

def zero : Binary64 := ofMagnitude false 0

def negativeZero : Binary64 := ofMagnitude true 0

def infinity (negative : Bool) : Binary64 := ofMagnitude negative (2047 * Nat.pow 2 52)

/-- The NaN that constants and conversions give. -/
def nan : Binary64 := ⟨0x7ff8000000000000⟩

/-- The NaN of an operation without a result, such as zero over zero. -/
def indefinite : Binary64 := ⟨0xfff8000000000000⟩

/-- The integer nearest to `num / den`, a half going to the even neighbour. -/
def roundHalfEven (num den : Nat) : Nat :=
  let q := num / den
  let r := num % den
  if 2 * r < den ∨ (2 * r = den ∧ q % 2 = 0) then q else q + 1

/-- The floor of the binary logarithm of `num / den`, for positive arguments. -/
def floorLog2 (num den : Nat) : Int :=
  let guess : Int := (Nat.log2 num : Int) - (Nat.log2 den : Int)
  let scaled := den * Nat.pow 2 guess.toNat
  if num * Nat.pow 2 (-guess).toNat < scaled then guess - 1 else guess

/-- The place of the last bit kept when `num / den` is rounded: 53 bits, and never below the
    place of the subnormal numbers. -/
def lastPlace (num den : Nat) : Int := max (floorLog2 num den - 52) (-1074)

/-- The 63 magnitude bits of the double nearest to `num / den`. A significand that rounds up to
    `2 ^ 53` carries into the exponent, and what exceeds the largest double is infinite. -/
def nearestMagnitude (num den : Nat) : Nat :=
  if num = 0 then 0
  else
    let q := lastPlace num den
    let m := roundHalfEven (num * Nat.pow 2 (-q).toNat) (den * Nat.pow 2 q.toNat)
    min ((q + 1074).toNat * Nat.pow 2 52 + m) (2047 * Nat.pow 2 52)

/-- The double nearest to `num / den` with the given sign. -/
def ofRatio (negative : Bool) (num den : Nat) : Binary64 :=
  ofMagnitude negative (nearestMagnitude num den)

/-- The double nearest to an integer. -/
def ofInt (i : Int) : Binary64 := ofRatio (i < 0) i.natAbs 1

def ofNat (n : Nat) : Binary64 := ofRatio false n 1

/-- The decimal exponents beyond which a magnitude of `digits` decimal digits is certainly
    infinite or zero. -/
def decimalReach : Int := 400

/-- The double nearest to `coefficient * 10 ^ exponent`. Magnitudes far outside the range of
    doubles are settled by their digit count, so that the powers stay small. -/
def ofDecimal (negative : Bool) (coefficient : Nat) (exponent : Int) : Binary64 :=
  if coefficient = 0 then ofMagnitude negative 0
  else
    let point := (Nat.log2 coefficient * 30103 / 100000 : Nat) + exponent
    if decimalReach < point then infinity negative
    else if point < -decimalReach then ofMagnitude negative 0
    else
      ofRatio negative (coefficient * Nat.pow 10 exponent.toNat) (Nat.pow 10 (-exponent).toNat)

/-! ## Order -/

/-- The place of a double that is not NaN in the order of the reals; both zeros are at 0. -/
def rank (x : Binary64) : Int :=
  let magnitude : Int := (x.bits.toNat % Nat.pow 2 63 : Nat)
  if x.isNegative then -magnitude else magnitude

/-- Numeric equality: false with a NaN on either side, true between the zeros. -/
def eqv (a b : Binary64) : Bool := !a.isNaN && !b.isNaN && a.rank == b.rank

def lt (a b : Binary64) : Bool := !a.isNaN && !b.isNaN && decide (a.rank < b.rank)

def le (a b : Binary64) : Bool := !a.isNaN && !b.isNaN && decide (a.rank ≤ b.rank)

/-! ## Arithmetic -/

/-- The double nearest to `m * 2 ^ q` with the given sign. -/
def ofScaled (negative : Bool) (m : Nat) (q : Int) : Binary64 :=
  ofRatio negative (m * Nat.pow 2 q.toNat) (Nat.pow 2 (-q).toNat)

/-- The significand with the sign of the double. -/
def signed (x : Binary64) : Int :=
  if x.isNegative then -(x.significand : Int) else x.significand

/-- A NaN as an operation passes it on: the same payload with the quiet bit set. -/
def quiet (x : Binary64) : Binary64 := ⟨x.bits ||| 0x0008000000000000⟩

/-- An operation on doubles that are no NaN, extended to all: the first NaN operand wins. -/
def arithmetic (op : Binary64 → Binary64 → Binary64) (a b : Binary64) : Binary64 :=
  if a.isNaN then a.quiet
  else if b.isNaN then b.quiet
  else op a b

/-- Negation flips the sign bit, of a NaN too. -/
def neg (x : Binary64) : Binary64 := ⟨x.bits ^^^ 0x8000000000000000⟩

/-- The magnitude as a double. -/
def abs (x : Binary64) : Binary64 := ofMagnitude false (x.bits.toNat % Nat.pow 2 63)

/-- The sum of two doubles that are no NaN. A sum that is exactly zero is minus zero only when both
    operands are negative. -/
def sum (a b : Binary64) : Binary64 :=
  if a.isInfinite then
    if b.isInfinite && a.isNegative != b.isNegative then indefinite else a
  else if b.isInfinite then b
  else
    let q := min a.place b.place
    let s := a.signed * (Nat.pow 2 (a.place - q).toNat : Nat) +
      b.signed * (Nat.pow 2 (b.place - q).toNat : Nat)
    ofScaled (if s = 0 then a.isNegative && b.isNegative else s < 0) s.natAbs q

def add : Binary64 → Binary64 → Binary64 := arithmetic sum

def sub : Binary64 → Binary64 → Binary64 := arithmetic fun a b => a.sum b.neg

def mul : Binary64 → Binary64 → Binary64 := arithmetic fun a b =>
  let negative := a.isNegative != b.isNegative
  if a.isInfinite || b.isInfinite then
    if a.isZero || b.isZero then indefinite else infinity negative
  else ofScaled negative (a.significand * b.significand) (a.place + b.place)

def div : Binary64 → Binary64 → Binary64 := arithmetic fun a b =>
  let negative := a.isNegative != b.isNegative
  if a.isInfinite then
    if b.isInfinite then indefinite else infinity negative
  else if b.isInfinite then ofMagnitude negative 0
  else if b.isZero then
    if a.isZero then indefinite else infinity negative
  else
    let q := a.place - b.place
    ofRatio negative (a.significand * Nat.pow 2 q.toNat) (b.significand * Nat.pow 2 (-q).toNat)

/-- The remainder of truncated division; it has the sign of the dividend. -/
def remainder : Binary64 → Binary64 → Binary64 := arithmetic fun a b =>
  if a.isInfinite || b.isZero then indefinite
  else if b.isInfinite then a
  else
    let q := min a.place b.place
    let r := (a.significand * Nat.pow 2 (a.place - q).toNat) %
      (b.significand * Nat.pow 2 (b.place - q).toNat)
    ofScaled a.isNegative r q

/-- The remainder of Euclidean division, which is never negative. -/
def remEuclid (a b : Binary64) : Binary64 :=
  let r := a.remainder b
  if r.lt zero then r.add b.abs else r

/-! ## Integers -/

/-- The integer part of a double, cut toward zero, as a double. The sign is kept, of a zero too. -/
def trunc (x : Binary64) : Binary64 :=
  if x.isFinite then ofRatio x.isNegative x.truncate.natAbs 1 else x

/-- The integer part as a double, with NaN read as zero. The result is never minus zero; an
    infinity is kept. -/
def toInteger (x : Binary64) : Binary64 :=
  if x.isNaN then zero
  else if x.isInfinite then x
  else ofInt x.truncate

end Binary64

end ScriptSandbox
