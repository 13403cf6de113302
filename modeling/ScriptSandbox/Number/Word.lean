import ScriptSandbox.Number.Binary64

/-
  Words of 32 bits.

  `toUInt32` reduces the integer part of a double modulo `2 ^ 32`, in doubles, and takes the result
  as a word; `toInt32` takes it as a signed word, after moving its upper half below zero. The
  bitwise operators and the shifts work on these words.
-/

namespace ScriptSandbox.Binary64

/-! ## Conversions that clamp -/

/-- The integer part of a double moved into a range: NaN counts as zero, and what lies outside goes
    to the nearer end. -/
def clamp (low high : Int) (x : Binary64) : Int :=
  if x.isNaN then 0
  else if x.isInfinite then (if x.isNegative then low else high)
  else max low (min x.truncate high)

def clampUInt32 (x : Binary64) : UInt32 := UInt32.ofNat (x.clamp 0 4294967295).toNat

def clampInt32 (x : Binary64) : Int32 := Int32.ofInt (x.clamp (-2147483648) 2147483647)

/-! ## Words -/

/-- The number of words. -/
def wordSpan : Binary64 := ofNat 4294967296

/-- The first word that stands for a negative number. -/
def signedSpan : Binary64 := ofNat 2147483648

/-- The integer part of a finite double modulo `2 ^ 32`, as a double. -/
def wrapped (x : Binary64) : Binary64 := x.trunc.remEuclid wordSpan

/-- The integer part modulo `2 ^ 32`; 0 for NaN and the infinities. -/
def toUInt32 (x : Binary64) : UInt32 :=
  if !x.isFinite || x.isZero then 0 else x.wrapped.clampUInt32

/-- The integer part modulo `2 ^ 32`, between `-2 ^ 31` and `2 ^ 31`; 0 for NaN and the
    infinities. -/
def toInt32 (x : Binary64) : Int32 :=
  if !x.isFinite || x.isZero then 0
  else if signedSpan.le x.wrapped then (x.wrapped.sub wordSpan).clampInt32
  else x.wrapped.clampInt32

def ofInt32 (i : Int32) : Binary64 := ofInt i.toInt

def ofUInt32 (w : UInt32) : Binary64 := ofNat w.toNat

/-- A shift distance: the low five bits. -/
def shiftCount (x : Binary64) : UInt32 := x.toUInt32 &&& 31

def bitNot (a : Binary64) : Binary64 := ofInt32 (~~~ a.toInt32)

def bitAnd (a b : Binary64) : Binary64 := ofInt32 (a.toInt32 &&& b.toInt32)

def bitOr (a b : Binary64) : Binary64 := ofInt32 (a.toInt32 ||| b.toInt32)

def bitXor (a b : Binary64) : Binary64 := ofInt32 (a.toInt32 ^^^ b.toInt32)

/-- A left shift drops the bits that leave the word. -/
def shiftLeft (a b : Binary64) : Binary64 :=
  ofInt32 (a.toUInt32 <<< b.shiftCount).toInt32

/-- A right shift that repeats the sign bit. -/
def shiftRight (a b : Binary64) : Binary64 :=
  ofInt32 (a.toInt32 >>> b.shiftCount.toInt32)

/-- A right shift that fills with zeros. -/
def shiftRightUnsigned (a b : Binary64) : Binary64 :=
  ofUInt32 (a.toUInt32 >>> b.shiftCount)

end ScriptSandbox.Binary64
