/-!
# Wasm.Float.Format

Floating-point numbers as bit patterns. A pattern of a format is a sign bit, an exponent field and a
fraction field; it is handled here as a natural number below `2 ^ width`. What needs no rounding is
computed exactly on patterns: classification, order, minimum and maximum, a wider format, rounding
to an integral value and truncation to an integer.
-/

namespace Wasm

/-- A binary floating-point format: the widths of the exponent and fraction fields. -/
structure FloatFormat where
  exponentBits : Nat
  fractionBits : Nat
  deriving DecidableEq, Repr

namespace FloatFormat

def binary32 : FloatFormat := ⟨8, 23⟩

def binary64 : FloatFormat := ⟨11, 52⟩

variable (f : FloatFormat)

/-! ## Fields -/

/-- The value of the sign bit in a pattern. -/
def signWeight : Nat := 1 <<< (f.exponentBits + f.fractionBits)

/-- Whether the sign bit is set. -/
def isNegative (x : Nat) : Bool := f.signWeight ≤ x

/-- The pattern without its sign. -/
def magnitude (x : Nat) : Nat := x % f.signWeight

/-- The sign bit of a pattern alone. -/
def signOf (x : Nat) : Nat := if f.isNegative x then f.signWeight else 0

/-- The exponent field. -/
def exponentField (x : Nat) : Nat := f.magnitude x >>> f.fractionBits

/-- The fraction field. -/
def fraction (x : Nat) : Nat := x % (1 <<< f.fractionBits)

/-- What the exponent field exceeds the exponent by. -/
def bias : Nat := (1 <<< (f.exponentBits - 1)) - 1

/-! ## Classes -/

/-- The pattern of positive infinity. Magnitudes above it are those of NaNs. -/
def infinity : Nat := ((1 <<< f.exponentBits) - 1) <<< f.fractionBits

/-- The fraction bit that tells a quiet NaN. -/
def quietBit : Nat := 1 <<< (f.fractionBits - 1)

/-- The positive quiet NaN without payload. -/
def canonicalNaN : Nat := f.infinity + f.quietBit

def isNaN (x : Nat) : Bool := f.infinity < f.magnitude x

def isInfinite (x : Nat) : Bool := f.magnitude x = f.infinity

/-- A NaN made quiet. -/
def quiet (x : Nat) : Nat :=
  if f.fraction x / f.quietBit % 2 = 1 then x else x + f.quietBit

/-! ## Order -/

/-- Orders all patterns but NaNs by value; both zeros have the same key. -/
def valueKey (x : Nat) : Int :=
  if f.isNegative x then -(f.magnitude x : Int) else f.magnitude x

/-- Two patterns that can be compared: neither is a NaN. -/
def ordered (x y : Nat) : Bool := !f.isNaN x && !f.isNaN y

def eq (x y : Nat) : Bool := f.ordered x y && f.valueKey x = f.valueKey y

def lt (x y : Nat) : Bool := f.ordered x y && f.valueKey x < f.valueKey y

def le (x y : Nat) : Bool := f.ordered x y && f.valueKey x ≤ f.valueKey y

/-- The lesser operand, or the canonical NaN if there is a NaN. Of two zeros a negative one is the
lesser. -/
def min (x y : Nat) : Nat :=
  if f.isNaN x || f.isNaN y then f.canonicalNaN
  else if f.eq x y then if f.isNegative x then x else y
  else if f.lt x y then x
  else y

/-- The greater operand, or the canonical NaN if there is a NaN. Of two zeros a positive one is the
greater. -/
def max (x y : Nat) : Nat :=
  if f.isNaN x || f.isNaN y then f.canonicalNaN
  else if f.eq x y then if f.isNegative x then y else x
  else if f.lt x y then y
  else x

/-! ## Exact values

A finite pattern stands for `± significand * 2 ^ exponent`. -/

/-- The significand as an integer, with the leading bit that normal numbers leave out. -/
def significand (x : Nat) : Nat :=
  if f.exponentField x = 0 then f.fraction x else f.fraction x + (1 <<< f.fractionBits)

/-- The exponent that goes with the integer significand. -/
def exponent (x : Nat) : Int :=
  (Nat.max 1 (f.exponentField x) : Int) - f.bias - f.fractionBits

/-- The value of a finite pattern rounded toward zero. -/
def truncate (x : Nat) : Int :=
  let n :=
    if 0 ≤ f.exponent x then f.significand x <<< (f.exponent x).toNat
    else f.significand x >>> (-f.exponent x).toNat
  if f.isNegative x then -(n : Int) else n

/-- The pattern of `n * 2 ^ e`. The significand has to hold `n`, and the number has to be normal. -/
def scaled (n : Nat) (e : Int) : Nat :=
  if n = 0 then 0
  else
    ((n.log2 + e + f.bias - 1).toNat <<< f.fractionBits) + (n <<< (f.fractionBits - n.log2))

/-- The pattern in a wider format of what a pattern stands for. A NaN keeps its payload and becomes
quiet. -/
def widen (g : FloatFormat) (x : Nat) : Nat :=
  let sign := if f.isNegative x then g.signWeight else 0
  if f.isNaN x then
    sign + g.quiet (g.infinity + (f.fraction x <<< (g.fractionBits - f.fractionBits)))
  else if f.isInfinite x then sign + g.infinity
  else sign + g.scaled (f.significand x) (f.exponent x)

/-! ## Rounding to an integral value -/

/-- The directions in which a value goes to an integral one. -/
inductive Rounding where
  | ceil
  | floor
  | trunc
  | nearest
  deriving DecidableEq, Repr

/-- Whether a magnitude goes up, given its integral part, the rest and the unit of the rest. -/
def Rounding.up (negative : Bool) (whole rest unit : Nat) : Rounding → Bool
  | .ceil => !negative && rest ≠ 0
  | .floor => negative && rest ≠ 0
  | .trunc => false
  | .nearest => unit < 2 * rest || (2 * rest = unit && whole % 2 = 1)

/-- The pattern of an integer that the significand can hold. -/
def ofNat (n : Nat) : Nat := f.scaled n 0

/-- Round a pattern to an integral value; the sign stays, also on zero. -/
def round (mode : Rounding) (x : Nat) : Nat :=
  if f.isNaN x then f.quiet x
  else if f.isInfinite x || 0 ≤ f.exponent x then x
  else
    let unit := 1 <<< (-f.exponent x).toNat
    let whole := f.significand x / unit
    let rest := f.significand x % unit
    let up := mode.up (f.isNegative x) whole rest unit
    f.signOf x + f.ofNat (if up then whole + 1 else whole)

end FloatFormat

end Wasm
