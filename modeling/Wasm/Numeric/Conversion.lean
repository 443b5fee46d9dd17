import Wasm.Numeric.Float
import Wasm.Trap
import Wasm.Types

/-!
# Wasm.Numeric.Conversion

Conversions between the number types, on cells.
-/

namespace Wasm

/-- The least integer of a width. -/
def Width.least (w : Width) (signed : Bool) : Int :=
  if signed then -(1 <<< (w.bits - 1) : Nat) else 0

/-- The greatest integer of a width. -/
def Width.greatest (w : Width) (signed : Bool) : Int :=
  (if signed then (1 <<< (w.bits - 1)) - 1 else (1 <<< w.bits) - 1 : Nat)

/-- The integer of a width that is nearest to an integer. -/
def Width.clamp (w : Width) (signed : Bool) (n : Int) : Int :=
  if n < w.least signed then w.least signed
  else if w.greatest signed < n then w.greatest signed
  else n

namespace FloatFormat

variable (f : FloatFormat)

/-- The integral part of a float as an integer of a width. What does not fit becomes the least or
the greatest one, and a NaN becomes zero. -/
def saturate (target : Width) (signed : Bool) (x : Nat) : Int :=
  if f.isNaN x then 0 else target.clamp signed (f.truncate x)

/-- Round a float toward zero if it lies between two others, which it may not reach. -/
def truncateBetween (low high x : Nat) : Except Trap Nat :=
  if f.isNaN x then .error .invalidConversionToInteger
  else if f.le x low || f.le high x then .error .integerOverflow
  else .ok (f.round .trunc x)

/-- The negative of a float that is positive. -/
def negative (x : Nat) : Nat := f.signWeight + x

/-- Truncate a float toward zero to an integer of a width. It has to lie between the integer below
the least and the one above the greatest. Only the one below the least signed integer of 64 bits is
no float, so there the least one itself is the bound. -/
def truncateTo (target : Width) (signed : Bool) (x : Nat) : Except Trap Int :=
  match target, signed with
  | .w64, true =>
    if f.le (f.negative (f.scaled 1 63)) x && f.lt x (f.scaled 1 63) then
      .ok (f.saturate .w64 true (f.round .trunc x))
    else if f.isNaN x then .error .invalidConversionToInteger
    else .error .integerOverflow
  | target, signed => do
    let low := f.negative (f.ofNat (1 - target.least signed).toNat)
    let high := f.scaled 1 (if signed then target.bits - 1 else target.bits : Nat)
    return f.saturate target signed (← f.truncateBetween low high x)

end FloatFormat

/-- Conversions. Truncation and conversion name the width they start from and the one they lead
to; a reinterpretation names the type it starts from. -/
inductive Conversion where
  | wrap
  | extend (signed : Bool)
  | truncate (source target : Width) (signed : Bool)
  | convert (source target : Width) (signed : Bool)
  | demote
  | promote
  | reinterpret (source : ValType)
  deriving DecidableEq, Repr

def Conversion.eval : Conversion → UInt64 → Except Trap UInt64
  | .wrap, a => .ok a.toUInt32.toUInt64
  | .extend true, a => .ok (Width.w64.toCell ((Width.w32.ofCell a).signExtend 64))
  | .extend false, a => .ok a.toUInt32.toUInt64
  | .truncate source target signed, a => do
    let n ← FloatFormat.binary64.truncateTo target signed (source.pattern64 a)
    return target.toCell (BitVec.ofInt target.bits n)
  | .convert source target signed, a => .ok (Rounded.convert source target signed a)
  | .demote, a => .ok (Rounded.demote a)
  | .promote, a => .ok (.ofNat (Width.w32.pattern64 a))
  | .reinterpret _, a => .ok a

end Wasm
