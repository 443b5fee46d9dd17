import Wasm.Float.Format
import Wasm.Float.Rounded

/-!
# Wasm.Numeric.Float

Floating-point instructions on cells. The sign operations act on the bits of the cell.
-/

namespace Wasm

/-- The format of floats of a width. -/
def Width.format : Width → FloatFormat
  | .w32 => .binary32
  | .w64 => .binary64

/-- The pattern of the float of a width in a cell. -/
def Width.pattern (w : Width) (cell : UInt64) : Nat :=
  cell.toNat % (1 <<< w.bits)

/-- The pattern of the float of a width in a cell, in the format of 64-bit floats. -/
def Width.pattern64 (w : Width) (cell : UInt64) : Nat :=
  match w with
  | .w32 => FloatFormat.binary32.widen .binary64 (w.pattern cell)
  | .w64 => w.pattern cell

/-- Floating-point operations on one operand. -/
inductive FloatUnary where
  | abs
  | neg
  | ceil
  | floor
  | trunc
  | nearest
  | sqrt
  deriving DecidableEq, Repr

def FloatUnary.eval (w : Width) (op : FloatUnary) (a : UInt64) : UInt64 :=
  match op with
  | .abs => a &&& (w.topBit - 1)
  | .neg => a ^^^ w.topBit
  | .ceil => .ofNat (w.format.round .ceil (w.pattern a))
  | .floor => .ofNat (w.format.round .floor (w.pattern a))
  | .trunc => .ofNat (w.format.round .trunc (w.pattern a))
  | .nearest => .ofNat (w.format.round .nearest (w.pattern a))
  | .sqrt => Rounded.sqrt w a

/-- Floating-point operations on two operands. -/
inductive FloatBinary where
  | add
  | sub
  | mul
  | div
  | min
  | max
  | copysign
  deriving DecidableEq, Repr

def FloatBinary.eval (w : Width) (op : FloatBinary) (a b : UInt64) : UInt64 :=
  match op with
  | .add => Rounded.add w a b
  | .sub => Rounded.sub w a b
  | .mul => Rounded.mul w a b
  | .div => Rounded.div w a b
  | .min => .ofNat (w.format.min (w.pattern a) (w.pattern b))
  | .max => .ofNat (w.format.max (w.pattern a) (w.pattern b))
  | .copysign => (a &&& (w.topBit - 1)) ||| (b &&& w.topBit)

/-- Floating-point comparisons. -/
inductive FloatRel where
  | eq
  | ne
  | lt
  | gt
  | le
  | ge
  deriving DecidableEq, Repr

def FloatRel.eval (w : Width) (op : FloatRel) (a b : UInt64) : Bool :=
  let x := w.pattern a
  let y := w.pattern b
  match op with
  | .eq => w.format.eq x y
  | .ne => !w.format.eq x y
  | .lt => w.format.lt x y
  | .gt => w.format.lt y x
  | .le => w.format.le x y
  | .ge => w.format.le y x

end Wasm
