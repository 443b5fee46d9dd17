import Wasm.Width

/-!
# Wasm.Float.Rounded

Floating-point operations whose results are rounded to the nearest number of the format, ties to
the even one. They work on cells.
-/

namespace Wasm.Rounded

/-- Apply an operation to the floats of a width in two cells. -/
def binary (on32 : Float32 → Float32 → Float32) (on64 : Float → Float → Float) :
    Width → UInt64 → UInt64 → UInt64
  | .w32, a, b => (on32 (.ofBits a.toUInt32) (.ofBits b.toUInt32)).toBits.toUInt64
  | .w64, a, b => (on64 (.ofBits a) (.ofBits b)).toBits

def add : Width → UInt64 → UInt64 → UInt64 := binary (· + ·) (· + ·)

def sub : Width → UInt64 → UInt64 → UInt64 := binary (· - ·) (· - ·)

def mul : Width → UInt64 → UInt64 → UInt64 := binary (· * ·) (· * ·)

def div : Width → UInt64 → UInt64 → UInt64 := binary (· / ·) (· / ·)

def sqrt : Width → UInt64 → UInt64
  | .w32, a => (Float32.ofBits a.toUInt32).sqrt.toBits.toUInt64
  | .w64, a => (Float.ofBits a).sqrt.toBits

/-- A 64-bit float as a 32-bit one. -/
def demote (a : UInt64) : UInt64 :=
  (Float.ofBits a).toFloat32.toBits.toUInt64

/-- An integer as a float: widths of the integer and of the float, and whether the integer is
signed. -/
def convert : (source target : Width) → (signed : Bool) → UInt64 → UInt64
  | .w32, .w32, false, a => a.toUInt32.toFloat32.toBits.toUInt64
  | .w32, .w32, true, a => a.toUInt32.toInt32.toFloat32.toBits.toUInt64
  | .w64, .w32, false, a => a.toFloat32.toBits.toUInt64
  | .w64, .w32, true, a => a.toInt64.toFloat32.toBits.toUInt64
  | .w32, .w64, false, a => a.toUInt32.toFloat.toBits
  | .w32, .w64, true, a => a.toUInt32.toInt32.toFloat.toBits
  | .w64, .w64, false, a => a.toFloat.toBits
  | .w64, .w64, true, a => a.toInt64.toFloat.toBits

end Wasm.Rounded
