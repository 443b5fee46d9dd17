/-!
# Wasm.Width

The two widths of numbers, and numbers of a width inside 64-bit cells. A number of 32 bits is the
low half of its cell; writing it leaves the high half zero.
-/

namespace Wasm

/-- The width of an integer or a float. -/
inductive Width where
  | w32
  | w64
  deriving DecidableEq, Repr

namespace Width

def bits : Width → Nat
  | .w32 => 32
  | .w64 => 64

/-- The number of this width in a cell. -/
def ofCell (w : Width) (cell : UInt64) : BitVec w.bits :=
  cell.toBitVec.setWidth w.bits

/-- The cell that holds a number of this width. -/
def toCell (w : Width) (n : BitVec w.bits) : UInt64 :=
  .ofBitVec (n.setWidth 64)

/-- The top bit of a number of this width. -/
def topBit : Width → UInt64
  | .w32 => 0x80000000
  | .w64 => 0x8000000000000000

@[simp]
theorem ofCell_toCell (w : Width) (n : BitVec w.bits) : w.ofCell (w.toCell n) = n := by
  cases w <;> simp [ofCell, toCell, bits] at n ⊢

end Width

/-- The cell of a truth value. -/
def boolCell (b : Bool) : UInt64 :=
  if b then 1 else 0

end Wasm
