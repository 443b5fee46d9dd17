import Wasm.Types

/-!
# Wasm.Value

Values with their types, and the untyped cells that hold them. A cell is a 64-bit pattern; a
32-bit value occupies its low half and leaves the rest zero. Floats are their IEEE 754 patterns,
so every NaN keeps its payload.
-/

namespace Wasm

/-- A typed value. Integers have no sign of their own. -/
inductive Value where
  | i32 (bits : UInt32)
  | i64 (bits : UInt64)
  | f32 (bits : UInt32)
  | f64 (bits : UInt64)
  deriving DecidableEq, Repr

namespace Value

def type : Value → ValType
  | .i32 _ => .i32
  | .i64 _ => .i64
  | .f32 _ => .f32
  | .f64 _ => .f64

/-- The cell that holds a value. -/
def cell : Value → UInt64
  | .i32 bits => bits.toUInt64
  | .i64 bits => bits
  | .f32 bits => bits.toUInt64
  | .f64 bits => bits

/-- Read a cell at a type; a 32-bit type sees only the low half. -/
def ofCell : ValType → UInt64 → Value
  | .i32, c => .i32 c.toUInt32
  | .i64, c => .i64 c
  | .f32, c => .f32 c.toUInt32
  | .f64, c => .f64 c

@[simp]
theorem type_ofCell (t : ValType) (c : UInt64) : (ofCell t c).type = t := by
  cases t <;> rfl

/-- A value survives being held in a cell. -/
@[simp]
theorem ofCell_cell (v : Value) : ofCell v.type v.cell = v := by
  cases v <;> simp [ofCell, type, cell]

end Value

end Wasm
