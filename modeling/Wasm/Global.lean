import Wasm.Value

/-!
# Wasm.Global

Globals. A global keeps a whole cell; its declared type says how the cell is read.
-/

namespace Wasm

/-- A global: its type and its cell. -/
structure Global where
  type : GlobalType
  cell : UInt64
  deriving DecidableEq, Repr

namespace Global

/-- A global of a type that holds a value. -/
def ofValue (type : GlobalType) (v : Value) : Global := ⟨type, v.cell⟩

/-- The value, read at the declared type. -/
def value (g : Global) : Value := .ofCell g.type.valType g.cell

end Global

end Wasm
