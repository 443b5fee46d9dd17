import Wasm.Trap

/-!
# Wasm.Locals

The locals of a frame: cells by index, parameters first. Their number never changes.
-/

namespace Wasm

/-- The locals of a frame. -/
abbrev Locals := Array UInt64

/-- Operations on locals. -/
abbrev LocalsM := EStateM Trap Locals

namespace Locals

/-- The cell of a local. -/
def get (index : UInt32) : LocalsM UInt64 := fun locals =>
  match locals[index.toNat]? with
  | some c => .ok c locals
  | none => .error (.localIndexOutOfRange index) locals

/-- Replace the cell of a local. -/
def set (index : UInt32) (c : UInt64) : LocalsM Unit := fun locals =>
  if index.toNat < locals.size then .ok () (locals.setIfInBounds index.toNat c)
  else .error (.localIndexOutOfRange index) locals

end Locals

end Wasm
