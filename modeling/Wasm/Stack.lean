import Wasm.Trap

/-!
# Wasm.Stack

The operand stack: untyped cells, shared by all frames of a call, up to a limit.

The operations form a state monad that keeps the stack when it traps.
-/

namespace Wasm

/-- The operand stack; the last cell is the top. -/
structure Stack where
  cells : Array UInt64 := #[]
  limit : Nat
  deriving DecidableEq, Repr

/-- Operations on a stack. -/
abbrev StackM := EStateM Trap Stack

namespace Stack

/-- The number of cells. -/
def size (s : Stack) : Nat := s.cells.size

/-- Put a cell on top. -/
def push (c : UInt64) : StackM Unit := fun s =>
  if s.limit ≤ s.cells.size then .error .stackOverflow s
  else .ok () { s with cells := s.cells.push c }

/-- Put cells on top, the last one topmost. -/
def pushAll : List UInt64 → StackM Unit
  | [] => return ()
  | c :: cs => do
    push c
    pushAll cs

/-- Take the top cell. -/
def pop : StackM UInt64 := fun s =>
  match s.cells.back? with
  | some c => .ok c { s with cells := s.cells.pop }
  | none => .error .stackUnderflow s

/-- The top cell, which stays. -/
def peek : StackM UInt64 := fun s =>
  match s.cells.back? with
  | some c => .ok c s
  | none => .error .stackUnderflow s

/-- Take the `n` topmost cells, the top one last. -/
def popMany (n : Nat) : StackM (Array UInt64) := fun s =>
  if s.cells.size < n then .error .stackUnderflow s
  else
    let height := s.cells.size - n
    .ok (s.cells.extract height) { s with cells := s.cells.shrink height }

/-- Keep the `arity` topmost cells and drop those between them and `height`. -/
def unwind (height arity : Nat) : StackM Unit := fun s =>
  if s.cells.size < height + arity then .error .stackUnderflow s
  else
    let top := s.cells.extract (s.cells.size - arity)
    .ok () { s with cells := s.cells.shrink height ++ top }

/-- Drop all cells. -/
def clear (s : Stack) : Stack := { s with cells := #[] }

end Stack

end Wasm
