import Wasm.Numeric
import Wasm.Value

/-!
# Wasm.Instr

Instructions with their immediates, as they stand one after the other in a function body. Plain
instructions act on operands, locals, globals and memory and go on to the next instruction; the
others decide where execution goes on.
-/

namespace Wasm

def ValType.width : ValType → Width
  | .i32 | .f32 => .w32
  | .i64 | .f64 => .w64

/-- A load: the type of the result, the number of bytes, and whether they are a signed number. -/
structure LoadOp where
  type : ValType
  bytes : Nat
  signed : Bool
  deriving DecidableEq, Repr

namespace LoadOp

def firstOpcode : UInt8 := 0x28

/-- The loads in the order of their opcodes. -/
def all : Array LoadOp := #[
  ⟨.i32, 4, false⟩, ⟨.i64, 8, false⟩, ⟨.f32, 4, false⟩, ⟨.f64, 8, false⟩,
  ⟨.i32, 1, true⟩, ⟨.i32, 1, false⟩, ⟨.i32, 2, true⟩, ⟨.i32, 2, false⟩,
  ⟨.i64, 1, true⟩, ⟨.i64, 1, false⟩, ⟨.i64, 2, true⟩, ⟨.i64, 2, false⟩,
  ⟨.i64, 4, true⟩, ⟨.i64, 4, false⟩]

/-- The load of an opcode. -/
def ofByte? (b : UInt8) : Option LoadOp :=
  if b < firstOpcode then none else all[b.toNat - firstOpcode.toNat]?

/-- The cell for a number that was read: extended to the width of the result, by its sign or by
zeros. -/
def extend (op : LoadOp) (n : Nat) : UInt64 :=
  if op.signed then
    op.type.width.toCell ((BitVec.ofNat (8 * op.bytes) n).signExtend op.type.width.bits)
  else .ofNat n

end LoadOp

/-- A store: the type of the operand and the number of its bytes that are written. -/
structure StoreOp where
  type : ValType
  bytes : Nat
  deriving DecidableEq, Repr

namespace StoreOp

def firstOpcode : UInt8 := 0x36

/-- The stores in the order of their opcodes. -/
def all : Array StoreOp := #[
  ⟨.i32, 4⟩, ⟨.i64, 8⟩, ⟨.f32, 4⟩, ⟨.f64, 8⟩, ⟨.i32, 1⟩, ⟨.i32, 2⟩, ⟨.i64, 1⟩, ⟨.i64, 2⟩,
  ⟨.i64, 4⟩]

/-- The store of an opcode. -/
def ofByte? (b : UInt8) : Option StoreOp :=
  if b < firstOpcode then none else all[b.toNat - firstOpcode.toNat]?

end StoreOp

/-- Instructions after which the next one follows. -/
inductive PlainInstr where
  | unreachable
  | nop
  | drop
  | select
  | localGet (index : UInt32)
  | localSet (index : UInt32)
  | localTee (index : UInt32)
  | globalGet (index : UInt32)
  | globalSet (index : UInt32)
  | load (op : LoadOp) (offset : UInt32)
  | store (op : StoreOp) (offset : UInt32)
  | memorySize
  | memoryGrow
  | const (v : Value)
  | numeric (op : NumericOp)
  deriving DecidableEq, Repr

/-- The constructs that open a block. -/
inductive BlockKind where
  | block
  | loop
  | cond
  deriving DecidableEq, Repr

/-- Instructions. An opener is only its opcode here: its block type is read with the structure of
the body. -/
inductive Instr where
  | plain (op : PlainInstr)
  | opener (kind : BlockKind)
  | elseArm
  | blockEnd
  | br (depth : UInt32)
  | brIf (depth : UInt32)
  | brTable (depths : Array UInt32) (default : UInt32)
  | ret
  | call (func : UInt32)
  | callIndirect (type : UInt32) (table : UInt8)
  | illegal (opcode : UInt8)
  deriving DecidableEq, Repr

end Wasm
