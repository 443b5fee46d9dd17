import Wasm.Leb128
import Wasm.Value

/-!
# Wasm.ConstExpr

Constant expressions: one instruction that yields a value, as the initializers of globals and the
offsets of segments use them. An expression keeps its immediate as the bytes that were read.
-/

namespace Wasm

variable {m : Type → Type} [Monad m] [MonadLiftT Reader m] [Decoder m]

/-- The instructions a constant expression may consist of. -/
inductive ConstOp where
  | globalGet
  | i32Const
  | i64Const
  | f32Const
  | f64Const
  deriving DecidableEq, Repr

namespace ConstOp

def byte : ConstOp → UInt8
  | .globalGet => 0x23
  | .i32Const => 0x41
  | .i64Const => 0x42
  | .f32Const => 0x43
  | .f64Const => 0x44

def ofByte? (b : UInt8) : Option ConstOp :=
  if b = 0x23 then some .globalGet
  else if b = 0x41 then some .i32Const
  else if b = 0x42 then some .i64Const
  else if b = 0x43 then some .f32Const
  else if b = 0x44 then some .f64Const
  else none

@[simp]
theorem ofByte?_byte (op : ConstOp) : ofByte? op.byte = some op := by
  cases op <;> rfl

/-- The type that the instruction yields, where the instruction alone decides it. -/
def type? : ConstOp → Option ValType
  | .globalGet => none
  | .i32Const => some .i32
  | .i64Const => some .i64
  | .f32Const => some .f32
  | .f64Const => some .f64

/-- Whether the instruction yields a floating-point constant. -/
def isFloat (op : ConstOp) : Bool :=
  op.type?.any ValType.isFloat

end ConstOp

/-- What the immediate of a constant expression denotes. -/
inductive Constant where
  | value (v : Value)
  | global (index : UInt32)
  deriving DecidableEq, Repr

/-- Read the immediate of a constant instruction. -/
def ConstOp.immediate : ConstOp → m Constant
  | .globalGet => return .global (← Reader.u32)
  | .i32Const => return .value (.i32 (← Reader.s32).toUInt32)
  | .i64Const => return .value (.i64 (← Reader.s64).toUInt64)
  | .f32Const => return .value (.f32 (← Reader.u32le))
  | .f64Const => return .value (.f64 (← Reader.u64le))

/-- A constant expression: its instruction, and its immediate as written. -/
structure ConstExpr where
  op : ConstOp
  immediate : Array UInt8
  deriving DecidableEq, Repr

namespace ConstExpr

/-- The byte that ends an expression. -/
def terminator : UInt8 := 0x0B

/-- The constant `v`, in its shortest spelling. -/
def i32Const (v : Int32) : ConstExpr :=
  ⟨.i32Const, (Leb128.writeSigned v.toInt).toArray⟩

/-- The number of bytes that an expression takes: its instruction, its immediate and its
terminator. -/
def byteCount (e : ConstExpr) : Nat := e.immediate.size + 2

/-- Read one expression up to and including its terminator. -/
def read : m ConstExpr := do
  let start ← Reader.offset
  let opcode ← Reader.u8
  let some op := ConstOp.ofByte? opcode | Reader.fail (.invalidConstOpcode opcode start)
  let immediate ← Decoder.captured op.immediate
  let stop ← Reader.offset
  if (← Reader.u8) = terminator then
    return ⟨op, immediate⟩
  else
    Reader.fail (.unterminatedConst stop)

/-- What the expression denotes, read from the start of its immediate. -/
def constant (e : ConstExpr) : Except ReadError Constant :=
  Reader.parse e.op.immediate e.immediate

end ConstExpr

end Wasm
