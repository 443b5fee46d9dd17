import Wasm.Instr
import Wasm.Reader.Compound

/-!
# Wasm.Instr.Read

Reading instructions from a function body. A byte that is no opcode is read alone.
-/

namespace Wasm.Instr

/-- The immediates of a load or a store: an alignment, which has no effect, and an offset. -/
def readMemArg : Reader UInt32 := do
  let _ ← Reader.u32
  Reader.u32

/-- The immediates of a branch table: depths after their count, then the default depth. -/
def readBrTable : Reader Instr := do
  let depths ← Reader.vec Reader.u32
  return .brTable depths (← Reader.u32)

/-- Read the immediates that follow an opcode. -/
def readImmediates (opcode : UInt8) : Reader Instr :=
  match opcode with
  | 0x00 => return .plain .unreachable
  | 0x01 => return .plain .nop
  | 0x02 => return .opener .block
  | 0x03 => return .opener .loop
  | 0x04 => return .opener .cond
  | 0x05 => return .elseArm
  | 0x0B => return .blockEnd
  | 0x0C => return .br (← Reader.u32)
  | 0x0D => return .brIf (← Reader.u32)
  | 0x0E => readBrTable
  | 0x0F => return .ret
  | 0x10 => return .call (← Reader.u32)
  | 0x11 => do
    let type ← Reader.u32
    return .callIndirect type (← Reader.u8)
  | 0x1A => return .plain .drop
  | 0x1B => return .plain .select
  | 0x20 => return .plain (.localGet (← Reader.u32))
  | 0x21 => return .plain (.localSet (← Reader.u32))
  | 0x22 => return .plain (.localTee (← Reader.u32))
  | 0x23 => return .plain (.globalGet (← Reader.u32))
  | 0x24 => return .plain (.globalSet (← Reader.u32))
  | 0x3F => do
    let _ ← Reader.u32
    return .plain .memorySize
  | 0x40 => do
    let _ ← Reader.u32
    return .plain .memoryGrow
  | 0x41 => return .plain (.const (.i32 (← Reader.s32).toUInt32))
  | 0x42 => return .plain (.const (.i64 (← Reader.s64).toUInt64))
  | 0x43 => return .plain (.const (.f32 (← Reader.u32le)))
  | 0x44 => return .plain (.const (.f64 (← Reader.u64le)))
  | _ =>
    if let some op := LoadOp.ofByte? opcode then
      return .plain (.load op (← readMemArg))
    else if let some op := StoreOp.ofByte? opcode then
      return .plain (.store op (← readMemArg))
    else if let some op := NumericOp.ofByte? opcode then
      return .plain (.numeric op)
    else
      return .illegal opcode

/-- Read one instruction. -/
def read : Reader Instr := do
  readImmediates (← Reader.u8)

end Wasm.Instr
