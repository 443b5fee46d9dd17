import Wasm.Reader
import Wasm.Types

/-!
# Wasm.Trap

The reasons why a call ends without results.
-/

namespace Wasm

/-- Why a call ended without results. -/
inductive Trap where
  | unreachable
  | integerDivideByZero
  | integerOverflow
  | invalidConversionToInteger
  | memoryOutOfBounds (address length : Nat)
  | undefinedElement (index : UInt32)
  | uninitializedElement (index : UInt32)
  | indirectCallTypeMismatch (expected found : FuncType)
  | functionIndexOutOfRange (index : UInt32) (length : Nat)
  | localIndexOutOfRange (index : UInt32)
  | globalIndexOutOfRange (index : UInt32)
  | typeIndexOutOfRange (index : UInt32)
  | tableIndexOutOfRange (index : UInt32)
  | missingMemory
  | immutableGlobal (index : UInt32)
  | illegalOpcode (opcode : UInt8) (offset : Nat)
  | stackUnderflow
  | stackOverflow
  | callStackExhausted
  | outOfFuel
  | exportNotFound (name : String)
  | notAFunction (name : String)
  | argumentMismatch (expected : FuncType) (found : List ValType)
  | hostResultMismatch (expected : FuncType) (found : List ValType)
  | host (reason : String)
  | malformed (offset : Nat)
  deriving DecidableEq, Repr

def Trap.message : Trap → String
  | .unreachable => "unreachable executed"
  | .integerDivideByZero => "integer divide by zero"
  | .integerOverflow => "integer overflow"
  | .invalidConversionToInteger => "invalid conversion to integer"
  | .memoryOutOfBounds address length =>
    s!"out of bounds memory access (addr {address}, len {length})"
  | .undefinedElement index => s!"undefined element {index}"
  | .uninitializedElement index => s!"uninitialized element {index}"
  | .indirectCallTypeMismatch expected found =>
    s!"indirect call type mismatch: expected {expected.text}, found {found.text}"
  | .functionIndexOutOfRange index length =>
    s!"function index {index} out of range (len {length})"
  | .localIndexOutOfRange index => s!"local index {index} out of range"
  | .globalIndexOutOfRange index => s!"global index {index} out of range"
  | .typeIndexOutOfRange index => s!"type index {index} out of range"
  | .tableIndexOutOfRange index => s!"table index {index} out of range"
  | .missingMemory => "no memory present"
  | .immutableGlobal index => s!"global {index} is immutable"
  | .illegalOpcode opcode offset =>
    s!"illegal opcode {Text.hexByte opcode} at offset {offset}"
  | .stackUnderflow => "operand stack underflow"
  | .stackOverflow => "operand stack exhausted"
  | .callStackExhausted => "call stack exhausted"
  | .outOfFuel => "all fuel consumed"
  | .exportNotFound name => s!"export {Text.quote name} not found"
  | .notAFunction name => s!"export {Text.quote name} is not a function"
  | .argumentMismatch expected found =>
    s!"argument mismatch: expected {expected.text}, found {ValType.listing found}"
  | .hostResultMismatch expected found =>
    s!"host function returned {ValType.listing found}, declared {expected.text}"
  | .host reason => s!"host function error: {reason}"
  | .malformed offset => s!"malformed function body at offset {offset}"

/-- A body that cannot be read traps where the read failed. -/
def ReadError.trap (e : ReadError) : Trap :=
  .malformed e.offset

end Wasm
