import Wasm.IndexSpace
import Wasm.Instr
import Wasm.Locals
import Wasm.Stack

/-!
# Wasm.Exec

What plain instructions do. They reach the operand stack, the locals of the frame, and the globals
and the memory of the instance, and nothing else; in particular they cannot tell where execution
goes on. A trap keeps the state in which it arose.
-/

namespace Wasm

/-- What a plain instruction can reach. -/
structure Scope where
  space : IndexSpace
  stack : Stack
  locals : Locals

/-- The effect of plain instructions. -/
abbrev Exec := EStateM Trap Scope

namespace Exec

/-! ## Operands -/

/-- Act on the operand stack. -/
def onStack (x : StackM α) : Exec α := fun s =>
  match s with
  | ⟨space, stack, locals⟩ =>
    match x stack with
    | .ok a stack => .ok a ⟨space, stack, locals⟩
    | .error t stack => .error t ⟨space, stack, locals⟩

def push (c : UInt64) : Exec Unit := onStack (Stack.push c)

def pop : Exec UInt64 := onStack Stack.pop

def peek : Exec UInt64 := onStack Stack.peek

/-- Take the low half of the top cell. -/
def pop32 : Exec UInt32 := do
  return (← pop).toUInt32

/-! ## Locals and globals -/

/-- Act on the locals. -/
def onLocals (x : LocalsM α) : Exec α := fun s =>
  match s with
  | ⟨space, stack, locals⟩ =>
    match x locals with
    | .ok a locals => .ok a ⟨space, stack, locals⟩
    | .error t locals => .error t ⟨space, stack, locals⟩

def getGlobal (index : UInt32) : Exec UInt64 := fun s =>
  match s.space.globals[index.toNat]? with
  | some g => .ok g.cell s
  | none => .error (.globalIndexOutOfRange index) s

def setGlobal (index : UInt32) (c : UInt64) : Exec Unit := fun s =>
  match s.space.globals[index.toNat]? with
  | none => .error (.globalIndexOutOfRange index) s
  | some g =>
    if g.type.mutable then .ok () { s with space := s.space.setGlobal index.toNat c }
    else .error (.immutableGlobal index) s

/-! ## Memory -/

/-- Read from the memory. -/
def readMemory (f : Memory → Except Trap α) : Exec α := fun s =>
  match s.space.memory with
  | none => .error .missingMemory s
  | some m =>
    match f m with
    | .ok a => .ok a s
    | .error t => .error t s

def load (op : LoadOp) (offset : UInt32) : Exec Unit := do
  let address ← pop32
  let bytes ← readMemory (·.load address offset op.bytes)
  push (op.extend (leNat bytes))

/-- Replace bytes of the memory. -/
def writeMemory (address offset : UInt32) (bytes : List UInt8) : Exec Unit := fun s =>
  let start := Memory.effective address offset
  match s.space.memory.map (·.covers start bytes.length) with
  | none => .error .missingMemory s
  | some false => .error (.memoryOutOfBounds start bytes.length) s
  | some true => .ok () { s with space := s.space.mapMemory (·.write start bytes) }

def store (op : StoreOp) (offset : UInt32) : Exec Unit := do
  let c ← pop
  let address ← pop32
  writeMemory address offset (leBytes op.bytes c.toNat)

def memorySize : Exec Unit := do
  let pages ← readMemory fun m => .ok m.pages
  push (.ofNat pages)

/-- Grow the memory if it may grow so far. -/
def growMemory (delta : Nat) : Exec Unit := fun s =>
  .ok () { s with space := s.space.mapMemory fun m => (m.grow? delta).getD m }

/-- Grow the memory by the operand and leave its previous size, or all ones when it cannot grow so
far. -/
def memoryGrow : Exec Unit := do
  let delta ← pop32
  let previous ← readMemory fun m =>
    .ok (if m.canGrow delta.toNat then some m.pages else none)
  match previous with
  | some pages =>
    growMemory delta.toNat
    push (.ofNat pages)
  | none => push 0xFFFFFFFF

/-! ## Indirect calls -/

/-- The function of an indirect call: its index stands in the table, and it must have the type of
that index among `types`. -/
def indirect (types : Array FuncType) (type : UInt32) (table : UInt8) : Exec UInt32 := do
  let element ← pop32
  let space := (← get).space
  match space.table.toList[table.toNat]? with
  | none => throw (.tableIndexOutOfRange table.toUInt32)
  | some t =>
    match t.get element with
    | .error trap => throw trap
    | .ok func =>
      match types[type.toNat]? with
      | none => throw (.typeIndexOutOfRange type)
      | some expected =>
        match space.funcs[func.toNat]? with
        | none => throw (.functionIndexOutOfRange func space.funcs.size)
        | some f =>
          if f.type = expected then return func
          else throw (.indirectCallTypeMismatch expected f.type)

/-! ## Numbers -/

/-- A partial operation, as an effect. -/
def ofExcept (x : Except Trap α) : Exec α := fun s =>
  match x with
  | .ok a => .ok a s
  | .error t => .error t s

def numeric : NumericOp → Exec Unit
  | .unary op => do
    let a ← pop
    push (← ofExcept (op.eval a))
  | .binary op => do
    let b ← pop
    let a ← pop
    push (← ofExcept (op.eval a b))

end Exec

open Exec in
/-- Carry out a plain instruction. -/
def PlainInstr.exec : PlainInstr → Exec Unit
  | .unreachable => throw .unreachable
  | .nop => return ()
  | .drop => do
    let _ ← pop
  | .select => do
    let condition ← pop32
    let b ← pop
    let a ← pop
    push (if condition ≠ 0 then a else b)
  | .localGet index => do push (← onLocals (Locals.get index))
  | .localSet index => do onLocals (Locals.set index (← pop))
  | .localTee index => do onLocals (Locals.set index (← peek))
  | .globalGet index => do push (← getGlobal index)
  | .globalSet index => do setGlobal index (← pop)
  | .load op offset => Exec.load op offset
  | .store op offset => Exec.store op offset
  | .memorySize => Exec.memorySize
  | .memoryGrow => Exec.memoryGrow
  | .const v => push v.cell
  | .numeric op => Exec.numeric op

end Wasm
