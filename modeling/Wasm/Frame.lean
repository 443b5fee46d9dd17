import Wasm.Exec
import Wasm.Instr.Read

/-!
# Wasm.Frame

Frames of code: where execution stands in a body, its locals, and the labels of the blocks it is
in. Control instructions act on the frame they stand in; a call or a return is handed on to the
machine as a `Flow`.
-/

namespace Wasm

/-- Where a branch goes. -/
structure Label where
  /-- The number of values that a branch carries. -/
  arity : Nat
  /-- Where execution goes on: after the `end` of a block, at the opener of a loop. -/
  continuation : Nat
  /-- The height of the stack below the parameters of the block. -/
  height : Nat
  deriving DecidableEq, Repr

/-- An activation of code; the innermost label comes first. -/
structure Frame where
  code : Code
  locals : Locals
  /-- The height of the stack when the frame was entered, without the parameters. -/
  base : Nat
  pc : Nat := 0
  labels : List Label := []

namespace Frame

/-- Read from the body at the position of the frame. A failed read traps and does not move. -/
def read (r : Reader α) : EStateM Trap Frame α := fun f =>
  match r.runAt f.code.body f.pc with
  | .ok a pc => .ok a { f with pc }
  | .error e _ => .error e.trap f

/-- Read the next instruction. -/
def fetch : EStateM Trap Frame Instr := read Instr.read

/-- Act on the locals. -/
def onLocals (x : LocalsM α) : EStateM Trap Frame α := fun f =>
  match f with
  | ⟨code, locals, base, pc, labels⟩ =>
    match x locals with
    | .ok a locals => .ok a ⟨code, locals, base, pc, labels⟩
    | .error t locals => .error t ⟨code, locals, base, pc, labels⟩

end Frame

/-- A frame with the stack and the instance it runs on. -/
structure Activation where
  space : IndexSpace
  stack : Stack
  frame : Frame

/-- The effect of instructions on the frame they stand in. -/
abbrev Control := EStateM Trap Activation

/-- How execution goes on after an instruction. -/
inductive Flow where
  | next
  | ret
  | call (func : UInt32)
  deriving DecidableEq, Repr

namespace Control

/-- Act on the stack. -/
def onStack (x : StackM α) : Control α := fun a =>
  match a with
  | ⟨space, stack, frame⟩ =>
    match x stack with
    | .ok b stack => .ok b ⟨space, stack, frame⟩
    | .error t stack => .error t ⟨space, stack, frame⟩

/-- Act on what plain instructions can reach. -/
def onScope (x : Exec α) : Control α := fun a =>
  match a with
  | ⟨space, stack, ⟨code, locals, base, pc, labels⟩⟩ =>
    match x ⟨space, stack, locals⟩ with
    | .ok b ⟨space, stack, locals⟩ => .ok b ⟨space, stack, ⟨code, locals, base, pc, labels⟩⟩
    | .error t ⟨space, stack, locals⟩ =>
      .error t ⟨space, stack, ⟨code, locals, base, pc, labels⟩⟩

/-- Change the frame. -/
def modifyFrame (f : Frame → Frame) : Control Unit := fun a =>
  .ok () { a with frame := f a.frame }

/-- Read the next instruction. -/
def fetch : Control Instr := fun a =>
  match a with
  | ⟨space, stack, frame⟩ =>
    match Frame.fetch frame with
    | .ok instr frame => .ok instr ⟨space, stack, frame⟩
    | .error t frame => .error t ⟨space, stack, frame⟩

/-- Take the low half of the top cell. -/
def pop32 : Control UInt32 := do
  return (← onStack Stack.pop).toUInt32

/-- Leave for the block `depth` levels out. One level past the outermost block is the function
itself, which returns. -/
def branch (depth : UInt32) : Control Flow := do
  let frame := (← get).frame
  match frame.labels.drop depth.toNat with
  | label :: outer =>
    onStack (Stack.unwind label.height label.arity)
    modifyFrame fun f => { f with pc := label.continuation, labels := outer }
    return .next
  | [] =>
    if depth.toNat = frame.labels.length then return .ret else throw (.malformed frame.pc)

/-- The label of a block that is entered at a height of the stack. -/
def labelOf (b : Block) (height : Nat) : Label :=
  match b.kind with
  | .loop => ⟨b.arity.params, b.start, height⟩
  | .block | .cond => ⟨b.arity.results, b.endAt + 1, height⟩

/-- Where a block goes on: after its opener, or, when its condition fails, after its `else` or at
its `end`. -/
def entry (b : Block) (taken : Bool) : Nat :=
  if taken then b.start + 1 + b.immediateLength
  else
    match b.elseAt with
    | some elseAt => elseAt + 1
    | none => b.endAt

/-- Enter a block whose parameters are on the stack. -/
def enterBlock (b : Block) (taken : Bool) : Control Flow := do
  let size := (← get).stack.size
  if size < b.arity.params then
    throw .stackUnderflow
  else
    modifyFrame fun f =>
      { f with
        pc := entry b taken
        labels := labelOf b (size - b.arity.params) :: f.labels }
    return .next

/-- Carry out the opener at a position. -/
def openBlock (start : Nat) (kind : BlockKind) : Control Flow := do
  match (← get).frame.code.blocks[start]? with
  | none => throw (.malformed start)
  | some b =>
    match kind with
    | .block | .loop => enterBlock b true
    | .cond => enterBlock b ((← pop32) ≠ 0)

/-- Carry out an `end`: leave the innermost block, or the function. -/
def closeBlock : Control Flow := do
  match (← get).frame.labels with
  | _ :: outer =>
    modifyFrame fun f => { f with labels := outer }
    return .next
  | [] => return .ret

/-- Carry out an indirect call; the types it refers to are those of the code. -/
def indirect (type : UInt32) (table : UInt8) : Control Flow := do
  let types := (← get).frame.code.types
  return .call (← onScope (Exec.indirect types type table))

end Control

open Control in
/-- Carry out the instruction that stands at a position. -/
def Instr.exec (start : Nat) : Instr → Control Flow
  | .plain op => do
    onScope op.exec
    return .next
  | .opener kind => openBlock start kind
  | .elseArm => branch 0
  | .blockEnd => closeBlock
  | .br depth => branch depth
  | .brIf depth => do
    if (← pop32) ≠ 0 then branch depth else return .next
  | .brTable depths default => do
    let index ← pop32
    branch ((depths[index.toNat]?).getD default)
  | .ret => return .ret
  | .call func => return .call func
  | .callIndirect type table => indirect type table
  | .illegal opcode => throw (.illegalOpcode opcode start)

/-- Read and carry out one instruction. -/
def Control.step : Control Flow := do
  let start := (← get).frame.pc
  let instr ← fetch
  instr.exec start

end Wasm
