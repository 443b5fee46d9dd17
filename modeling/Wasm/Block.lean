import Std.Data.TreeMap
import Wasm.Instr
import Wasm.Reader.Compound

/-!
# Wasm.Block

The block structure of a function body. One scan over the instructions records for every opener
where its `else` and its `end` stand and how many values it takes and yields.

* `Scan` is the state of the scan: the position, the blocks still open, the blocks closed so far.
* `skipImmediates` passes over what follows an opcode. Only the widths matter here; they must be
  those that execution uses.
* `Scan.step` passes over one instruction; `analyzeBlocks` repeats it up to the `end` of the body.
-/

namespace Wasm

/-! ## Block types -/

/-- What a block takes and yields: nothing, one result, or as a function type says. -/
inductive BlockType where
  | empty
  | value (type : ValType)
  | func (type : UInt32)
  deriving DecidableEq, Repr

/-- How many values something takes and yields. -/
structure Arity where
  params : Nat
  results : Nat
  deriving DecidableEq, Repr

namespace BlockType

/-- Read a block type; `none` for a negative type index. -/
def read : Reader (Option BlockType) := do
  let b ← Reader.peek
  if b = 0x40 then
    Reader.skip 1
    return some .empty
  else if let some type := ValType.ofByte? b then
    Reader.skip 1
    return some (.value type)
  else
    let index ← Reader.s33
    return if 0 ≤ index then some (.func (.ofNat index.toNat)) else none

/-- The arity that a block type gives; `none` if there is no such function type. -/
def arity? (types : Array FuncType) : BlockType → Option Arity
  | .empty => some ⟨0, 0⟩
  | .value _ => some ⟨0, 1⟩
  | .func index => (types[index.toNat]?).map fun t => ⟨t.params.length, t.results.length⟩

end BlockType

/-! ## Blocks -/

/-- The opener of a block, and its `else` if that has been seen. -/
structure OpenBlock where
  kind : BlockKind
  /-- Where the opcode of the opener stands. -/
  start : Nat
  type : BlockType
  arity : Arity
  /-- The number of bytes of the block type. -/
  immediateLength : Nat
  /-- Where the opcode of the `else` stands. -/
  elseAt : Option Nat
  deriving DecidableEq, Repr

/-- A block with its `end`. -/
structure Block extends OpenBlock where
  /-- Where the opcode of the `end` stands. -/
  endAt : Nat
  deriving DecidableEq, Repr

/-- Blocks by the position of their opener. -/
abbrev BlockMap := Std.TreeMap Nat Block

/-- Why a body has no block structure. -/
inductive BlockError where
  | illNested (offset : Nat)
  | invalidBlockType (offset : Nat)
  | read (e : ReadError)
  deriving DecidableEq, Repr

def BlockError.message : BlockError → String
  | .illNested offset => s!"ill-nested block at offset {offset}"
  | .invalidBlockType offset => s!"invalid block type at offset {offset}"
  | .read e => e.message

/-! ## Immediates -/

/-- Pass over `n` indices. -/
def skipIndices : (n : Nat) → Reader Unit
  | 0 => return ()
  | n + 1 => do
    let _ ← Reader.u32
    skipIndices n

/-- Pass over the immediates of an opcode other than those of the block structure. An opcode that
is not listed has none. -/
def skipImmediates (opcode : UInt8) : Reader Unit :=
  if opcode ∈ [0x0C, 0x0D, 0x10, 0x20, 0x21, 0x22, 0x23, 0x24, 0x3F, 0x40] then
    skipIndices 1
  else if opcode = 0x11 then do
    skipIndices 1
    Reader.skip 1
  else if opcode = 0x0E then do
    let count ← Reader.u32
    skipIndices (count.toNat + 1)
  else if 0x28 ≤ opcode ∧ opcode ≤ 0x3E then
    skipIndices 2
  else if opcode = 0x41 then do
    let _ ← Reader.s32
  else if opcode = 0x42 then do
    let _ ← Reader.s64
  else if opcode = 0x43 then
    Reader.skip 4
  else if opcode = 0x44 then
    Reader.skip 8
  else
    return ()

/-! ## The scan -/

/-- The state of the scan over a body; the innermost open block comes first. -/
structure Scan where
  pos : Nat
  opened : List OpenBlock
  blocks : BlockMap

/-- What one instruction does to the scan. -/
inductive Scan.Outcome where
  | next (s : Scan)
  | finished (blocks : BlockMap)
  | failed (e : BlockError)

namespace Scan

/-- The state before the first instruction. -/
def start : Scan := ⟨0, [], ∅⟩

/-- Open a block whose opener stands at `start` and whose block type begins at `pos`. -/
def openBlock (body : Array UInt8) (types : Array FuncType) (kind : BlockKind) (pos : Nat)
    (s : Scan) : Outcome :=
  match BlockType.read.runAt body pos with
  | .error e _ => .failed (.read e)
  | .ok none _ => .failed (.invalidBlockType pos)
  | .ok (some type) next =>
    match type.arity? types with
    | none => .failed (.invalidBlockType pos)
    | some arity =>
      .next { s with
        pos := next
        opened := ⟨kind, s.pos, type, arity, next - pos, none⟩ :: s.opened }

/-- Give the innermost open block its `else`; only an `if` without one takes it. -/
def addElse (next : Nat) (s : Scan) : Outcome :=
  match s.opened with
  | b :: outer =>
    if b.kind = .cond ∧ b.elseAt = none then
      .next { s with pos := next, opened := { b with elseAt := some s.pos } :: outer }
    else .failed (.illNested s.pos)
  | [] => .failed (.illNested s.pos)

/-- Close the innermost open block. With none open this is the `end` of the body, and nothing may
follow it. -/
def closeBlock (body : Array UInt8) (next : Nat) (s : Scan) : Outcome :=
  match s.opened with
  | b :: outer =>
    .next { pos := next, opened := outer, blocks := s.blocks.insert b.start ⟨b, s.pos⟩ }
  | [] => if body.size ≤ next then .finished s.blocks else .failed (.illNested s.pos)

/-- Pass over an instruction whose opcode has been read; what follows the opcode begins at
`next`. -/
def pass (body : Array UInt8) (types : Array FuncType) (opcode : UInt8) (next : Nat) (s : Scan) :
    Outcome :=
  match opcode with
  | 0x02 => s.openBlock body types .block next
  | 0x03 => s.openBlock body types .loop next
  | 0x04 => s.openBlock body types .cond next
  | 0x05 => s.addElse next
  | 0x0B => s.closeBlock body next
  | _ =>
    match (skipImmediates opcode).runAt body next with
    | .error e _ => .failed (.read e)
    | .ok _ next => .next { s with pos := next }

/-- Pass over one instruction. -/
def step (body : Array UInt8) (types : Array FuncType) (s : Scan) : Outcome :=
  if body.size ≤ s.pos then .failed (.illNested body.size)
  else
    match Reader.u8.runAt body s.pos with
    | .error e _ => .failed (.read e)
    | .ok opcode next => s.pass body types opcode next

/-- Scan on, for at most `n` instructions. -/
def run (body : Array UInt8) (types : Array FuncType) : (n : Nat) → Scan →
    Except BlockError BlockMap
  | 0, _ => .error (.illNested body.size)
  | n + 1, s =>
    match s.step body types with
    | .next s => run body types n s
    | .finished blocks => .ok blocks
    | .failed e => .error e

end Scan

/-- The blocks of a body, whose block types refer to `types`. An instruction takes at least a byte,
so the scan is over after as many steps as there are bytes, and one. -/
def analyzeBlocks (body : Array UInt8) (types : Array FuncType) : Except BlockError BlockMap :=
  Scan.start.run body types (body.size + 1)

end Wasm
