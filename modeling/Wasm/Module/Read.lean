import Wasm.Module
import Wasm.Reader.Compound

/-!
# Wasm.Module.Read

Readers for the entries of a module's sections. `ReadOptions` may rule out floating point; then
every value type and every constant is checked as it is read.
-/

namespace Wasm

variable {m : Type → Type} [Monad m] [MonadLiftT Reader m] [Decoder m]

/-- What a module may use. -/
structure ReadOptions where
  floats : Bool := true
  deriving DecidableEq, Repr

/-- Read a value type. -/
def ValType.read (options : ReadOptions) : m ValType := do
  let start ← Reader.offset
  let b ← Reader.u8
  let some type := ValType.ofByte? b | Reader.fail (.invalidTypeByte b start .value)
  if type.isFloat && !options.floats then
    Reader.fail (.invalidTypeByte b start .integerValue)
  else
    return type

/-- Read a constant expression that the options allow. -/
def ConstExpr.readAllowed (options : ReadOptions) : m ConstExpr := do
  let start ← Reader.offset
  let e ← Decoder.tally ConstExpr.byteCount ConstExpr.read
  if e.op.isFloat && !options.floats then
    Reader.fail (.invalidConstOpcode e.op.byte start)
  else
    return e

/-- Read a function type: its form byte, its parameters and its results. -/
def FuncType.read (options : ReadOptions) : m FuncType := do
  let start ← Reader.offset
  let form ← Reader.u8
  if form ≠ 0x60 then
    Reader.fail (.invalidTypeByte form start .function)
  else
    let params ← Reader.vec (ValType.read options)
    let results ← Reader.vec (ValType.read options)
    return ⟨params.toList, results.toList⟩

/-- Read limits: a flag that says whether there is a maximum, then the bounds. -/
def Limits.read : m Limits := do
  let start ← Reader.offset
  let flag ← Reader.u8
  if flag = 0 then
    return ⟨← Reader.u32, none⟩
  else if flag = 1 then
    let min ← Reader.u32
    let max ← Reader.u32
    if max < min then
      Reader.fail (.malformed start .limitsOrder)
    else
      return ⟨min, some max⟩
  else
    Reader.fail (.malformed start .limitsFlag)

/-- Read the type of a table: tables hold function references. -/
def Limits.readTable : m Limits := do
  let start ← Reader.offset
  let element ← Reader.u8
  if element ≠ 0x70 then
    Reader.fail (.invalidTypeByte element start .funcref)
  else
    Limits.read

/-- Read the type of a global. -/
def GlobalType.read (options : ReadOptions) : m GlobalType := do
  let type ← ValType.read options
  let start ← Reader.offset
  let flag ← Reader.u8
  if flag = 0 then
    return ⟨type, false⟩
  else if flag = 1 then
    return ⟨type, true⟩
  else
    Reader.fail (.malformed start .globalMutability)

/-- Read what an import of a kind asks for. -/
def ImportDesc.read (options : ReadOptions) : ExternKind → m ImportDesc
  | .func => return .func (← Reader.u32)
  | .table => return .table (← Limits.readTable)
  | .memory => return .memory (← Limits.read)
  | .global => return .global (← GlobalType.read options)

/-- Read an import. -/
def Import.read (options : ReadOptions) : m Import := do
  let module ← Reader.name
  let name ← Reader.name
  let start ← Reader.offset
  let some kind := ExternKind.ofByte? (← Reader.u8) | Reader.fail (.malformed start .importKind)
  return ⟨module, name, ← ImportDesc.read options kind⟩

/-- Read an export. Its index is read before its kind is checked. -/
def Export.read : m Export := do
  let name ← Reader.name
  let start ← Reader.offset
  let kind ← Reader.u8
  let index ← Reader.u32
  let some kind := ExternKind.ofByte? kind | Reader.fail (.malformed start .exportKind)
  return ⟨name, kind, index⟩

/-- Read a global with its initializer. -/
def GlobalDef.read (options : ReadOptions) : m GlobalDef := do
  let type ← GlobalType.read options
  return ⟨type, ← ConstExpr.readAllowed options⟩

/-- Read an element segment. -/
def ElementSegment.read (options : ReadOptions) : m ElementSegment := do
  let table ← Reader.u32
  let offset ← ConstExpr.readAllowed options
  return ⟨table, offset, ← Reader.vec Reader.u32⟩

/-- Read a data segment. -/
def DataSegment.read (options : ReadOptions) : m DataSegment := do
  let memory ← Reader.u32
  let offset ← ConstExpr.readAllowed options
  return ⟨memory, offset, ← Reader.lengthPrefixed⟩

/-- Read a declaration of locals. `total` locals have been declared before it; all together may not
exceed 32 bits. -/
def LocalDecl.read (options : ReadOptions) (total : Nat) : m LocalDecl := do
  let start ← Reader.offset
  let count ← Reader.u32
  if UInt32.size ≤ total + count.toNat then
    Reader.fail (.malformed start .tooManyLocals)
  else
    return ⟨count, ← ValType.read options⟩

/-- Read `n` declarations of locals, after those already read, which declare `total` of them. -/
def LocalDecl.readGroups (options : ReadOptions) :
    (n total : Nat) → Array LocalDecl → m (Array LocalDecl)
  | 0, _, decls => return decls
  | n + 1, total, decls => do
    let decl ← Decoder.item (decls.size + 1) (LocalDecl.read options total)
    readGroups options n (total + decl.count.toNat) (decls.push decl)

/-- Read a function body: its size, its locals, and as instructions what is left of its size. -/
def CodeBody.read (options : ReadOptions) : m CodeBody := do
  let size ← Reader.u32
  let start ← Reader.offset
  let stop := start + size.toNat
  Reader.skip size.toNat
  Reader.seek start
  let locals ← Decoder.vector do LocalDecl.readGroups options (← Reader.u32).toNat 0 #[]
  let pos ← Reader.offset
  if stop < pos then
    Reader.fail (.malformed start .localsOverrun)
  else
    let length ← Decoder.subtract stop pos
    return ⟨locals, ← Decoder.tally Array.size (Reader.bytes length)⟩

end Wasm
