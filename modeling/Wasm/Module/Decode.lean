import Wasm.Module.Read
import Wasm.Module.Section

/-!
# Wasm.Module.Decode

Decoding a binary module: a header, then sections up to the end of the bytes. Sections other than
custom ones come in ascending order and at most once; a section's payload is read with the bytes
cut off at its end, and must be used up exactly.
-/

namespace Wasm

/-- Why bytes are not a module. -/
inductive DecodeError where
  | read (e : ReadError)
  | source
  | duplicateExport (name : String)
  | functionCodeMismatch (functions codes : Nat)
  deriving DecidableEq, Repr

def DecodeError.message : DecodeError → String
  | .read e => e.message
  | .source => "failed to read module bytes"
  | .duplicateExport name => s!"duplicate export name {Text.quote name}"
  | .functionCodeMismatch functions codes =>
    s!"function section declares {functions} functions but code section has {codes} bodies"

namespace Module

variable {μ : Type → Type} [Monad μ] [MonadLiftT Reader μ] [Decoder μ]

/-- The four bytes that begin every module, as a little-endian number. -/
def magic : UInt32 := 0x6D736100

/-- The version of the format. -/
def version : UInt32 := 1

/-- Read the header of a module. -/
def readHeader : Reader Unit := do
  if (← Reader.u32le) ≠ magic then
    Reader.fail (.malformed 0 .badMagic)
  else if (← Reader.u32le) ≠ version then
    Reader.fail (.malformed 4 .unsupportedVersion)

/-- A vector of at most one item; more are blamed on the place `start`. -/
def atMostOne (item : μ α) (start : Nat) (what : Malformation) : μ (Array α) := do
  let items ← Reader.vec item
  if 1 < items.size then
    Reader.fail (.malformed start what)
  else
    return items

/-- Read the payload of a section into a module. A custom section has a name and then any bytes,
and adds nothing. Imports are counted once they are read. -/
def readPayload (options : ReadOptions) (m : Module) : SectionId → μ Module
  | .custom => do
    let _ ← Reader.name
    Reader.seek (← Reader.size)
    return m
  | .types => return { m with types := ← Reader.vec (FuncType.read options) }
  | .imports => do
    let imports ← Reader.vec (Import.read options)
    return { m with imports, imported := m.imported.addAll imports }
  | .functions => return { m with funcs := ← Reader.vec Reader.u32 }
  | .tables => do
    let start ← Reader.offset
    return { m with tables := ← atMostOne Limits.readTable start .multipleTables }
  | .memories => do
    let start ← Reader.offset
    return { m with memories := ← atMostOne Limits.read start .multipleMemories }
  | .globals => return { m with globals := ← Reader.vec (GlobalDef.read options) }
  | .exports => return { m with exports := ← Reader.vec Export.read }
  | .start => return { m with start := some (← Reader.u32) }
  | .elements => return { m with elements := ← Reader.vec (ElementSegment.read options) }
  | .codes => return { m with codes := ← Reader.vec (CodeBody.read options) }
  | .data => return { m with data := ← Reader.vec (DataSegment.read options) }

/-- Read a payload that starts here and must end exactly at `stop`. -/
def readWhole (options : ReadOptions) (m : Module) (id : SectionId) (stop : Nat) :
    μ Module := do
  let m ← Decoder.within stop (readPayload options m id)
  let pos ← Reader.offset
  if pos ≠ stop then
    Reader.fail (.malformed pos .sectionSize)
  else
    return m

/-- Read one section into a module. `last` is the greatest identifier so far. -/
def readSection (options : ReadOptions) (last : UInt8) (m : Module) : μ (UInt8 × Module) := do
  let header ← SectionHeader.read
  Reader.skip header.size.toNat
  Reader.seek header.payload
  if header.id = .custom then
    return (last, ← readWhole options m header.id header.stop)
  else if header.id.byte ≤ last then
    Reader.fail (.malformed header.payload .sectionOrder)
  else
    return (header.id.byte, ← readWhole options m header.id header.stop)

/-- Read sections up to the end of the bytes, but no more than `n`. -/
def readSections (options : ReadOptions) : (n : Nat) → (last : UInt8) → Module → μ Module
  | 0, _, m => do
    Decoder.finished
    return m
  | n + 1, last, m => do
    if ← Reader.atEnd then
      return m
    else
      let (last, m) ← readSection options last m
      readSections options n last m

/-- Read a header and all sections. A section takes at least a byte, so the number of bytes that are
left bounds the number of sections. -/
def read (options : ReadOptions) : μ Module := do
  readHeader
  readSections options (← Reader.remaining) 0 {}

/-- The first item that occurs again, given those seen before. -/
def firstRepeated? [DecidableEq α] (seen : List α) : List α → Option α
  | [] => none
  | x :: xs => if x ∈ seen then some x else firstRepeated? (x :: seen) xs

/-- What is asked of a module beyond its sections: as many function bodies as declared functions,
and no two exports of one name. -/
def accept (m : Module) : Except DecodeError Module :=
  if m.funcs.size ≠ m.codes.size then
    .error (.functionCodeMismatch m.funcs.size m.codes.size)
  else
    match firstRepeated? [] (m.exports.toList.map (·.name)) with
    | some name => .error (.duplicateExport name)
    | none => .ok m

/-- Decode a binary module. -/
def decode (bytes : Array UInt8) (options : ReadOptions := {}) : Except DecodeError Module :=
  match Reader.parse (read options) bytes with
  | .error e => .error (.read e)
  | .ok m => m.accept

end Module

end Wasm
