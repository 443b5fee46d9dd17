import Wasm.Leb128

/-!
# Wasm.Module.Section

The sections of a binary module. Each one is introduced by its identifier and the size of its
payload.
-/

namespace Wasm

/-- The kinds of sections, in the order in which a module has them. Custom sections may stand
anywhere. -/
inductive SectionId where
  | custom
  | types
  | imports
  | functions
  | tables
  | memories
  | globals
  | exports
  | start
  | elements
  | codes
  | data
  deriving DecidableEq, Repr

namespace SectionId

def byte : SectionId → UInt8
  | .custom => 0
  | .types => 1
  | .imports => 2
  | .functions => 3
  | .tables => 4
  | .memories => 5
  | .globals => 6
  | .exports => 7
  | .start => 8
  | .elements => 9
  | .codes => 10
  | .data => 11

def ofByte? (b : UInt8) : Option SectionId :=
  [.custom, .types, .imports, .functions, .tables, .memories, .globals, .exports, .start, .elements,
    .codes, .data].find? (·.byte = b)

@[simp]
theorem ofByte?_byte (id : SectionId) : ofByte? id.byte = some id := by
  cases id <;> rfl

def title : SectionId → String
  | .custom => "Custom"
  | .types => "Type"
  | .imports => "Import"
  | .functions => "Function"
  | .tables => "Table"
  | .memories => "Memory"
  | .globals => "Global"
  | .exports => "Export"
  | .start => "Start"
  | .elements => "Element"
  | .codes => "Code"
  | .data => "Data"

end SectionId

/-- What introduces a section, and where its payload begins. -/
structure SectionHeader where
  id : SectionId
  size : UInt32
  payload : Nat
  deriving DecidableEq, Repr

/-- Where the payload ends. -/
def SectionHeader.stop (h : SectionHeader) : Nat :=
  h.payload + h.size.toNat

/-- Read a section's identifier and size. -/
def SectionHeader.read {m : Type → Type} [Monad m] [MonadLiftT Reader m] [Decoder m] :
    m SectionHeader := do
  let start ← Reader.offset
  let some id := SectionId.ofByte? (← Reader.u8)
    | Reader.fail (.malformed start .unknownSection)
  let size ← Reader.u32
  return ⟨id, size, ← Reader.offset⟩

end Wasm
