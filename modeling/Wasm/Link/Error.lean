import Wasm.Block
import Wasm.Trap

/-!
# Wasm.Link.Error

The reasons why a module cannot be linked.
-/

namespace Wasm

/-- The numberings that indices refer to. -/
inductive IndexKind where
  | type
  | code
  | function
  | table
  | memory
  | global
  deriving DecidableEq, Repr

def IndexKind.text : IndexKind → String
  | .type => "type"
  | .code => "code"
  | .function => "function"
  | .table => "table"
  | .memory => "memory"
  | .global => "global"

/-- The kinds of segments. -/
inductive SegmentKind where
  | element
  | data
  deriving DecidableEq, Repr

def SegmentKind.text : SegmentKind → String
  | .element => "element segment"
  | .data => "data segment"

/-- What asks for a size. -/
inductive SizeDemand where
  | memoryMinimum
  | tableMinimum
  | segment (kind : SegmentKind)
  deriving DecidableEq, Repr

def SizeDemand.text : SizeDemand → String
  | .memoryMinimum => "memory minimum"
  | .tableMinimum => "table minimum"
  | .segment kind => kind.text

/-- What the size counts. -/
def SizeDemand.unit : SizeDemand → String
  | .memoryMinimum => "pages"
  | .tableMinimum => "elements"
  | .segment .element => "elements"
  | .segment .data => "bytes"

/-- Where a global meets a value of another type. -/
inductive GlobalContext where
  | initializer
  | importing
  deriving DecidableEq, Repr

def GlobalContext.text : GlobalContext → String
  | .initializer => "global initializer"
  | .importing => "global import"

/-- Why a module cannot be linked, or a name not be defined. -/
inductive LinkError where
  | unresolvedModule (module : String)
  | unresolvedExport (module name : String)
  | kindMismatch (module name : String) (expected found : ExternKind)
  | signatureMismatch (module name : String) (expected found : FuncType)
  | mutableGlobalImport (module name : String)
  | indexOutOfRange (space : IndexKind) (index : UInt32) (length : Nat)
  | offsetNotI32 (segment : SegmentKind) (found : ValType)
  | sizeExceedsMaximum (demand : SizeDemand) (required maximum : Nat)
  | multipleTables (count : Nat)
  | multipleMemories (count : Nat)
  | typeMismatch (context : GlobalContext) (expected found : ValType)
  | illNestedBlock (func : Nat) (cause : BlockError)
  | startFunction (cause : Trap)
  | duplicateDefinition (module name : String)
  | read (e : ReadError)
  deriving DecidableEq, Repr

def LinkError.message : LinkError → String
  | .unresolvedModule module => s!"unresolved import module {Text.quote module}"
  | .unresolvedExport module name =>
    s!"module {Text.quote module} has no export named {Text.quote name}"
  | .kindMismatch module name expected found =>
    s!"import {module}.{name}: expected {expected.text}, found {found.text}"
  | .signatureMismatch module name expected found =>
    s!"import {module}.{name}: signature mismatch, expected {expected.text}, found {found.text}"
  | .mutableGlobalImport module name =>
    s!"import {module}.{name}: mutable globals cannot be imported"
  | .indexOutOfRange space index length =>
    s!"{space.text} index {index} out of range (len {length})"
  | .offsetNotI32 segment found => s!"{segment.text} offset must be i32, found {found.text}"
  | .sizeExceedsMaximum demand required maximum =>
    s!"{demand.text} needs {required} {demand.unit} but maximum is {maximum}"
  | .multipleTables count => s!"at most one table is allowed, found {count}"
  | .multipleMemories count => s!"at most one memory is allowed, found {count}"
  | .typeMismatch context expected found =>
    s!"type mismatch ({context.text}): expected {expected.text}, found {found.text}"
  | .illNestedBlock func _ => s!"function {func}: ill-nested block"
  | .startFunction _ => "start function failed"
  | .duplicateDefinition module name => s!"{module}.{name} is already defined"
  | .read e => e.message

end Wasm
