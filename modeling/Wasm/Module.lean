import Wasm.ConstExpr

/-!
# Wasm.Module

A module: what its sections declare, in the order in which they declare it. Functions, tables,
memories and globals are numbered with the imported ones first, then the module's own.
-/

namespace Wasm

/-- What an import asks for. -/
inductive ImportDesc where
  | func (type : UInt32)
  | table (limits : Limits)
  | memory (limits : Limits)
  | global (type : GlobalType)
  deriving DecidableEq, Repr

def ImportDesc.kind : ImportDesc → ExternKind
  | .func _ => .func
  | .table _ => .table
  | .memory _ => .memory
  | .global _ => .global

/-- The type index that a function import gives. -/
def ImportDesc.func? : ImportDesc → Option UInt32
  | .func type => some type
  | _ => none

/-- Something to be found under a name of another module. -/
structure Import where
  module : String
  name : String
  desc : ImportDesc
  deriving DecidableEq, Repr

/-- How many things of each kind are imported. -/
structure ImportCounts where
  funcs : Nat := 0
  tables : Nat := 0
  memories : Nat := 0
  globals : Nat := 0
  deriving DecidableEq, Repr

namespace ImportCounts

/-- Count one more import of a kind. -/
def add (c : ImportCounts) : ExternKind → ImportCounts
  | .func => { c with funcs := c.funcs + 1 }
  | .table => { c with tables := c.tables + 1 }
  | .memory => { c with memories := c.memories + 1 }
  | .global => { c with globals := c.globals + 1 }

/-- Count more imports. -/
def addAll (c : ImportCounts) (imports : Array Import) : ImportCounts :=
  imports.foldl (fun c i => c.add i.desc.kind) c

end ImportCounts

/-- A thing of this module, by kind and index, under a name. -/
structure Export where
  name : String
  kind : ExternKind
  index : UInt32
  deriving DecidableEq, Repr

/-- A number of locals of one type. -/
structure LocalDecl where
  count : UInt32
  type : ValType
  deriving DecidableEq, Repr

/-- The locals and the instructions of a function; the instructions end with their own `end`. -/
structure CodeBody where
  locals : Array LocalDecl
  body : Array UInt8
  deriving DecidableEq, Repr

/-- The number of declared locals, without the parameters. -/
def CodeBody.localCount (c : CodeBody) : Nat :=
  c.locals.foldl (fun n decl => n + decl.count.toNat) 0

/-- A global with its initial value. -/
structure GlobalDef where
  type : GlobalType
  init : ConstExpr
  deriving DecidableEq, Repr

/-- Function indices to be put into a table from an offset on. -/
structure ElementSegment where
  table : UInt32
  offset : ConstExpr
  funcs : Array UInt32
  deriving DecidableEq, Repr

/-- Bytes to be put into a memory from an offset on. -/
structure DataSegment where
  memory : UInt32
  offset : ConstExpr
  bytes : Array UInt8
  deriving DecidableEq, Repr

/-- A module. The function section gives a type index per function of the module's own, the code
section its body. The imports are counted by kind as they are read. -/
structure Module where
  types : Array FuncType := #[]
  imports : Array Import := #[]
  funcs : Array UInt32 := #[]
  tables : Array Limits := #[]
  memories : Array Limits := #[]
  globals : Array GlobalDef := #[]
  exports : Array Export := #[]
  start : Option UInt32 := none
  elements : Array ElementSegment := #[]
  codes : Array CodeBody := #[]
  data : Array DataSegment := #[]
  imported : ImportCounts := ImportCounts.addAll {} imports
  deriving DecidableEq, Repr

namespace Module

/-- The number of functions, imported ones included. -/
def totalFuncs (m : Module) : Nat :=
  m.imported.funcs + m.funcs.size

/-- The number of tables, imported ones included. -/
def totalTables (m : Module) : Nat :=
  m.imported.tables + m.tables.size

/-- The number of memories, imported ones included. -/
def totalMemories (m : Module) : Nat :=
  m.imported.memories + m.memories.size

/-- The number of globals, imported ones included. -/
def totalGlobals (m : Module) : Nat :=
  m.imported.globals + m.globals.size

/-- The type indices of the imported functions. -/
def importedFuncs (m : Module) : Array UInt32 :=
  m.imports.filterMap (·.desc.func?)

/-- The type of a function, by its index. -/
def funcType? (m : Module) (index : Nat) : Option FuncType := do
  let imported := m.imported.funcs
  let type ← if index < imported then m.importedFuncs[index]? else m.funcs[index - imported]?
  m.types[type.toNat]?

/-- The first export of a name. -/
def export? (m : Module) (name : String) : Option Export :=
  m.exports.find? (·.name = name)

end Module

end Wasm
