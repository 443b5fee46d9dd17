import Wasm.ConstExpr.Eval
import Wasm.IndexSpace
import Wasm.Module

/-!
# Wasm.Link

Linking a module: its imports are looked up by module and name, its own things are added, and its
segments are put into the table and the memory. The first fault ends the linking, and nothing
comes of it.
-/

namespace Wasm

/-- What imports are looked up in: names of modules, and in each of them names of things. -/
abbrev Imports := NameMap (NameMap Extern)

namespace Link

/-! ## Imports -/

/-- The things that imports were resolved to, in the order of the imports. -/
structure Resolved where
  funcs : Array Func := #[]
  tables : Array Table := #[]
  memories : Array Memory := #[]
  globals : Array Global := #[]

/-- Look up an import. An import of a mutable global is refused before that. -/
def lookup (imports : Imports) (i : Import) : Except LinkError Extern :=
  let refused := match i.desc with
    | .global type => type.mutable
    | _ => false
  if refused then .error (.mutableGlobalImport i.module i.name)
  else
    match imports.get? i.module with
    | none => .error (.unresolvedModule i.module)
    | some names =>
      match names.get? i.name with
      | none => .error (.unresolvedExport i.module i.name)
      | some ext => .ok ext

/-- Check what an import was resolved to, and take it. Functions must have the type asked for, and
globals its value type; tables and memories are taken with their own limits. -/
def accept (types : Array FuncType) (i : Import) (ext : Extern) (r : Resolved) :
    Except LinkError Resolved :=
  match i.desc, ext with
  | .func index, .func f =>
    match types[index.toNat]? with
    | none => .error (.indexOutOfRange .type index types.size)
    | some expected =>
      if f.type = expected then .ok { r with funcs := r.funcs.push f }
      else .error (.signatureMismatch i.module i.name expected f.type)
  | .table _, .table t => .ok { r with tables := r.tables.push t }
  | .memory _, .memory m => .ok { r with memories := r.memories.push m }
  | .global type, .global g =>
    if g.type.mutable then .error (.mutableGlobalImport i.module i.name)
    else if g.type.valType = type.valType then
      .ok { r with globals := r.globals.push (.ofValue type g.value) }
    else .error (.typeMismatch .importing type.valType g.type.valType)
  | desc, ext => .error (.kindMismatch i.module i.name desc.kind ext.kind)

/-- Resolve imports one after the other. -/
def resolve (imports : Imports) (types : Array FuncType) :
    List Import → Resolved → Except LinkError Resolved
  | [], r => .ok r
  | i :: rest, r => do
    let ext ← lookup imports i
    resolve imports types rest (← accept types i ext r)

/-! ## Own things -/

/-- Initialize globals one after the other; each may use those before it. -/
def initGlobals : List GlobalDef → Array Global → Except LinkError (Array Global)
  | [], globals => .ok globals
  | d :: rest, globals => do
    let v ← d.init.evaluate globals
    if v.type = d.type.valType then
      initGlobals rest (globals.push (.ofValue d.type v))
    else
      throw (.typeMismatch .initializer d.type.valType v.type)

/-- The function of a type index and a body, the `index`-th of the instance. -/
def defineFunc (m : Module) (index : Nat) (type : UInt32) (position : Nat) :
    Except LinkError Code :=
  match m.types[type.toNat]? with
  | none => .error (.indexOutOfRange .type type m.types.size)
  | some funcType =>
    match m.codes[position]? with
    | none => .error (.indexOutOfRange .code (.ofNat position) m.codes.size)
    | some code =>
      match analyzeBlocks code.body m.types with
      | .error e => .error (.illNestedBlock index e)
      | .ok blocks => .ok ⟨funcType, code.body, code.localCount, m.types, blocks⟩

/-- Define functions one after the other; `position` counts them. -/
def defineFuncs (m : Module) : (position : Nat) → List UInt32 → Array Func →
    Except LinkError (Array Func)
  | _, [], funcs => .ok funcs
  | position, type :: rest, funcs => do
    let code ← defineFunc m funcs.size type position
    defineFuncs m (position + 1) rest (funcs.push (.code code))

/-! ## Segments -/

/-- The offset of a segment: a 32-bit integer, taken as unsigned. -/
def segmentOffset (kind : SegmentKind) (offset : ConstExpr) (globals : Array Global) :
    Except LinkError UInt32 := do
  match ← offset.evaluate globals with
  | .i32 bits => return bits
  | v => throw (.offsetNotI32 kind v.type)

/-- Put element segments into the table one after the other. -/
def initTable (funcCount : Nat) (globals : Array Global) :
    List ElementSegment → Option Table → Except LinkError (Option Table)
  | [], table => .ok table
  | seg :: rest, table => do
    let offset ← segmentOffset .element seg.offset globals
    match seg.funcs.find? (funcCount ≤ ·.toNat) with
    | some f => throw (.indexOutOfRange .function f funcCount)
    | none =>
      match table.toList[seg.table.toNat]? with
      | none => throw (.indexOutOfRange .table seg.table table.toList.length)
      | some t => initTable funcCount globals rest (some (← t.writeSegment offset seg.funcs.toList))

/-- Put data segments into the memory one after the other. -/
def initMemory (globals : Array Global) :
    List DataSegment → Option Memory → Except LinkError (Option Memory)
  | [], memory => .ok memory
  | seg :: rest, memory => do
    let offset ← segmentOffset .data seg.offset globals
    match memory.toList[seg.memory.toNat]? with
    | none => throw (.indexOutOfRange .memory seg.memory memory.toList.length)
    | some m => initMemory globals rest (some (← m.writeSegment offset seg.bytes.toList))

end Link

/-- Link a module against imports. Its own table and memory start empty, take their segments, and
are then extended to their minimum. -/
def Module.link (m : Module) (imports : Imports) : Except LinkError IndexSpace := do
  let r ← Link.resolve imports m.types m.imports.toList {}
  let tables := r.tables ++ m.tables.map .empty
  let memories := r.memories ++ m.memories.map .empty
  if 1 < tables.size then
    throw (.multipleTables tables.size)
  else if 1 < memories.size then
    throw (.multipleMemories memories.size)
  else
    let globals ← Link.initGlobals m.globals.toList r.globals
    let funcs ← Link.defineFuncs m 0 m.funcs.toList r.funcs
    let table ← Link.initTable funcs.size globals m.elements.toList tables[0]?
    let memory ← Link.initMemory globals m.data.toList memories[0]?
    let memory ← memory.mapM Memory.ensureMin
    let table ← table.mapM Table.ensureMin
    return ⟨funcs, table, memory, globals⟩

end Wasm
