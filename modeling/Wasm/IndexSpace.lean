import Wasm.Func
import Wasm.NameMap
import Wasm.Table

/-!
# Wasm.IndexSpace

What the indices of an instance refer to: its functions, globals, and at most one table and one
memory, imported ones first.
-/

namespace Wasm

/-- The functions, globals, table and memory of an instance. -/
structure IndexSpace where
  funcs : Array Func
  table : Option Table
  memory : Option Memory
  globals : Array Global

/-- Something that can be imported. -/
inductive Extern where
  | func (f : Func)
  | table (t : Table)
  | memory (m : Memory)
  | global (g : Global)

def Extern.kind : Extern → ExternKind
  | .func _ => .func
  | .table _ => .table
  | .memory _ => .memory
  | .global _ => .global

namespace IndexSpace

/-- How many things of a kind there are. -/
def count (s : IndexSpace) : ExternKind → Nat
  | .func => s.funcs.size
  | .table => s.table.toList.length
  | .memory => s.memory.toList.length
  | .global => s.globals.size

/-- The thing of a kind at an index. -/
def get? (s : IndexSpace) (kind : ExternKind) (index : Nat) : Option Extern :=
  match kind with
  | .func => (s.funcs[index]?).map .func
  | .table => (s.table.toList[index]?).map .table
  | .memory => (s.memory.toList[index]?).map .memory
  | .global => (s.globals[index]?).map .global

/-- Change the memory, if there is one. -/
def mapMemory (f : Memory → Memory) (s : IndexSpace) : IndexSpace :=
  match s with
  | ⟨funcs, table, some memory, globals⟩ => ⟨funcs, table, some (f memory), globals⟩
  | ⟨funcs, table, none, globals⟩ => ⟨funcs, table, none, globals⟩

/-- Put a cell into a global. -/
def setGlobal (index : Nat) (c : UInt64) (s : IndexSpace) : IndexSpace :=
  { s with globals := s.globals.modify index fun g => { g with cell := c } }

/-- What a host function sees. -/
def hostContext (s : IndexSpace) : HostContext := ⟨s.memory, s.globals⟩

end IndexSpace

end Wasm
