/-!
# Wasm.Types

The types of WebAssembly: of values, functions, tables, memories and globals, with their spelling
in messages.
-/

namespace Wasm

/-- The type of a value. -/
inductive ValType where
  | i32
  | i64
  | f32
  | f64
  deriving DecidableEq, Repr, Inhabited

namespace ValType

/-- The byte that stands for a value type. -/
def byte : ValType → UInt8
  | .i32 => 0x7F
  | .i64 => 0x7E
  | .f32 => 0x7D
  | .f64 => 0x7C

/-- The value type that a byte stands for. -/
def ofByte? (b : UInt8) : Option ValType :=
  if b = 0x7F then some .i32
  else if b = 0x7E then some .i64
  else if b = 0x7D then some .f32
  else if b = 0x7C then some .f64
  else none

@[simp]
theorem ofByte?_byte (t : ValType) : ofByte? t.byte = some t := by
  cases t <;> rfl

def isFloat : ValType → Bool
  | .i32 | .i64 => false
  | .f32 | .f64 => true

def text : ValType → String
  | .i32 => "i32"
  | .i64 => "i64"
  | .f32 => "f32"
  | .f64 => "f64"

/-- The name of a value type where a message lists the types that were found. -/
def title : ValType → String
  | .i32 => "I32"
  | .i64 => "I64"
  | .f32 => "F32"
  | .f64 => "F64"

/-- Found types, as messages list them. -/
def listing (types : List ValType) : String :=
  "[" ++ ", ".intercalate (types.map title) ++ "]"

end ValType

/-- What a function takes and yields. -/
structure FuncType where
  params : List ValType
  results : List ValType
  deriving DecidableEq, Repr, Inhabited

namespace FuncType

/-- Types between brackets, with blanks between them. -/
def bracketed (types : List ValType) : String :=
  "[" ++ " ".intercalate (types.map ValType.text) ++ "]"

/-- A function type as messages show it, such as `[i32 f64] -> [i64]`. -/
def text (t : FuncType) : String :=
  bracketed t.params ++ " -> " ++ bracketed t.results

/-- A function type field by field. -/
def fields (t : FuncType) : String :=
  s!"FuncType \x7b params: {ValType.listing t.params}, results: {ValType.listing t.results} \x7d"

end FuncType

/-- Bounds on a size: elements of a table, pages of a memory. -/
structure Limits where
  min : UInt32
  max : Option UInt32
  deriving DecidableEq, Repr, Inhabited

/-- The type of a global, and whether instructions may set it. -/
structure GlobalType where
  valType : ValType
  mutable : Bool
  deriving DecidableEq, Repr, Inhabited

/-- The four kinds of things that a module imports and exports. -/
inductive ExternKind where
  | func
  | table
  | memory
  | global
  deriving DecidableEq, Repr

namespace ExternKind

def text : ExternKind → String
  | .func => "func"
  | .table => "table"
  | .memory => "memory"
  | .global => "global"

/-- The byte that stands for a kind. -/
def byte : ExternKind → UInt8
  | .func => 0
  | .table => 1
  | .memory => 2
  | .global => 3

/-- The kind that a byte stands for. -/
def ofByte? (b : UInt8) : Option ExternKind :=
  if b = 0 then some .func
  else if b = 1 then some .table
  else if b = 2 then some .memory
  else if b = 3 then some .global
  else none

@[simp]
theorem ofByte?_byte (k : ExternKind) : ofByte? k.byte = some k := by
  cases k <;> rfl

end ExternKind

end Wasm
