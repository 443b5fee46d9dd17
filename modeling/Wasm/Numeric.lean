import Wasm.Numeric.Conversion
import Wasm.Numeric.Integer

/-!
# Wasm.Numeric

The numeric instructions: those that replace one or two operands by one result. `NumericOp.all`
lists them in the order of their opcodes.
-/

namespace Wasm

/-- Instructions that replace one operand. -/
inductive UnaryOp where
  | eqz (w : Width)
  | int (w : Width) (op : IntUnary)
  | float (w : Width) (op : FloatUnary)
  | conversion (op : Conversion)
  deriving DecidableEq, Repr

def UnaryOp.eval : UnaryOp → UInt64 → Except Trap UInt64
  | .eqz w, a => .ok (boolCell (w.ofCell a = 0))
  | .int w op, a => .ok (w.toCell (op.eval (w.ofCell a)))
  | .float w op, a => .ok (op.eval w a)
  | .conversion op, a => op.eval a

/-- Instructions that replace two operands. -/
inductive BinaryOp where
  | intRel (w : Width) (op : IntRel)
  | int (w : Width) (op : IntBinary)
  | floatRel (w : Width) (op : FloatRel)
  | float (w : Width) (op : FloatBinary)
  deriving DecidableEq, Repr

def BinaryOp.eval : BinaryOp → UInt64 → UInt64 → Except Trap UInt64
  | .intRel w op, a, b => .ok (boolCell (op.eval (w.ofCell a) (w.ofCell b)))
  | .int w op, a, b => return w.toCell (← op.eval (w.ofCell a) (w.ofCell b))
  | .floatRel w op, a, b => .ok (boolCell (op.eval w a b))
  | .float w op, a, b => .ok (op.eval w a b)

/-- Numeric instructions. -/
inductive NumericOp where
  | unary (op : UnaryOp)
  | binary (op : BinaryOp)
  deriving DecidableEq, Repr

namespace NumericOp

/-- The tests and comparisons of integers of a width. -/
def intTests (w : Width) : List NumericOp :=
  .unary (.eqz w) ::
    [IntRel.eq, .ne, .ltS, .ltU, .gtS, .gtU, .leS, .leU, .geS, .geU].map (.binary <| .intRel w ·)

/-- The comparisons of floats of a width. -/
def floatTests (w : Width) : List NumericOp :=
  [FloatRel.eq, .ne, .lt, .gt, .le, .ge].map (.binary <| .floatRel w ·)

/-- The operations on integers of a width. -/
def intOps (w : Width) : List NumericOp :=
  [IntUnary.clz, .ctz, .popcnt].map (.unary <| .int w ·) ++
    [IntBinary.add, .sub, .mul, .divS, .divU, .remS, .remU, .and, .or, .xor, .shl, .shrS, .shrU,
      .rotl, .rotr].map (.binary <| .int w ·)

/-- The operations on floats of a width. -/
def floatOps (w : Width) : List NumericOp :=
  [FloatUnary.abs, .neg, .ceil, .floor, .trunc, .nearest, .sqrt].map (.unary <| .float w ·) ++
    [FloatBinary.add, .sub, .mul, .div, .min, .max, .copysign].map (.binary <| .float w ·)

/-- The truncations of floats to integers of a width. -/
def truncations (target : Width) : List Conversion :=
  [.truncate .w32 target true, .truncate .w32 target false, .truncate .w64 target true,
    .truncate .w64 target false]

/-- The conversions of integers to floats of a width. -/
def integerConversions (target : Width) : List Conversion :=
  [.convert .w32 target true, .convert .w32 target false, .convert .w64 target true,
    .convert .w64 target false]

/-- All conversions. -/
def conversions : List Conversion :=
  .wrap :: truncations .w32 ++ .extend true :: .extend false :: truncations .w64 ++
    integerConversions .w32 ++ .demote :: integerConversions .w64 ++
    [.promote, .reinterpret .f32, .reinterpret .f64, .reinterpret .i32, .reinterpret .i64]

/-- The opcode of the first numeric instruction. -/
def firstOpcode : UInt8 := 0x45

/-- The numeric instructions in the order of their opcodes. -/
def all : Array NumericOp :=
  (intTests .w32 ++ intTests .w64 ++ floatTests .w32 ++ floatTests .w64 ++ intOps .w32 ++
    intOps .w64 ++ floatOps .w32 ++ floatOps .w64 ++
    conversions.map fun op => NumericOp.unary (.conversion op)).toArray

/-- The numeric instruction of an opcode. -/
def ofByte? (b : UInt8) : Option NumericOp :=
  if b < firstOpcode then none else all[b.toNat - firstOpcode.toNat]?

end NumericOp

end Wasm
