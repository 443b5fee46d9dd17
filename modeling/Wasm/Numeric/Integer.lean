import Wasm.Trap

/-!
# Wasm.Numeric.Integer

Integer instructions, for integers of any width. Arithmetic is modulo the width; an operation
whose name ends in `S` reads its operands in two's complement, one whose name ends in `U` reads
them as unsigned.
-/

namespace Wasm

/-- Counts over the bits of an integer. -/
inductive IntUnary where
  | clz
  | ctz
  | popcnt
  deriving DecidableEq, Repr

def IntUnary.eval : IntUnary → BitVec n → BitVec n
  | .clz, a => a.clz
  | .ctz, a => a.ctz
  | .popcnt, a => a.cpop

/-- Arithmetic, bitwise operations, shifts and rotations. -/
inductive IntBinary where
  | add
  | sub
  | mul
  | divS
  | divU
  | remS
  | remU
  | and
  | or
  | xor
  | shl
  | shrS
  | shrU
  | rotl
  | rotr
  deriving DecidableEq, Repr

/-- Division rounds toward zero and a remainder has the sign of the dividend. Shifts and rotations
take their count modulo the width. -/
def IntBinary.eval : IntBinary → BitVec n → BitVec n → Except Trap (BitVec n)
  | .add, a, b => .ok (a + b)
  | .sub, a, b => .ok (a - b)
  | .mul, a, b => .ok (a * b)
  | .divS, a, b =>
    if b = 0 then .error .integerDivideByZero
    else if a = BitVec.intMin n ∧ b = BitVec.allOnes n then .error .integerOverflow
    else .ok (a.sdiv b)
  | .divU, a, b => if b = 0 then .error .integerDivideByZero else .ok (a / b)
  | .remS, a, b => if b = 0 then .error .integerDivideByZero else .ok (a.srem b)
  | .remU, a, b => if b = 0 then .error .integerDivideByZero else .ok (a % b)
  | .and, a, b => .ok (a &&& b)
  | .or, a, b => .ok (a ||| b)
  | .xor, a, b => .ok (a ^^^ b)
  | .shl, a, b => .ok (a <<< (b.toNat % n))
  | .shrS, a, b => .ok (a.sshiftRight (b.toNat % n))
  | .shrU, a, b => .ok (a >>> (b.toNat % n))
  | .rotl, a, b => .ok (a.rotateLeft (b.toNat % n))
  | .rotr, a, b => .ok (a.rotateRight (b.toNat % n))

/-- Comparisons. -/
inductive IntRel where
  | eq
  | ne
  | ltS
  | ltU
  | gtS
  | gtU
  | leS
  | leU
  | geS
  | geU
  deriving DecidableEq, Repr

def IntRel.eval : IntRel → BitVec n → BitVec n → Bool
  | .eq, a, b => a = b
  | .ne, a, b => a ≠ b
  | .ltS, a, b => a.slt b
  | .ltU, a, b => a.ult b
  | .gtS, a, b => b.slt a
  | .gtU, a, b => b.ult a
  | .leS, a, b => a.sle b
  | .leU, a, b => a.ule b
  | .geS, a, b => b.sle a
  | .geU, a, b => b.ule a

end Wasm
