import Mathlib
import Wasm.Proofs.Effect
import Wasm.Proofs.Spelling

/-!
# Wasm.Proofs.Arithmetic

The integer instructions compute with integers modulo a power of two.

* `Instr.Unary` and `Instr.Binary` say what an opcode does with the cells on top of the stack.
* `IntRel.holds`, `IntUnary.count` and `IntBinary.exact` say what the instructions are for, in the
  arithmetic of natural numbers and integers; `IntRel.eval_eq`, `IntUnary.toNat_eval` and
  `IntBinary.eval_eq` that bit vectors of any width come to that.
* `integer_instructions` puts both together, opcode by opcode.
-/

namespace Wasm

namespace Instr

/-! ## Opcodes and cells -/

/-- The opcode stands alone for an instruction that replaces the top cell as a function says, or
traps as it does. -/
def Unary (opcode : UInt8) (f : UInt64 → Except Trap UInt64) : Prop :=
  ∃ op : PlainInstr, readImmediates opcode = pure (.plain op) ∧
    ∀ (s : Scope) (below : Array UInt64) (a : UInt64), s.stack.cells = below.push a →
      s.stack.cells.size ≤ s.stack.limit → op.exec s = Exec.replaceWith s below (f a)

/-- The opcode stands alone for an instruction that replaces the two topmost cells as a function
says, or traps as it does. -/
def Binary (opcode : UInt8) (f : UInt64 → UInt64 → Except Trap UInt64) : Prop :=
  ∃ op : PlainInstr, readImmediates opcode = pure (.plain op) ∧
    ∀ (s : Scope) (below : Array UInt64) (a b : UInt64), s.stack.cells = (below.push a).push b →
      s.stack.cells.size ≤ s.stack.limit → op.exec s = Exec.replaceWith s below (f a b)

/-- An opcode of the table does what its operation computes. -/
theorem unary_of_eval (hop : NumericOp.ofByte? opcode = some (.unary op))
    (h : ∀ a, op.eval a = f a) : Unary opcode f := by
  refine ⟨.numeric (.unary op), readImmediates_of_numeric hop, fun s below a hcells hlimit => ?_⟩
  rw [hcells, Array.size_push] at hlimit
  rw [PlainInstr.exec, Exec.numeric_unary hcells hlimit, h]

/-- The same for two operands. -/
theorem binary_of_eval (hop : NumericOp.ofByte? opcode = some (.binary op))
    (h : ∀ a b, op.eval a b = f a b) : Binary opcode f := by
  refine ⟨.numeric (.binary op), readImmediates_of_numeric hop, fun s below a b hcells hlimit => ?_⟩
  rw [hcells, Array.size_push, Array.size_push] at hlimit
  rw [PlainInstr.exec, Exec.numeric_binary hcells (by omega), h]

end Instr

/-! ## Specifications -/

/-- A number of `n` bits in two's complement. -/
def twosComplement (n a : Nat) : ℤ := (a : ℤ).bmod (2 ^ n)

/-- When a comparison of numbers of `n` bits holds. -/
def IntRel.holds (n : Nat) : IntRel → Nat → Nat → Bool
  | .eq, a, b => a = b
  | .ne, a, b => a ≠ b
  | .ltS, a, b => twosComplement n a < twosComplement n b
  | .ltU, a, b => a < b
  | .gtS, a, b => twosComplement n a > twosComplement n b
  | .gtU, a, b => a > b
  | .leS, a, b => twosComplement n a ≤ twosComplement n b
  | .leU, a, b => a ≤ b
  | .geS, a, b => twosComplement n a ≥ twosComplement n b
  | .geU, a, b => a ≥ b

/-- The bits that are counted in a number of `n` bits: those above the leading one, those below the
last one, and the ones. -/
def IntUnary.count (n : Nat) : IntUnary → Nat → Nat
  | .clz, a => n - a.size
  | .ctz, a => if a = 0 then n else padicValNat 2 a
  | .popcnt, a => ((Finset.range n).filter fun i => a.testBit i).card

/-- The result of an operation on numbers of `n` bits, before it is reduced modulo `2 ^ n`. -/
def IntBinary.exact (n : Nat) : IntBinary → Nat → Nat → Except Trap ℤ
  | .add, a, b => .ok (a + b)
  | .sub, a, b => .ok (a - b)
  | .mul, a, b => .ok (a * b)
  | .divS, a, b =>
    if b = 0 then .error .integerDivideByZero
    else if twosComplement n a = -2 ^ (n - 1) ∧ twosComplement n b = -1 then
      .error .integerOverflow
    else .ok ((twosComplement n a).tdiv (twosComplement n b))
  | .divU, a, b => if b = 0 then .error .integerDivideByZero else .ok (a / b : Nat)
  | .remS, a, b =>
    if b = 0 then .error .integerDivideByZero
    else .ok ((twosComplement n a).tmod (twosComplement n b))
  | .remU, a, b => if b = 0 then .error .integerDivideByZero else .ok (a % b : Nat)
  | .and, a, b => .ok (a &&& b : Nat)
  | .or, a, b => .ok (a ||| b : Nat)
  | .xor, a, b => .ok (a ^^^ b : Nat)
  | .shl, a, b => .ok (a * 2 ^ (b % n))
  | .shrS, a, b => .ok (twosComplement n a / 2 ^ (b % n))
  | .shrU, a, b => .ok (a / 2 ^ (b % n) : Nat)
  | .rotl, a, b => .ok (a * 2 ^ (b % n) + a / 2 ^ (n - b % n) : Nat)
  | .rotr, a, b => .ok (a / 2 ^ (b % n) + a * 2 ^ (n - b % n) : Nat)

/-! ## Bit vectors -/

section BitVectors

variable {n : Nat}

/-- The signed reading of a bit vector. -/
theorem twosComplement_toNat (a : BitVec n) : twosComplement n a.toNat = a.toInt :=
  a.toInt_eq_toNat_bmod.symm

/-- Relations compare the numbers that the bits stand for, with or without a sign. -/
theorem IntRel.eval_eq (op : IntRel) (a b : BitVec n) :
    op.eval a b = op.holds n a.toNat b.toNat := by
  rw [Bool.eq_iff_iff]
  cases op <;>
    simp [eval, holds, twosComplement_toNat, BitVec.slt_iff_toInt_lt, BitVec.sle_iff_toInt_le,
      BitVec.ult_iff_lt, BitVec.ule_iff_le, BitVec.lt_def, BitVec.le_def, BitVec.toNat_inj]

/-! ### Counts -/

/-- A count of bits fits into the bits that it counts, since `n < 2 ^ n`. -/
theorem toNat_width : (n : BitVec n).toNat = n := by
  rw [BitVec.natCast_eq_ofNat, BitVec.toNat_ofNat, Nat.mod_eq_of_lt Nat.lt_two_pow_self]

/-- The bits in front of the highest one. -/
theorem toNat_clz (a : BitVec n) : a.clz.toNat = n - a.toNat.size := by
  have hle : a.clz.toNat ≤ n := by
    have hclz := BitVec.clz_le (x := a)
    rwa [BitVec.le_def, toNat_width] at hclz
  have hhigh := Nat.size_le.mpr (BitVec.toNat_lt_two_pow_sub_clz (x := a))
  by_cases h0 : a = 0#n
  · have hclz : a.clz.toNat = n := by rw [BitVec.clz_eq_iff_eq_zero.mpr h0, toNat_width]
    rw [hclz, h0]
    simp
  · have hn : 0 < n := by
      by_contra hn
      obtain rfl : n = 0 := by omega
      exact h0 (BitVec.eq_nil a)
    have hlow := Nat.lt_size.mpr (BitVec.two_pow_sub_clz_le_toNat_of_ne_zero hn h0)
    omega

/-- A power of two divides a number exactly if the low bits are zero. -/
theorem two_pow_dvd_iff (a k : Nat) : 2 ^ k ∣ a ↔ ∀ i < k, a.testBit i = false := by
  constructor
  · rintro ⟨m, rfl⟩ i hi
    simp [Nat.testBit_two_pow_mul, Nat.not_le.mpr hi]
  · intro hclear
    apply Nat.dvd_of_mod_eq_zero
    apply Nat.eq_of_testBit_eq
    intro i
    rw [Nat.testBit_mod_two_pow, Nat.zero_testBit]
    by_cases hi : i < k
    · simp [hclear i hi]
    · simp [hi]

/-- Trailing zeros are how often two divides a number. -/
theorem toNat_ctz (a : BitVec n) :
    a.ctz.toNat = if a.toNat = 0 then n else padicValNat 2 a.toNat := by
  by_cases h0 : a = 0#n
  · have hrev : a.reverse = 0#n := by simp [h0]
    rw [BitVec.ctz_eq_reverse_clz, BitVec.clz_eq_iff_eq_zero.mpr hrev, toNat_width]
    simp [h0]
  · have hpos : a.toNat ≠ 0 := fun h => h0 (BitVec.eq_of_toNat_eq (by simpa using h))
    -- Both numbers are the place of the first bit that is set.
    have hdvd : ∀ k, k ≤ padicValNat 2 a.toNat ↔ ∀ i < k, a.getLsbD i = false := fun k => by
      rw [← padicValNat_dvd_iff_le hpos, two_pow_dvd_iff]
      rfl
    have hset := BitVec.getLsbD_true_ctz_of_ne_zero h0
    rw [if_neg hpos]
    apply Nat.le_antisymm
    · exact (hdvd _).mpr fun i hi => BitVec.getLsbD_false_of_lt_ctz hi
    · by_contra hlt
      have hclear := (hdvd _).mp (Nat.le_refl _) _ (Nat.not_le.mp hlt)
      exact absurd (hset.symm.trans hclear) (by decide)

/-- The loop counts the bits below its bound on top of what it has counted. -/
theorem cpopNatRec_eq (a : BitVec n) (k acc : Nat) :
    a.cpopNatRec k acc = acc + ((Finset.range k).filter fun i => a.toNat.testBit i).card := by
  induction k generalizing acc with
  | zero => simp [BitVec.cpopNatRec]
  | succ k ih =>
    rw [BitVec.cpopNatRec_succ, ih, Finset.range_add_one, Finset.filter_insert, BitVec.getLsbD]
    by_cases hbit : a.toNat.testBit k
    · rw [if_pos hbit, Finset.card_insert_of_notMem (by simp), hbit, Bool.toNat_true]
      omega
    · simp [hbit]

/-- The number of bits that are set. -/
theorem toNat_cpop (a : BitVec n) :
    a.cpop.toNat = ((Finset.range n).filter fun i => a.toNat.testBit i).card := by
  have hle : ((Finset.range n).filter fun i => a.toNat.testBit i).card ≤ n :=
    (Finset.card_filter_le _ _).trans_eq (Finset.card_range n)
  rw [BitVec.cpop, cpopNatRec_eq, BitVec.toNat_ofNat, Nat.zero_add,
    Nat.mod_eq_of_lt (hle.trans_lt Nat.lt_two_pow_self)]

/-- The three counts together. -/
theorem IntUnary.toNat_eval (op : IntUnary) (a : BitVec n) :
    (op.eval a).toNat = op.count n a.toNat := by
  cases op with
  | clz => exact toNat_clz a
  | ctz => exact toNat_ctz a
  | popcnt => exact toNat_cpop a

/-! ### Arithmetic -/

/-- A bit vector is made of its unsigned reading. -/
theorem eq_ofInt_of_toNat {a : BitVec n} {m : Nat} (h : a.toNat = m) : a = BitVec.ofInt n m := by
  rw [← h, BitVec.ofInt_natCast, BitVec.ofNat_toNat, BitVec.setWidth_eq]

/-- Bits that are a number up to the modulus are the number reduced. -/
theorem eq_ofInt_of_toNat_mod {a : BitVec n} {m : Nat} (h : a.toNat = m % 2 ^ n) :
    a = BitVec.ofInt n m := by
  apply BitVec.eq_of_toNat_eq
  rw [h, BitVec.ofInt_natCast, BitVec.toNat_ofNat]

/-- A bit vector is made of its signed reading. -/
theorem eq_ofInt_of_toInt {a : BitVec n} (h : a.toInt = r) : a = BitVec.ofInt n r := by
  rw [← h, BitVec.ofInt_toInt]

/-- The lowest number is the one whose negation does not fit. -/
theorem eq_intMin_iff (hn : 0 < n) (a : BitVec n) :
    a = BitVec.intMin n ↔ a.toInt = -2 ^ (n - 1) := by
  have hlt : 2 ^ (n - 1) < 2 ^ n := Nat.pow_lt_pow_right (by decide) (by omega)
  rw [← BitVec.toInt_inj, BitVec.toInt_intMin, Nat.mod_eq_of_lt hlt]
  push_cast
  rfl

/-- All ones stand for minus one. -/
theorem eq_allOnes_iff (hn : 0 < n) (b : BitVec n) : b = BitVec.allOnes n ↔ b.toInt = -1 := by
  rw [← BitVec.toInt_inj, BitVec.toInt_allOnes, if_pos hn]

/-- Division of integers rounds towards zero, and the one quotient that does not fit wraps around.
-/
theorem sdiv_eq_ofInt (a b : BitVec n) : a.sdiv b = BitVec.ofInt n (a.toInt.tdiv b.toInt) := by
  apply BitVec.eq_of_toInt_eq
  rw [BitVec.toInt_sdiv, BitVec.toInt_ofInt]

/-- A shift to the left multiplies. -/
theorem shiftLeft_eq_ofInt (a : BitVec n) (k : Nat) :
    a <<< k = BitVec.ofInt n (a.toNat * 2 ^ k) := by
  have hshift : a <<< k = BitVec.ofInt n (a.toNat * 2 ^ k : Nat) :=
    eq_ofInt_of_toNat_mod (by rw [BitVec.toNat_shiftLeft, Nat.shiftLeft_eq])
  exact_mod_cast hshift

/-- A shift to the right with the sign divides and rounds down. -/
theorem sshiftRight_eq_ofInt (a : BitVec n) (k : Nat) :
    a.sshiftRight k = BitVec.ofInt n (a.toInt / 2 ^ k) := by
  apply eq_ofInt_of_toInt
  rw [BitVec.toInt_sshiftRight, Int.shiftRight_eq_div_pow]
  push_cast
  rfl

theorem ushiftRight_eq_ofInt (a : BitVec n) (k : Nat) :
    a >>> k = BitVec.ofInt n (a.toNat / 2 ^ k : Nat) :=
  eq_ofInt_of_toNat (by rw [BitVec.toNat_ushiftRight, Nat.shiftRight_eq_div_pow])

/-- In a rotation, the bits that leave at one end come in at the other. -/
theorem rotate_eq {a k l : Nat} (ha : a < 2 ^ (k + l)) :
    a <<< k % 2 ^ (k + l) ||| a >>> l = (a * 2 ^ k + a / 2 ^ l) % 2 ^ (k + l) := by
  have hlow : a / 2 ^ l < 2 ^ k := by
    rw [Nat.div_lt_iff_lt_mul (Nat.two_pow_pos l), ← Nat.pow_add]
    exact ha
  have hhigh : a * 2 ^ k % 2 ^ (k + l) = 2 ^ k * (a % 2 ^ l) := by
    rw [Nat.pow_add, Nat.mul_comm a, Nat.mul_mod_mul_left]
  have hfits : 2 ^ k * (a % 2 ^ l) + a / 2 ^ l < 2 ^ (k + l) := by
    have hmod := Nat.mod_lt a (Nat.two_pow_pos l)
    have hmul : 2 ^ k * (a % 2 ^ l + 1) ≤ 2 ^ k * 2 ^ l := Nat.mul_le_mul_left _ hmod
    rw [Nat.mul_add, ← Nat.pow_add] at hmul
    omega
  rw [Nat.shiftLeft_eq, Nat.shiftRight_eq_div_pow, hhigh, ← Nat.two_pow_add_eq_or_of_lt hlow,
    Nat.add_mod, hhigh, Nat.mod_eq_of_lt (hlow.trans_le (Nat.pow_le_pow_right two_pos (by omega))),
    Nat.mod_eq_of_lt hfits]

/-- The bits that leave on the left come back on the right. -/
theorem rotateLeft_eq_ofInt (a : BitVec n) (hk : k < n) :
    a.rotateLeft k = BitVec.ofInt n (a.toNat * 2 ^ k + a.toNat / 2 ^ (n - k) : Nat) := by
  have hsum : k + (n - k) = n := by omega
  have hrotate := rotate_eq (a := a.toNat) (k := k) (l := n - k) (by rw [hsum]; exact a.isLt)
  rw [hsum] at hrotate
  apply eq_ofInt_of_toNat_mod
  rw [BitVec.toNat_rotateLeft, Nat.mod_eq_of_lt hk, hrotate]

/-- The bits that leave on the right come back on the left. -/
theorem rotateRight_eq_ofInt (a : BitVec n) (hk : k < n) :
    a.rotateRight k = BitVec.ofInt n (a.toNat / 2 ^ k + a.toNat * 2 ^ (n - k) : Nat) := by
  have hsum : n - k + k = n := by omega
  have hrotate := rotate_eq (a := a.toNat) (k := n - k) (l := k) (by rw [hsum]; exact a.isLt)
  rw [hsum, Nat.or_comm, Nat.add_comm (_ * _)] at hrotate
  apply eq_ofInt_of_toNat_mod
  rw [BitVec.toNat_rotateRight, Nat.mod_eq_of_lt hk, hrotate]

/-- Every operation computes its exact result, reduced to the width, or traps where there is none.
-/
theorem IntBinary.eval_eq (hn : 0 < n) (op : IntBinary) (a b : BitVec n) :
    op.eval a b = (op.exact n a.toNat b.toNat).map (BitVec.ofInt n) := by
  have hcount : b.toNat % n < n := Nat.mod_lt b.toNat hn
  have hzero : b = 0 ↔ b.toNat = 0 := by
    rw [← BitVec.toNat_inj]
    rfl
  cases op with
  | add => simp [eval, exact, Except.map, BitVec.ofInt_add]
  | sub => simp [eval, exact, Except.map, sub_eq_add_neg, BitVec.ofInt_add, BitVec.ofInt_neg]
  | mul => simp [eval, exact, Except.map, BitVec.ofInt_mul]
  | divS =>
    simp only [eval, exact, hzero, twosComplement_toNat, eq_intMin_iff hn, eq_allOnes_iff hn,
      sdiv_eq_ofInt]
    split
    · rfl
    · split <;> rfl
  | divU =>
    simp only [eval, exact, hzero, eq_ofInt_of_toNat (BitVec.toNat_udiv (x := a) (y := b))]
    split <;> rfl
  | remS =>
    simp only [eval, exact, hzero, twosComplement_toNat,
      eq_ofInt_of_toInt (BitVec.toInt_srem a b)]
    split <;> rfl
  | remU =>
    simp only [eval, exact, hzero, eq_ofInt_of_toNat (BitVec.toNat_umod (x := a) (y := b))]
    split <;> rfl
  | and => exact congrArg Except.ok (eq_ofInt_of_toNat (BitVec.toNat_and a b))
  | or => exact congrArg Except.ok (eq_ofInt_of_toNat (BitVec.toNat_or a b))
  | xor => exact congrArg Except.ok (eq_ofInt_of_toNat (BitVec.toNat_xor a b))
  | shl => exact congrArg Except.ok (shiftLeft_eq_ofInt a _)
  | shrS =>
    simp only [eval, exact, twosComplement_toNat, sshiftRight_eq_ofInt]
    rfl
  | shrU => exact congrArg Except.ok (ushiftRight_eq_ofInt a _)
  | rotl => exact congrArg Except.ok (rotateLeft_eq_ofInt a hcount)
  | rotr => exact congrArg Except.ok (rotateRight_eq_ofInt a hcount)

/-- The remainder is what the quotient leaves. -/
theorem divS_remS {a b q r : BitVec n} (hdiv : IntBinary.divS.eval a b = .ok q)
    (hrem : IntBinary.remS.eval a b = .ok r) :
    a.toInt = b.toInt * q.toInt + r.toInt ∧ |r.toInt| < |b.toInt| ∧
      (r.toInt = 0 ∨ r.toInt.sign = a.toInt.sign) := by
  simp only [IntBinary.eval] at hdiv hrem
  by_cases hb : b = 0
  · simp [hb] at hrem
  rw [if_neg hb] at hdiv hrem
  by_cases hmin : a = BitVec.intMin n ∧ b = BitVec.allOnes n
  · simp [hmin] at hdiv
  rw [if_neg hmin] at hdiv
  obtain rfl : a.sdiv b = q := Except.ok.inj hdiv
  obtain rfl : a.srem b = r := Except.ok.inj hrem
  have hquotient : (a.sdiv b).toInt = a.toInt.tdiv b.toInt := by
    apply BitVec.toInt_sdiv_of_ne_or_ne
    rw [BitVec.neg_one_eq_allOnes, ← not_and_or]
    exact hmin
  have hb' : b.toInt ≠ 0 := fun h => hb (BitVec.eq_of_toInt_eq (by simpa using h))
  rw [hquotient, BitVec.toInt_srem]
  refine ⟨(Int.mul_tdiv_add_tmod _ _).symm, ?_, ?_⟩
  · rw [Int.abs_eq_natAbs, Int.abs_eq_natAbs, Int.natAbs_tmod]
    exact_mod_cast Nat.mod_lt _ (Int.natAbs_pos.mpr hb')
  · rw [Int.sign_tmod]
    by_cases hdvd : b.toInt ∣ a.toInt
    · exact .inl (Int.tmod_eq_zero_of_dvd hdvd)
    · exact .inr (if_neg hdvd)

end BitVectors

/-! ## Cells -/

namespace Width

variable (w : Width)

/-- The number of a width in a cell: its low bits. -/
def low (c : UInt64) : Nat := c.toNat % 2 ^ w.bits

/-- The cell that holds an integer modulo a power of two. -/
def reduced (r : ℤ) : UInt64 := .ofNat (r % 2 ^ w.bits).toNat

theorem bits_pos : 0 < w.bits := by cases w <;> decide

/-- Of a cell, an instruction takes the bits of its width. -/
theorem toNat_ofCell (c : UInt64) : (w.ofCell c).toNat = w.low c := by
  rw [ofCell, BitVec.toNat_setWidth, UInt64.toNat_toBitVec, low]

/-- A result fills the low bits of its cell; the others are zero. -/
theorem toCell_eq (n : BitVec w.bits) : w.toCell n = .ofNat n.toNat := by
  apply UInt64.toNat.inj
  rw [toCell, UInt64.toNat_ofBitVec, BitVec.toNat_setWidth, UInt64.toNat_ofNat']

/-- An exact result is reduced on its way into the cell. -/
theorem toCell_ofInt (r : ℤ) : w.toCell (BitVec.ofInt w.bits r) = w.reduced r := by
  rw [toCell_eq, BitVec.toNat_ofInt, reduced, Nat.cast_pow, Nat.cast_ofNat]

/-- The number of a width in a cell, in two's complement. -/
def signed (c : UInt64) : ℤ := twosComplement w.bits (w.low c)

/-- The signed reading of a cell. -/
theorem toInt_ofCell (c : UInt64) : (w.ofCell c).toInt = w.signed c := by
  rw [signed, ← toNat_ofCell, twosComplement_toNat]

end Width

/-- An operation on cells is the exact one on the numbers that they hold. -/
theorem BinaryOp.eval_int (w : Width) (op : IntBinary) (a b : UInt64) :
    (BinaryOp.int w op).eval a b =
      (do return w.reduced (← op.exact w.bits (w.low a) (w.low b))) := by
  simp only [eval, op.eval_eq w.bits_pos, Width.toNat_ofCell]
  cases op.exact w.bits (w.low a) (w.low b) with
  | ok r => exact congrArg Except.ok (w.toCell_ofInt r)
  | error t => rfl

/-- What lies in the cell is what the bits were computed to be. -/
theorem BinaryOp.ofCell_of_eval_int (h : (BinaryOp.int w op).eval a b = .ok c) :
    op.eval (w.ofCell a) (w.ofCell b) = .ok (w.ofCell c) := by
  simp only [eval] at h
  cases hop : op.eval (w.ofCell a) (w.ofCell b) with
  | ok r =>
    rw [hop] at h
    obtain rfl : w.toCell r = c := Except.ok.inj h
    rw [w.ofCell_toCell]
  | error t =>
    rw [hop] at h
    contradiction

/-- The test for zero looks at the bits of its width alone. -/
theorem UnaryOp.eval_eqz (w : Width) (a : UInt64) :
    (UnaryOp.eqz w).eval a = .ok (if w.low a = 0 then 1 else 0) := by
  have hzero : w.ofCell a = 0#w.bits ↔ w.low a = 0 := by
    rw [← w.toNat_ofCell, ← BitVec.toNat_inj]
    rfl
  simp [eval, boolCell, hzero]

/-- Wrapping keeps the low half. -/
theorem Conversion.eval_wrap (a : UInt64) :
    Conversion.wrap.eval a = .ok (.ofNat (a.toNat % 2 ^ 32)) := by
  have hcell : a.toUInt32.toUInt64 = .ofNat (a.toNat % 2 ^ 32) := by
    apply UInt64.toNat.inj
    rw [UInt32.toNat_toUInt64, UInt64.toNat_toUInt32, UInt64.toNat_ofNat']
    omega
  rw [eval, hcell]

/-- Extension keeps the number, with its sign. -/
theorem Conversion.eval_extend_true (a : UInt64) :
    (Conversion.extend true).eval a = .ok (Width.w64.reduced (Width.w32.signed a)) := by
  have hextend := BitVec.toInt_signExtend_of_le (x := Width.w32.ofCell a) (v := 64) (by decide)
  rw [eval, ← Width.toInt_ofCell, ← hextend, ← Width.toCell_ofInt]
  exact congrArg (fun n => Except.ok (Width.w64.toCell n)) BitVec.ofInt_toInt.symm

/-- The remainder by minus one is zero, even where the quotient would not fit. -/
theorem BinaryOp.eval_remS_neg_one (a : UInt64) (hb : w.signed b = -1) :
    (BinaryOp.int w .remS).eval a b = .ok 0 := by
  have hb0 : w.low b ≠ 0 := fun h => by simp [Width.signed, twosComplement, h] at hb
  have hrem : (w.signed a).tmod (w.signed b) = 0 := by simp [hb]
  rw [eval_int, IntBinary.exact, if_neg hb0, ← Width.signed, ← Width.signed, hrem]
  simp [Width.reduced, pure, Except.pure, bind, Except.bind]

/-! ## Opcodes -/

/-- The one of two that belongs to a width. -/
def Width.pick (w : Width) (both : α × α) : α :=
  match w with
  | .w32 => both.1
  | .w64 => both.2

/-- The opcodes of a comparison of 32 bits and of 64 bits. -/
def IntRel.opcodes : IntRel → UInt8 × UInt8
  | .eq => (0x46, 0x51)
  | .ne => (0x47, 0x52)
  | .ltS => (0x48, 0x53)
  | .ltU => (0x49, 0x54)
  | .gtS => (0x4A, 0x55)
  | .gtU => (0x4B, 0x56)
  | .leS => (0x4C, 0x57)
  | .leU => (0x4D, 0x58)
  | .geS => (0x4E, 0x59)
  | .geU => (0x4F, 0x5A)

/-- The opcodes of a count over 32 bits and over 64 bits. -/
def IntUnary.opcodes : IntUnary → UInt8 × UInt8
  | .clz => (0x67, 0x79)
  | .ctz => (0x68, 0x7A)
  | .popcnt => (0x69, 0x7B)

/-- The opcodes of an operation on 32 bits and on 64 bits. -/
def IntBinary.opcodes : IntBinary → UInt8 × UInt8
  | .add => (0x6A, 0x7C)
  | .sub => (0x6B, 0x7D)
  | .mul => (0x6C, 0x7E)
  | .divS => (0x6D, 0x7F)
  | .divU => (0x6E, 0x80)
  | .remS => (0x6F, 0x81)
  | .remU => (0x70, 0x82)
  | .and => (0x71, 0x83)
  | .or => (0x72, 0x84)
  | .xor => (0x73, 0x85)
  | .shl => (0x74, 0x86)
  | .shrS => (0x75, 0x87)
  | .shrU => (0x76, 0x88)
  | .rotl => (0x77, 0x89)
  | .rotr => (0x78, 0x8A)

namespace NumericOp

theorem ofByte?_eqz (w : Width) : ofByte? (w.pick (0x45, 0x50)) = some (.unary (.eqz w)) := by
  cases w <;> decide +kernel

/-- The opcodes of a relation, by width. -/
theorem ofByte?_intRel (w : Width) (op : IntRel) :
    ofByte? (w.pick op.opcodes) = some (.binary (.intRel w op)) := by
  cases w <;> cases op <;> decide +kernel

/-- The opcodes of a count, by width. -/
theorem ofByte?_intUnary (w : Width) (op : IntUnary) :
    ofByte? (w.pick op.opcodes) = some (.unary (.int w op)) := by
  cases w <;> cases op <;> decide +kernel

/-- The opcodes of an operation, by width. -/
theorem ofByte?_intBinary (w : Width) (op : IntBinary) :
    ofByte? (w.pick op.opcodes) = some (.binary (.int w op)) := by
  cases w <;> cases op <;> decide +kernel

theorem ofByte?_wrap : ofByte? 0xA7 = some (.unary (.conversion .wrap)) := by decide +kernel

theorem ofByte?_extend (signed : Bool) :
    ofByte? (if signed then 0xAC else 0xAD) = some (.unary (.conversion (.extend signed))) := by
  cases signed <;> decide +kernel

end NumericOp

/-- What a signed division and a remainder of the same operands leave, where neither traps. -/
def Exec.DivisionLaw (w : Width) : Prop :=
  ∀ (s : Scope) (below : Array UInt64) (a b q r : UInt64),
    s.stack.cells = (below.push a).push b → s.stack.cells.size ≤ s.stack.limit →
    numeric (.binary (.int w .divS)) s = .ok () (s.withCells (below.push q)) →
    numeric (.binary (.int w .remS)) s = .ok () (s.withCells (below.push r)) →
    w.signed a = w.signed b * w.signed q + w.signed r ∧ |w.signed r| < |w.signed b| ∧
      (w.signed r = 0 ∨ (w.signed r).sign = (w.signed a).sign)

/-- Quotient and remainder make up the dividend, as the instructions compute them. -/
theorem Exec.divisionLaw (w : Width) : DivisionLaw w := by
  intro s below a b q r hcells hlimit hdiv hrem
  rw [hcells, Array.size_push, Array.size_push] at hlimit
  rw [numeric_binary hcells (by omega), replaceWith_eq_ok] at hdiv hrem
  have hlaw := divS_remS (BinaryOp.ofCell_of_eval_int hdiv) (BinaryOp.ofCell_of_eval_int hrem)
  simpa only [w.toInt_ofCell] using hlaw

/-- The integer instructions. They read the low bits of their operands and leave a number below
`2 ^ bits` in place of them; a test leaves zero or one. A remainder by minus one is zero also where
the quotient is too large. -/
theorem integer_instructions :
    (∀ w : Width, Instr.Unary (w.pick (0x45, 0x50)) fun a =>
      .ok (if w.low a = 0 then 1 else 0)) ∧
    (∀ (w : Width) (op : IntRel), Instr.Binary (w.pick op.opcodes) fun a b =>
      .ok (if op.holds w.bits (w.low a) (w.low b) then 1 else 0)) ∧
    (∀ (w : Width) (op : IntUnary), Instr.Unary (w.pick op.opcodes) fun a =>
      .ok (.ofNat (op.count w.bits (w.low a)))) ∧
    (∀ (w : Width) (op : IntBinary), Instr.Binary (w.pick op.opcodes) fun a b => do
      return w.reduced (← op.exact w.bits (w.low a) (w.low b))) ∧
    Instr.Unary 0xA7 (fun a => .ok (.ofNat (a.toNat % 2 ^ 32))) ∧
    Instr.Unary 0xAC (fun a => .ok (Width.w64.reduced (Width.w32.signed a))) ∧
    Instr.Unary 0xAD (fun a => .ok (.ofNat (a.toNat % 2 ^ 32))) ∧
    (∀ (w : Width) (a b : UInt64), w.signed b = -1 →
      (BinaryOp.int w .remS).eval a b = .ok 0) ∧
    ∀ w : Width, Exec.DivisionLaw w := by
  refine ⟨fun w => ?_, fun w op => ?_, fun w op => ?_, fun w op => ?_, ?_, ?_, ?_, ?_,
    Exec.divisionLaw⟩
  · exact Instr.unary_of_eval (NumericOp.ofByte?_eqz w) (UnaryOp.eval_eqz w)
  · apply Instr.binary_of_eval (NumericOp.ofByte?_intRel w op)
    intro a b
    rw [BinaryOp.eval, op.eval_eq, w.toNat_ofCell, w.toNat_ofCell]
    rfl
  · apply Instr.unary_of_eval (NumericOp.ofByte?_intUnary w op)
    intro a
    rw [UnaryOp.eval, w.toCell_eq, op.toNat_eval, w.toNat_ofCell]
  · exact Instr.binary_of_eval (NumericOp.ofByte?_intBinary w op) (BinaryOp.eval_int w op)
  · exact Instr.unary_of_eval NumericOp.ofByte?_wrap Conversion.eval_wrap
  · exact Instr.unary_of_eval (NumericOp.ofByte?_extend true) Conversion.eval_extend_true
  · exact Instr.unary_of_eval (NumericOp.ofByte?_extend false) Conversion.eval_wrap
  · intro w a b hb
    exact BinaryOp.eval_remS_neg_one a hb

/-- The stack of a division of minus seven by two, with other bits above those of the dividend. -/
def minusSevenByTwo : Scope where
  space := ⟨#[], none, none, #[]⟩
  stack := ⟨#[5, 0xDEADBEEFFFFFFFF9, 2], 3⟩
  locals := #[]

/-- The quotient is minus three and the remainder minus one. -/
theorem integer_instructions_minusSeven :
    Exec.numeric (.binary (.int .w32 .divS)) minusSevenByTwo =
      .ok () (minusSevenByTwo.withCells #[5, 0xFFFFFFFD]) ∧
    Exec.numeric (.binary (.int .w32 .remS)) minusSevenByTwo =
      .ok () (minusSevenByTwo.withCells #[5, 0xFFFFFFFF]) ∧
    Width.w32.signed 0xDEADBEEFFFFFFFF9 =
      Width.w32.signed 2 * Width.w32.signed 0xFFFFFFFD + Width.w32.signed 0xFFFFFFFF := by
  obtain ⟨-, -, -, -, -, -, -, -, hlaw⟩ := integer_instructions
  have hdiv : (BinaryOp.int .w32 .divS).eval 0xDEADBEEFFFFFFFF9 2 = .ok 0xFFFFFFFD := by
    decide +kernel
  have hrem : (BinaryOp.int .w32 .remS).eval 0xDEADBEEFFFFFFFF9 2 = .ok 0xFFFFFFFF := by
    decide +kernel
  have hcells : minusSevenByTwo.stack.cells = (#[5].push 0xDEADBEEFFFFFFFF9).push 2 := rfl
  have hdiv' := Exec.numeric_binary hcells (by decide) (.int .w32 .divS)
  have hrem' := Exec.numeric_binary hcells (by decide) (.int .w32 .remS)
  rw [hdiv] at hdiv'
  rw [hrem] at hrem'
  exact ⟨hdiv', hrem', (hlaw .w32 _ _ _ _ _ _ hcells (by decide) hdiv' hrem').1⟩

end Wasm
