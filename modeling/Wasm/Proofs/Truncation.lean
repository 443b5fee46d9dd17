import Wasm.Proofs.Arithmetic
import Wasm.Proofs.FloatValue

/-!
# Wasm.Proofs.Truncation

Floats are truncated to integers exactly, up to the limits of the integers.

`Datum.truncated` says what a float is truncated to, in terms of the number it stands for.
`truncateTo_eq` says that the comparisons with float bounds come to that: a bound is one integer
beyond the last one that fits, and where that integer is no float, no float lies between the two.
-/

namespace Wasm

namespace FloatFormat

/-- A number rounded toward zero. -/
def towardZero (q : ℚ) : ℤ := if 0 ≤ q then ⌊q⌋ else ⌈q⌉

/-- What a float is truncated to, as a signed or unsigned integer of some bits. -/
def Datum.truncated (bits : Nat) (signed : Bool) : Datum → Except Trap ℤ
  | .nan => .error .invalidConversionToInteger
  | .infinite => .error .integerOverflow
  | .number q =>
    let lo : ℤ := if signed then -2 ^ (bits - 1) else 0
    let hi : ℤ := if signed then 2 ^ (bits - 1) - 1 else 2 ^ bits - 1
    if lo ≤ towardZero q ∧ towardZero q ≤ hi then .ok (towardZero q) else .error .integerOverflow

/-! ## Division toward zero -/

/-- A bound from above on a quotient that is rounded towards zero is a strict bound on the dividend.
-/
theorem tdiv_le_iff (hu : 0 < u) (hn : 0 ≤ n) : Int.tdiv S u ≤ n ↔ S < (n + 1) * u := by
  by_cases hS : 0 ≤ S
  · rw [Int.tdiv_eq_ediv_of_nonneg hS, ← Int.lt_add_one_iff, Int.ediv_lt_iff_lt_mul hu]
  · have hneg : 0 ≤ (-S).tdiv u := Int.tdiv_nonneg (by omega) hu.le
    have hpos : 0 ≤ (n + 1) * u := by positivity
    rw [Int.neg_tdiv] at hneg
    omega

/-- So is a bound from below. -/
theorem le_tdiv_iff (hu : 0 < u) (hn : n ≤ 0) : n ≤ Int.tdiv S u ↔ (n - 1) * u < S := by
  have hiff := tdiv_le_iff (S := -S) (u := u) (n := -n) hu (by omega)
  have hbound : (-n + 1) * u = -((n - 1) * u) := by ring
  rw [Int.neg_tdiv, hbound] at hiff
  omega

/-- Rounding the rational number towards zero is division of integers. -/
theorem towardZero_div (S : ℤ) {u : Nat} (hu : 0 < u) : towardZero ((S : ℚ) / u) = S.tdiv u := by
  have hfloor := Rat.floor_intCast_div_natCast
  by_cases hS : 0 ≤ S
  · have hq : 0 ≤ (S : ℚ) / u := by positivity
    rw [towardZero, if_pos hq, hfloor, Int.tdiv_eq_ediv_of_nonneg hS]
  · have hq : ¬ 0 ≤ (S : ℚ) / u := by
      have hlt : (S : ℚ) < 0 := by exact_mod_cast not_le.mp hS
      exact not_le.mpr (div_neg_of_neg_of_pos hlt (by exact_mod_cast hu))
    have hneg := hfloor (-S) u
    rw [← Int.tdiv_eq_ediv_of_nonneg (by omega), Int.neg_tdiv, Int.cast_neg, neg_div,
      Int.floor_neg] at hneg
    rw [towardZero, if_neg hq]
    exact neg_injective hneg

/-! ## Bounds -/

section Bounds

variable {f : FloatFormat}

/-- A power of two is a pattern of the format, and stands for itself. -/
theorem Regular.steps_power (hf : f.Regular) (hk : k + f.bias + 1 < 2 ^ f.exponentBits) :
    f.scaled 1 k < f.infinity ∧ f.steps (f.scaled 1 k) = 2 ^ k * f.unit := by
  have hlog : Nat.log2 1 = 0 := by decide
  constructor
  · exact hf.scaled_lt_infinity one_ne_zero (Nat.zero_le _) (by omega)
  · rw [hf.steps_scaled one_ne_zero (Nat.zero_le _), Nat.one_mul]

/-- Below infinity, a magnitude is a pattern without a sign. -/
theorem signedSteps_positive (hm : m < f.infinity) :
    ¬ f.isNaN m ∧ f.signedSteps m = f.steps m := by
  have hweight := hm.trans f.infinity_lt_signWeight
  have hnan := isNaN_signed false hweight
  have hsteps := signedSteps_signed false hweight
  simp only [Bool.false_eq_true, if_false, Nat.zero_add] at hnan hsteps
  rw [hnan, hsteps]
  simp [hm.le]

/-- With the sign, it stands for the negated number. -/
theorem signedSteps_negative (hm : m < f.infinity) :
    ¬ f.isNaN (f.negative m) ∧ f.signedSteps (f.negative m) = -(f.steps m : ℤ) := by
  have hweight := hm.trans f.infinity_lt_signWeight
  have hnan := isNaN_signed true hweight
  have hsteps := signedSteps_signed true hweight
  simp only [if_true] at hnan hsteps
  rw [negative, hnan, hsteps]
  simp [hm.le]

/-- Numbers too large for the significand to hold a fraction are integers. -/
theorem Regular.unit_dvd_steps (hf : f.Regular) (h : 2 ^ f.fractionBits * f.unit ≤ f.steps m) :
    f.unit ∣ f.steps m := by
  have hbias := hf.bias_pos
  by_cases hfield : f.bias + f.fractionBits - 1 ≤ m / 2 ^ f.fractionBits - 1
  · exact (Nat.pow_dvd_pow 2 hfield).mul_left _
  · have hfraction := Nat.mod_lt m (Nat.two_pow_pos f.fractionBits)
    have hlt : f.steps m < 2 ^ (f.fractionBits + 1) * 2 ^ (m / 2 ^ f.fractionBits - 1) := by
      apply Nat.mul_lt_mul_of_pos_right _ (Nat.two_pow_pos _)
      rw [Nat.pow_succ]
      split <;> omega
    have hle : 2 ^ (f.fractionBits + 1) * 2 ^ (m / 2 ^ f.fractionBits - 1) ≤
        2 ^ f.fractionBits * f.unit := by
      rw [unit, ← Nat.pow_add, ← Nat.pow_add]
      exact Nat.pow_le_pow_right two_pos (by omega)
    omega

end Bounds

end FloatFormat

/-! ## Integers of a width -/

namespace Width

variable (w : Width) (signed : Bool)

/-- An integer, if it is one of a width. -/
def fit (n : ℤ) : Except Trap ℤ :=
  if w.least signed ≤ n ∧ n ≤ w.greatest signed then .ok n else .error .integerOverflow

theorem least_eq : w.least signed = if signed then -2 ^ (w.bits - 1) else 0 := by
  cases w <;> cases signed <;> decide

theorem greatest_eq :
    w.greatest signed = if signed then 2 ^ (w.bits - 1) - 1 else 2 ^ w.bits - 1 := by
  cases w <;> cases signed <;> decide

theorem least_nonpos : w.least signed ≤ 0 := by
  cases w <;> cases signed <;> decide

theorem greatest_nonneg : 0 ≤ w.greatest signed := by
  cases w <;> cases signed <;> decide

end Width

namespace FloatFormat

/-! ## Truncation to a width -/

section Fit

variable {f : FloatFormat} (hf : f.Regular)
include hf

/-- A truncated number is in range if the number lies strictly above one less than the least one. -/
theorem le_truncate_iff (x : Nat) (target : Width) (signed : Bool) :
    target.least signed ≤ f.truncate x ↔ (target.least signed - 1) * f.unit < f.signedSteps x := by
  have hunit : (0 : ℤ) < f.unit := by exact_mod_cast f.unit_pos
  rw [f.truncate_eq_tdiv hf.unit_exponent, le_tdiv_iff hunit (target.least_nonpos signed)]

/-- It is in range if the number lies strictly below one more than the greatest one. -/
theorem truncate_le_iff (x : Nat) (target : Width) (signed : Bool) :
    f.truncate x ≤ target.greatest signed ↔
      f.signedSteps x < (target.greatest signed + 1) * f.unit := by
  have hunit : (0 : ℤ) < f.unit := by exact_mod_cast f.unit_pos
  rw [f.truncate_eq_tdiv hf.unit_exponent, tdiv_le_iff hunit (target.greatest_nonneg signed)]

variable (hx : ¬ f.isNaN x)
include hx

/-- In range, nothing is saturated. -/
theorem saturate_round
    (h : target.least signed ≤ f.truncate x ∧ f.truncate x ≤ target.greatest signed) :
    f.saturate target signed (f.round .trunc x) = f.truncate x := by
  obtain ⟨hnan, htruncate⟩ := hf.truncate_round hx
  rw [saturate, if_neg hnan, htruncate, Width.clamp, if_neg (by omega), if_neg (by omega)]

/-- Bounds one integer beyond the last one that fits. -/
theorem saturate_truncateBetween (hl : l < f.infinity) (hh : h < f.infinity)
    (hlow : (f.steps l : ℤ) = (1 - target.least signed) * f.unit)
    (hhigh : (f.steps h : ℤ) = (target.greatest signed + 1) * f.unit) :
    (do return f.saturate target signed (← f.truncateBetween (f.negative l) h x)) =
      target.fit signed (f.truncate x) := by
  obtain ⟨hlnan, hlsteps⟩ := signedSteps_negative hl
  obtain ⟨hhnan, hhsteps⟩ := signedSteps_positive hh
  have hleast := le_truncate_iff hf x target signed
  have hgreatest := truncate_le_iff hf x target signed
  have hbelow := f.le_iff hx hlnan
  have habove := f.le_iff hhnan hx
  have hneg : (target.least signed - 1) * (f.unit : ℤ) = -((1 - target.least signed) * f.unit) := by
    ring
  by_cases hfit : target.least signed ≤ f.truncate x ∧ f.truncate x ≤ target.greatest signed
  · have hinside : ¬ (f.le x (f.negative l) || f.le h x) := by
      rw [Bool.or_eq_true, hbelow, habove]
      omega
    rw [truncateBetween, if_neg hx, if_neg hinside, Width.fit, if_pos hfit]
    exact congrArg Except.ok (saturate_round hf hx hfit)
  · have houtside : f.le x (f.negative l) || f.le h x := by
      rw [Bool.or_eq_true, hbelow, habove]
      omega
    rw [truncateBetween, if_neg hx, if_pos houtside, Width.fit, if_neg hfit]
    rfl

omit hx in
/-- No number lies strictly between two integers that leave the significand no room for a
fraction. -/
theorem neg_le_signedSteps_iff (hn : 2 ^ f.fractionBits ≤ n) (x : Nat) :
    -((n * f.unit : Nat) : ℤ) ≤ f.signedSteps x ↔
      -(((n + 1) * f.unit : Nat) : ℤ) < f.signedSteps x := by
  have hunit := f.unit_pos
  have hsucc : (n + 1) * f.unit = n * f.unit + f.unit := Nat.succ_mul n f.unit
  by_cases hle : f.steps (f.magnitude x) ≤ n * f.unit
  · rw [signedSteps]
    split <;> omega
  · have hlarge : 2 ^ f.fractionBits * f.unit ≤ f.steps (f.magnitude x) :=
      (Nat.mul_le_mul_right _ hn).trans (by omega)
    obtain ⟨k, hk⟩ := hf.unit_dvd_steps hlarge
    have hnk : (n + 1) * f.unit ≤ f.steps (f.magnitude x) := by
      rw [hk, Nat.mul_comm f.unit] at hle ⊢
      exact Nat.mul_le_mul_right _ (Nat.lt_of_mul_lt_mul_right (not_le.mp hle))
    rw [signedSteps]
    split <;> omega

/-- The bounds of all integers but the signed ones of 64 bits. -/
theorem saturate_truncateBetween_limits (hroom : 64 + f.bias + 1 < 2 ^ f.exponentBits)
    (target : Width) (signed : Bool)
    (hleast : (1 - target.least signed).toNat < 2 ^ (f.fractionBits + 1)) :
    (do
      let low := f.negative (f.ofNat (1 - target.least signed).toNat)
      let high := f.scaled 1 (if signed then target.bits - 1 else target.bits : Nat)
      return f.saturate target signed (← f.truncateBetween low high x)) =
      target.fit signed (f.truncate x) := by
  have hnonpos := target.least_nonpos signed
  have hpower : (if signed then target.bits - 1 else target.bits) ≤ 64 := by
    cases target <;> cases signed <;> decide
  have hgreatest : (2 ^ (if signed then target.bits - 1 else target.bits) : ℤ) =
      target.greatest signed + 1 := by
    rw [target.greatest_eq]
    cases signed <;> simp
  obtain ⟨hsteps, hlow⟩ := hf.steps_ofNat hleast
  obtain ⟨hhigh, hsteps'⟩ :=
    hf.steps_power (k := if signed then target.bits - 1 else target.bits) (by omega)
  apply saturate_truncateBetween hf hx hlow hhigh
  · rw [hsteps, Nat.cast_mul, Int.toNat_of_nonneg (by omega)]
  · rw [hsteps', ← hgreatest]
    push_cast
    rfl

/-- The least signed integer of 64 bits is a bound that may be reached. -/
theorem truncateTo_long (hroom : 64 + f.bias + 1 < 2 ^ f.exponentBits)
    (hfraction : f.fractionBits ≤ 63) :
    f.truncateTo .w64 true x = Width.w64.fit true (f.truncate x) := by
  obtain ⟨hbound, hsteps⟩ := hf.steps_power (k := 63) (by omega)
  obtain ⟨hlnan, hlsteps⟩ := signedSteps_negative hbound
  obtain ⟨hhnan, hhsteps⟩ := signedSteps_positive hbound
  have hleast := le_truncate_iff hf x .w64 true
  have hgreatest := truncate_le_iff hf x .w64 true
  -- The integer below the least one is no float, but no float comes between the two either.
  have hgap := neg_le_signedSteps_iff hf (Nat.pow_le_pow_right two_pos hfraction) x
  have hle := f.le_iff hlnan hx
  have hlt := f.lt_iff hx hhnan
  have hbelow : (Width.w64.least true - 1) * (f.unit : ℤ) =
      -(((2 ^ 63 + 1) * f.unit : Nat) : ℤ) := by
    rw [Width.least_eq]
    push_cast
    simp only [Width.bits, if_true]
    ring
  have habove : (Width.w64.greatest true + 1) * (f.unit : ℤ) = (2 ^ 63 * f.unit : Nat) := by
    rw [Width.greatest_eq]
    push_cast
    simp [Width.bits]
  rw [hbelow, ← hgap, ← hsteps, ← hlsteps, ← hle] at hleast
  rw [habove, ← hsteps, ← hhsteps, ← hlt] at hgreatest
  by_cases hfit : Width.w64.least true ≤ f.truncate x ∧ f.truncate x ≤ Width.w64.greatest true
  · have hinside : f.le (f.negative (f.scaled 1 63)) x && f.lt x (f.scaled 1 63) := by
      rw [Bool.and_eq_true]
      exact ⟨hleast.mp hfit.1, hgreatest.mp hfit.2⟩
    rw [truncateTo, if_pos hinside, Width.fit, if_pos hfit, saturate_round hf hx hfit]
  · have houtside : ¬ (f.le (f.negative (f.scaled 1 63)) x && f.lt x (f.scaled 1 63)) := by
      rw [Bool.and_eq_true]
      exact fun hinside => hfit ⟨hleast.mpr hinside.1, hgreatest.mpr hinside.2⟩
    rw [truncateTo, if_neg houtside, if_neg hx, Width.fit, if_neg hfit]

/-- For a number, the comparisons with the bounds of the target decide. The formats have room for
these bounds, or for the next pattern. -/
theorem truncateTo_of_not_isNaN (hroom : 64 + f.bias + 1 < 2 ^ f.exponentBits)
    (hfraction : f.fractionBits ≤ 63) (hint : 32 ≤ f.fractionBits) (target : Width)
    (signed : Bool) : f.truncateTo target signed x = target.fit signed (f.truncate x) := by
  have hpow : 2 ^ 33 ≤ 2 ^ (f.fractionBits + 1) := Nat.pow_le_pow_right two_pos (by omega)
  match target, signed with
  | .w64, true => exact truncateTo_long hf hx hroom hfraction
  | .w64, false | .w32, true | .w32, false =>
    exact saturate_truncateBetween_limits hf hx hroom _ _ (lt_of_lt_of_le (by decide) hpow)

omit hx in
/-- An infinity is beyond all integers. -/
theorem fit_of_isInfinite (hroom : 64 + f.bias + 1 < 2 ^ f.exponentBits) (hx : f.isInfinite x)
    (target : Width) (signed : Bool) :
    target.fit signed (f.truncate x) = .error .integerOverflow := by
  have hunit : (0 : ℤ) ≤ f.unit := Int.natCast_nonneg _
  have hmagnitude : f.magnitude x = f.infinity := of_decide_eq_true hx
  obtain ⟨hpower, hsteps⟩ := hf.steps_power hroom
  -- The format has a number beyond every integer, and infinity has more steps than that.
  have hinfinity := f.steps_strictMono hpower
  rw [hsteps, ← hmagnitude] at hinfinity
  have hleast := le_truncate_iff hf x target signed
  have hgreatest := truncate_le_iff hf x target signed
  have hlow : -2 ^ 64 * (f.unit : ℤ) ≤ (target.least signed - 1) * f.unit :=
    mul_le_mul_of_nonneg_right (by cases target <;> cases signed <;> decide) hunit
  have hhigh : (target.greatest signed + 1) * (f.unit : ℤ) ≤ 2 ^ 64 * f.unit :=
    mul_le_mul_of_nonneg_right (by cases target <;> cases signed <;> decide) hunit
  have hbeyond :
      ¬ (target.least signed ≤ f.truncate x ∧ f.truncate x ≤ target.greatest signed) := by
    rw [hleast, hgreatest, signedSteps]
    split <;> omega
  rw [Width.fit, if_neg hbeyond]

omit hf hx in
/-- A NaN is refused first. -/
theorem truncateTo_of_isNaN (hx : f.isNaN x) (target : Width) (signed : Bool) :
    f.truncateTo target signed x = .error .invalidConversionToInteger := by
  match target, signed with
  | .w64, true => simp [truncateTo, le, ordered, hx]
  | .w64, false | .w32, true | .w32, false =>
    simp [truncateTo, truncateBetween, hx]

end Fit

/-- Truncation of 64-bit floats in terms of the numbers they stand for. -/
theorem truncateTo_eq (target : Width) (signed : Bool) (x : Nat) :
    binary64.truncateTo target signed x = (binary64.datum x).truncated target.bits signed := by
  have hf := regular_binary64
  have hroom : 64 + binary64.bias + 1 < 2 ^ binary64.exponentBits := by decide
  rw [hf.datum_eq]
  by_cases hnan : binary64.isNaN x
  · rw [if_pos hnan, truncateTo_of_isNaN hnan]
    rfl
  · rw [if_neg hnan, truncateTo_of_not_isNaN hf hnan hroom (by decide) (by decide)]
    by_cases hinfinite : binary64.isInfinite x
    · rw [if_pos hinfinite, fit_of_isInfinite hf hroom hinfinite]
      rfl
    · rw [if_neg hinfinite, binary64.truncate_eq_tdiv hf.unit_exponent, Datum.truncated,
        towardZero_div _ binary64.unit_pos, Width.fit, Width.least_eq, Width.greatest_eq]

/-- Half below the least integer still leads to it. -/
example : binary64.truncateTo .w32 true 0xC1E0000000100000 = .ok (-2147483648) := by
  decide +kernel

end FloatFormat

/-! ## Instructions -/

/-- The opcodes of truncations, by the width of the float, that of the integer and its sign. -/
def truncationOpcode : Width → Width → Bool → UInt8
  | .w32, .w32, true => 0xA8
  | .w32, .w32, false => 0xA9
  | .w64, .w32, true => 0xAA
  | .w64, .w32, false => 0xAB
  | .w32, .w64, true => 0xAE
  | .w32, .w64, false => 0xAF
  | .w64, .w64, true => 0xB0
  | .w64, .w64, false => 0xB1

theorem ofByte?_truncationOpcode (source target : Width) (signed : Bool) :
    NumericOp.ofByte? (truncationOpcode source target signed) =
      some (.unary (.conversion (.truncate source target signed))) := by
  cases source <;> cases target <;> cases signed <;> decide +kernel

/-- A 32-bit float stands for the same number in the format of 64-bit floats. -/
theorem Width.datum_pattern64 (w : Width) (c : UInt64) :
    FloatFormat.binary64.datum (w.pattern64 c) = w.format.datum (w.low c) := by
  cases w with
  | w32 =>
    rw [pattern64, FloatFormat.datum_widen FloatFormat.widens_binary64
      FloatFormat.regular_binary32 FloatFormat.regular_binary64, pattern, Nat.one_shiftLeft]
    rfl
  | w64 =>
    rw [pattern64, pattern, Nat.one_shiftLeft]
    rfl

/-- Truncation is exact for every 64-bit float, and the instructions truncate the numbers that
floats of either width stand for. -/
theorem truncation_exact :
    (∀ (target : Width) (signed : Bool) (x : UInt64),
      FloatFormat.binary64.truncateTo target signed x.toNat =
        (FloatFormat.binary64.datum x.toNat).truncated target.bits signed) ∧
    ∀ (source target : Width) (signed : Bool),
      Instr.Unary (truncationOpcode source target signed) fun c => do
        return target.reduced
          (← (source.format.datum (source.low c)).truncated target.bits signed) := by
  constructor
  · intro target signed x
    exact FloatFormat.truncateTo_eq target signed x.toNat
  · intro source target signed
    apply Instr.unary_of_eval (ofByte?_truncationOpcode source target signed)
    intro c
    simp only [UnaryOp.eval, Conversion.eval, FloatFormat.truncateTo_eq, Width.datum_pattern64,
      Width.toCell_ofInt]

end Wasm
