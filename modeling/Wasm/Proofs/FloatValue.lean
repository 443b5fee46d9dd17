import Mathlib
import Wasm.Numeric.Conversion

/-!
# Wasm.Proofs.FloatValue

The numbers that floating-point patterns stand for.

* `FloatFormat.datum` reads a pattern as a NaN, an infinity, or a rational number.
* `FloatFormat.steps` counts a magnitude in the least numbers of the format. It is strictly
  monotone, so comparing patterns is comparing numbers (`le_iff`, `lt_iff`), and truncating a
  pattern is a division of its steps (`truncate_eq_tdiv`). `Regular.datum_eq` ties both readings
  together.
* `steps_scaled` and `datum_widen` say that patterns made from a significand and an exponent stand
  for the number they should.
-/

namespace Wasm.FloatFormat

/-- What a pattern stands for. -/
inductive Datum where
  | nan
  | infinite
  | number (q : ℚ)

/-- A sign bit, an exponent field and a fraction field stand for
`± 1.fraction * 2 ^ (field - bias)`; the field zero is that of the numbers
`± 0.fraction * 2 ^ (1 - bias)`, and the greatest one that of infinities and NaNs. -/
def datum (f : FloatFormat) (x : Nat) : Datum :=
  let sign : ℚ := if x < 2 ^ (f.exponentBits + f.fractionBits) then 1 else -1
  let field := x / 2 ^ f.fractionBits % 2 ^ f.exponentBits
  let fraction := x % 2 ^ f.fractionBits
  let bias : ℤ := 2 ^ (f.exponentBits - 1) - 1
  if field = 2 ^ f.exponentBits - 1 then if fraction = 0 then .infinite else .nan
  else if field = 0 then .number (sign * (fraction / 2 ^ f.fractionBits) * 2 ^ (1 - bias))
  else .number (sign * (1 + fraction / 2 ^ f.fractionBits) * 2 ^ (field - bias))

variable (f : FloatFormat)

/-! ## Fields -/

/-- The sign is the bit above the two other fields. -/
theorem signWeight_eq : f.signWeight = 2 ^ f.fractionBits * 2 ^ f.exponentBits := by
  rw [signWeight, Nat.one_shiftLeft, Nat.add_comm, Nat.pow_add]

/-- Infinity has all bits of the exponent field and no fraction. -/
theorem infinity_eq : f.infinity = (2 ^ f.exponentBits - 1) * 2 ^ f.fractionBits := by
  rw [infinity, Nat.one_shiftLeft, Nat.shiftLeft_eq]

/-- Without its sign, a pattern has the bits of two fields. -/
theorem magnitude_lt (x : Nat) : f.magnitude x < 2 ^ f.fractionBits * 2 ^ f.exponentBits := by
  rw [magnitude, signWeight_eq]
  exact Nat.mod_lt _ (by positivity)

theorem exponentField_eq (x : Nat) :
    f.exponentField x = x / 2 ^ f.fractionBits % 2 ^ f.exponentBits := by
  rw [exponentField, magnitude, signWeight_eq, Nat.shiftRight_eq_div_pow,
    Nat.mod_mul_right_div_self]

/-- The field is the same with and without the sign. -/
theorem exponentField_eq_div (x : Nat) :
    f.exponentField x = f.magnitude x / 2 ^ f.fractionBits := by
  rw [exponentField, Nat.shiftRight_eq_div_pow]

theorem fraction_eq (x : Nat) : f.fraction x = x % 2 ^ f.fractionBits := by
  rw [fraction, Nat.one_shiftLeft]

theorem fraction_lt (x : Nat) : f.fraction x < 2 ^ f.fractionBits := by
  rw [fraction_eq]
  exact Nat.mod_lt _ (Nat.two_pow_pos _)

/-- So is the fraction. -/
theorem fraction_eq_mod (x : Nat) : f.fraction x = f.magnitude x % 2 ^ f.fractionBits := by
  rw [fraction_eq, magnitude, signWeight_eq, Nat.mod_mul_right_mod]

/-- The sign is the highest bit. -/
theorem isNegative_iff (x : Nat) :
    f.isNegative x ↔ ¬ x < 2 ^ (f.exponentBits + f.fractionBits) := by
  simp [isNegative, signWeight, Nat.one_shiftLeft]

/-- The greatest exponent field is that of NaNs and infinities. -/
theorem infinity_le_magnitude_iff (x : Nat) :
    f.infinity ≤ f.magnitude x ↔ f.exponentField x = 2 ^ f.exponentBits - 1 := by
  have hlt : f.magnitude x / 2 ^ f.fractionBits < 2 ^ f.exponentBits :=
    Nat.div_lt_of_lt_mul (f.magnitude_lt x)
  rw [infinity_eq, exponentField_eq_div, ← Nat.le_div_iff_mul_le (by positivity)]
  omega

/-- A magnitude is made of its fields. -/
theorem magnitude_eq (x : Nat) :
    f.magnitude x = f.exponentField x * 2 ^ f.fractionBits + f.fraction x := by
  rw [exponentField_eq_div, fraction_eq_mod, Nat.div_add_mod']

/-- A pattern is infinite if its exponent field is full and its fraction empty. -/
theorem isInfinite_iff (x : Nat) :
    f.isInfinite x ↔ f.exponentField x = 2 ^ f.exponentBits - 1 ∧ f.fraction x = 0 := by
  have hmagnitude := f.magnitude_eq x
  have hfield := f.infinity_le_magnitude_iff x
  have hinfinity := f.infinity_eq
  rw [isInfinite, decide_eq_true_eq]
  constructor
  · intro heq
    have hfield := hfield.mp heq.ge
    rw [hfield] at hmagnitude
    exact ⟨hfield, by omega⟩
  · rintro ⟨hfield, hfraction⟩
    rw [hfield] at hmagnitude
    omega

/-- With anything in the fraction, it is a NaN. -/
theorem isNaN_iff (x : Nat) :
    f.isNaN x ↔ f.exponentField x = 2 ^ f.exponentBits - 1 ∧ f.fraction x ≠ 0 := by
  have hfield := f.infinity_le_magnitude_iff x
  have hinfinite := f.isInfinite_iff x
  rw [isInfinite, decide_eq_true_eq] at hinfinite
  rw [isNaN, decide_eq_true_eq, Nat.lt_iff_le_and_ne, hfield, ne_comm, ne_eq, hinfinite]
  tauto

/-! ## Magnitudes in steps -/

/-- How many of the least numbers of the format make up the number of a magnitude. -/
def steps (m : Nat) : Nat :=
  (if m / 2 ^ f.fractionBits = 0 then m % 2 ^ f.fractionBits
    else m % 2 ^ f.fractionBits + 2 ^ f.fractionBits) * 2 ^ (m / 2 ^ f.fractionBits - 1)

/-- How many of the least numbers of the format make up one. -/
def unit : Nat := 2 ^ (f.bias + f.fractionBits - 1)

/-- The number of a pattern in steps. -/
def signedSteps (x : Nat) : ℤ :=
  if f.isNegative x then -(f.steps (f.magnitude x) : ℤ) else f.steps (f.magnitude x)

theorem unit_pos : 0 < f.unit := Nat.two_pow_pos _

/-- Magnitudes with the same exponent field are evenly spaced, and the next field begins one space
after them. -/
theorem steps_lt_succ (m : Nat) : f.steps m < f.steps (m + 1) := by
  have hpos : 0 < 2 ^ f.fractionBits := Nat.two_pow_pos _
  have hmod := Nat.mod_lt m hpos
  have hdiv := Nat.div_add_mod m (2 ^ f.fractionBits)
  simp only [steps]
  generalize 2 ^ f.fractionBits = w at *
  by_cases hlast : m % w + 1 = w
  · have hnext : m + 1 = w * (m / w + 1) := by
      rw [Nat.mul_add]
      omega
    have hfield : (m + 1) / w = m / w + 1 := by rw [hnext, Nat.mul_div_cancel_left _ hpos]
    have hfraction : (m + 1) % w = 0 := by rw [hnext, Nat.mul_mod_right]
    rw [hfield, hfraction]
    cases hE : m / w with
    | zero => simp [hmod]
    | succ E =>
      have hpow : 0 < 2 ^ E := Nat.two_pow_pos E
      simp [Nat.pow_succ]
      nlinarith
  · have hnext : m + 1 = (m % w + 1) + w * (m / w) := by omega
    have hfield : (m + 1) / w = m / w := by
      rw [hnext, Nat.add_mul_div_left _ _ hpos, Nat.div_eq_of_lt (by omega), Nat.zero_add]
    have hfraction : (m + 1) % w = m % w + 1 := by
      rw [hnext, Nat.add_mul_mod_self_left, Nat.mod_eq_of_lt (by omega)]
    rw [hfield, hfraction]
    apply Nat.mul_lt_mul_of_pos_right _ (Nat.two_pow_pos _)
    split <;> omega

/-- Magnitudes are ordered as their patterns are; so a comparison of patterns is one of numbers. -/
theorem steps_strictMono : StrictMono f.steps := strictMono_nat_of_lt_succ f.steps_lt_succ

@[simp]
theorem steps_zero : f.steps 0 = 0 := by simp [steps]

/-- The number of steps by significand and exponent. Subnormal numbers share the exponent of the
smallest normal ones, which is why one is subtracted. -/
theorem steps_magnitude (x : Nat) :
    f.steps (f.magnitude x) = f.significand x * 2 ^ (f.exponentField x - 1) := by
  rw [steps, ← exponentField_eq_div, ← fraction_eq_mod, significand, Nat.one_shiftLeft]

/-! ## Order -/

/-- Patterns are ordered as their numbers are. -/
theorem valueKey_le_iff (x y : Nat) : f.valueKey x ≤ f.valueKey y ↔
    f.signedSteps x ≤ f.signedSteps y := by
  have hmono := f.steps_strictMono
  have hx := hmono.le_iff_le (a := f.magnitude x) (b := f.magnitude y)
  have hy := hmono.le_iff_le (a := f.magnitude y) (b := f.magnitude x)
  have hx0 := hmono.le_iff_le (a := f.magnitude x) (b := 0)
  have hy0 := hmono.le_iff_le (a := f.magnitude y) (b := 0)
  rw [steps_zero] at hx0 hy0
  simp only [valueKey, signedSteps]
  split <;> split <;> omega

/-- Numbers and infinities compare by signed steps. Both zeros have none. -/
theorem le_iff (hx : ¬ f.isNaN x) (hy : ¬ f.isNaN y) :
    f.le x y ↔ f.signedSteps x ≤ f.signedSteps y := by
  simp [le, ordered, hx, hy, valueKey_le_iff]

/-- The same for the strict order. -/
theorem lt_iff (hx : ¬ f.isNaN x) (hy : ¬ f.isNaN y) :
    f.lt x y ↔ f.signedSteps x < f.signedSteps y := by
  rw [← not_le, ← valueKey_le_iff]
  simp [lt, ordered, hx, hy]

/-! ## Truncation -/

/-- The exponent, with that of the numbers below the normal ones. -/
theorem exponent_eq (x : Nat) :
    f.exponent x = (f.exponentField x - 1 + 1 : Nat) - f.bias - f.fractionBits := by
  have hmax : Nat.max 1 (f.exponentField x) = f.exponentField x - 1 + 1 := by
    cases f.exponentField x with
    | zero => rfl
    | succ field => exact Nat.max_eq_right (by omega)
  rw [exponent, hmax]

/-- The integral part of a magnitude. -/
theorem shift_significand (h : 0 < f.bias + f.fractionBits) (x : Nat) :
    (if 0 ≤ f.exponent x then f.significand x <<< (f.exponent x).toNat
      else f.significand x >>> (-f.exponent x).toNat) = f.steps (f.magnitude x) / f.unit := by
  have hexponent := f.exponent_eq x
  rw [steps_magnitude, unit]
  generalize f.exponentField x - 1 = k at *
  by_cases hsign : 0 ≤ f.exponent x
  · have hk : k = (f.exponent x).toNat + (f.bias + f.fractionBits - 1) := by omega
    rw [if_pos hsign, Nat.shiftLeft_eq]
    conv_rhs => rw [hk, Nat.pow_add, ← Nat.mul_assoc]
    rw [Nat.mul_div_cancel _ (Nat.two_pow_pos _)]
  · have hk : f.bias + f.fractionBits - 1 = (-f.exponent x).toNat + k := by omega
    rw [if_neg hsign, Nat.shiftRight_eq_div_pow, hk, Nat.pow_add,
      Nat.mul_div_mul_right _ _ (Nat.two_pow_pos k)]

/-- Truncation divides the steps by those that make up one, and drops the rest. -/
theorem truncate_eq_tdiv (h : 0 < f.bias + f.fractionBits) (x : Nat) :
    f.truncate x = (f.signedSteps x).tdiv f.unit := by
  simp only [truncate, f.shift_significand h, signedSteps]
  split
  · rw [Int.neg_tdiv, Int.ofNat_tdiv]
  · rw [Int.ofNat_tdiv]

/-! ## Patterns from a significand and an exponent -/

section Scaled

variable {f} {n : Nat} {k : ℤ} {field : Nat}

/-- A significand with its leading bit moved to where the format has it. -/
theorem shifted_bounds (hn : n ≠ 0) (hlog : n.log2 ≤ f.fractionBits) :
    2 ^ f.fractionBits ≤ n * 2 ^ (f.fractionBits - n.log2) ∧
      n * 2 ^ (f.fractionBits - n.log2) < 2 ^ f.fractionBits + 2 ^ f.fractionBits := by
  have hpow : 2 ^ f.fractionBits = 2 ^ n.log2 * 2 ^ (f.fractionBits - n.log2) := by
    rw [← Nat.pow_add, Nat.add_sub_cancel' hlog]
  have hlow := Nat.log2_self_le hn
  have hhigh := Nat.lt_log2_self (n := n)
  have hpos := Nat.two_pow_pos (f.fractionBits - n.log2)
  rw [Nat.pow_succ] at hhigh
  rw [hpow]
  constructor
  · exact Nat.mul_le_mul_right _ hlow
  · nlinarith

/-- The pattern of a significand times a power of two. The hidden bit of the significand carries
into the exponent field. -/
theorem scaled_eq (hn : n ≠ 0) (hfield : (field : ℤ) = n.log2 + k + f.bias - 1) :
    f.scaled n k = field * 2 ^ f.fractionBits + n * 2 ^ (f.fractionBits - n.log2) := by
  rw [scaled, if_neg hn, ← hfield, Int.toNat_natCast, Nat.shiftLeft_eq, Nat.shiftLeft_eq]

/-- The leading bit counts as one more in the exponent field. -/
theorem div_scaled (hn : n ≠ 0) (hlog : n.log2 ≤ f.fractionBits)
    (hfield : (field : ℤ) = n.log2 + k + f.bias - 1) :
    f.scaled n k / 2 ^ f.fractionBits = field + 1 := by
  have hbounds := shifted_bounds hn hlog
  have hpos : 0 < 2 ^ f.fractionBits := Nat.two_pow_pos _
  rw [scaled_eq hn hfield, Nat.add_comm, Nat.add_mul_div_right _ _ hpos, Nat.add_comm,
    Nat.div_eq_of_lt_le (k := 1) (by omega) (by omega)]

/-- It has as many steps as it should. -/
theorem steps_scaled (hn : n ≠ 0) (hlog : n.log2 ≤ f.fractionBits)
    (hfield : (field : ℤ) = n.log2 + k + f.bias - 1) :
    f.steps (f.scaled n k) = n * 2 ^ (f.fractionBits - n.log2 + field) := by
  have hbounds := shifted_bounds hn hlog
  have hpos : 0 < 2 ^ f.fractionBits := Nat.two_pow_pos _
  have hmod := Nat.div_add_mod (f.scaled n k) (2 ^ f.fractionBits)
  have hdiv := div_scaled hn hlog hfield
  have hsum : f.scaled n k % 2 ^ f.fractionBits + 2 ^ f.fractionBits =
      n * 2 ^ (f.fractionBits - n.log2) := by
    rw [hdiv, Nat.mul_add, Nat.mul_comm, scaled_eq hn hfield] at hmod
    rw [scaled_eq hn hfield]
    omega
  rw [steps, hdiv, if_neg (Nat.succ_ne_zero field), hsum, Nat.add_sub_cancel, Nat.mul_assoc,
    ← Nat.pow_add]

/-- A normal number is below infinity. -/
theorem scaled_lt_infinity (hn : n ≠ 0) (hlog : n.log2 ≤ f.fractionBits)
    (hfield : (field : ℤ) = n.log2 + k + f.bias - 1) (hbound : field + 2 < 2 ^ f.exponentBits) :
    f.scaled n k < f.infinity := by
  have hdiv := div_scaled hn hlog hfield
  rw [infinity_eq, ← Nat.div_lt_iff_lt_mul (Nat.two_pow_pos _)]
  omega

end Scaled

/-! ## Signs -/

theorem infinity_lt_signWeight : f.infinity < f.signWeight := by
  have hpos := Nat.two_pow_pos f.exponentBits
  rw [infinity_eq, signWeight_eq, Nat.mul_comm]
  exact Nat.mul_lt_mul_of_pos_left (by omega) (Nat.two_pow_pos _)

section Signed

variable {f} {m : Nat} (negative : Bool)

/-- A sign in front of a magnitude leaves the magnitude. -/
theorem magnitude_signed (h : m < f.signWeight) :
    f.magnitude ((if negative then f.signWeight else 0) + m) = m := by
  cases negative <;> simp [magnitude, Nat.mod_eq_of_lt h]

/-- It is the sign of the pattern. -/
theorem isNegative_signed (h : m < f.signWeight) :
    f.isNegative ((if negative then f.signWeight else 0) + m) = negative := by
  cases negative <;> simp [isNegative, h]

theorem isNaN_signed (h : m < f.signWeight) :
    f.isNaN ((if negative then f.signWeight else 0) + m) = decide (f.infinity < m) := by
  rw [isNaN, magnitude_signed negative h]

theorem isInfinite_signed (h : m < f.signWeight) :
    f.isInfinite ((if negative then f.signWeight else 0) + m) = decide (m = f.infinity) := by
  rw [isInfinite, magnitude_signed negative h]

/-- A sign in front negates the steps. -/
theorem signedSteps_signed (h : m < f.signWeight) :
    f.signedSteps ((if negative then f.signWeight else 0) + m) =
      if negative then -(f.steps m : ℤ) else f.steps m := by
  rw [signedSteps, isNegative_signed negative h, magnitude_signed negative h]

end Signed

/-! ## Integers -/

/-- The integers that the significand holds are normal numbers of the format. -/
structure Regular : Prop where
  bias_pos : 0 < f.bias
  room : f.bias + f.fractionBits + 1 < 2 ^ f.exponentBits

variable {f}

theorem Regular.unit_exponent (hf : f.Regular) : 0 < f.bias + f.fractionBits :=
  Nat.add_pos_left hf.bias_pos _

/-- The field that goes with an integral exponent, before the leading bit is added. -/
theorem Regular.field_eq (hf : f.Regular) (n k : Nat) :
    ((n.log2 + k + f.bias - 1 : Nat) : ℤ) = n.log2 + (k : ℤ) + f.bias - 1 := by
  have hbias := hf.bias_pos
  omega

/-- In a regular format the pattern stands for the integer that it was made from. -/
theorem Regular.steps_scaled (hf : f.Regular) (hn : n ≠ 0) (hlog : n.log2 ≤ f.fractionBits)
    (k : Nat) : f.steps (f.scaled n k) = n * 2 ^ k * f.unit := by
  have hbias := hf.bias_pos
  have hexponent : f.fractionBits - n.log2 + (n.log2 + k + f.bias - 1) =
      k + (f.bias + f.fractionBits - 1) := by omega
  rw [FloatFormat.steps_scaled hn hlog (hf.field_eq n k), hexponent, unit, Nat.pow_add,
    Nat.mul_assoc]

/-- An integer whose bits the exponent has room for does not become infinite. -/
theorem Regular.scaled_lt_infinity (hf : f.Regular) (hn : n ≠ 0) (hlog : n.log2 ≤ f.fractionBits)
    (hbound : n.log2 + k + f.bias + 1 < 2 ^ f.exponentBits) : f.scaled n k < f.infinity := by
  have hbias := hf.bias_pos
  exact FloatFormat.scaled_lt_infinity hn hlog (hf.field_eq n k) (by omega)

/-- The pattern of an integer stands for it. -/
theorem Regular.steps_ofNat (hf : f.Regular) (hn : n < 2 ^ (f.fractionBits + 1)) :
    f.steps (f.ofNat n) = n * f.unit ∧ f.ofNat n < f.infinity := by
  have hroom := hf.room
  by_cases h0 : n = 0
  · have hpos : 0 < f.infinity := by
      rw [infinity_eq]
      exact Nat.mul_pos (by omega) (Nat.two_pow_pos _)
    simp [h0, ofNat, scaled, hpos]
  · have hlog : n.log2 ≤ f.fractionBits := Nat.le_of_lt_succ ((Nat.log2_lt h0).mpr hn)
    have hsteps := hf.steps_scaled h0 hlog 0
    rw [Nat.pow_zero, Nat.mul_one] at hsteps
    exact ⟨hsteps, hf.scaled_lt_infinity (k := 0) h0 hlog (by omega)⟩

/-- A significand has the fraction and the hidden bit. -/
theorem significand_lt (x : Nat) : f.significand x < 2 ^ (f.fractionBits + 1) := by
  have hfraction := f.fraction_lt x
  rw [significand, Nat.one_shiftLeft, Nat.pow_succ]
  split <;> omega

/-- A pattern with an integral number. -/
theorem Regular.truncate_signed (hf : f.Regular) (negative : Bool)
    (hn : n < 2 ^ (f.fractionBits + 1)) :
    ¬ f.isNaN ((if negative then f.signWeight else 0) + f.ofNat n) ∧
      f.truncate ((if negative then f.signWeight else 0) + f.ofNat n) =
        if negative then -(n : ℤ) else n := by
  obtain ⟨hsteps, hlt⟩ := hf.steps_ofNat hn
  have hweight := Nat.lt_trans hlt f.infinity_lt_signWeight
  have hunit : (f.unit : ℤ) ≠ 0 := by exact_mod_cast f.unit_pos.ne'
  constructor
  · simp [isNaN_signed negative hweight, hlt.le]
  · rw [f.truncate_eq_tdiv hf.unit_exponent, signedSteps_signed negative hweight, hsteps]
    cases negative <;> simp [Int.neg_tdiv, Int.mul_tdiv_cancel _ hunit]

/-- Rounding toward zero keeps the integral part. -/
theorem Regular.truncate_round (hf : f.Regular) (hx : ¬ f.isNaN x) :
    ¬ f.isNaN (f.round .trunc x) ∧ f.truncate (f.round .trunc x) = f.truncate x := by
  rw [round, if_neg hx]
  by_cases hwhole : f.isInfinite x || 0 ≤ f.exponent x
  · rw [if_pos hwhole]
    exact ⟨hx, rfl⟩
  · have hexponent : ¬ 0 ≤ f.exponent x := fun h => hwhole (by simp [h])
    have hlt : f.significand x / 2 ^ (-f.exponent x).toNat < 2 ^ (f.fractionBits + 1) :=
      Nat.lt_of_le_of_lt (Nat.div_le_self _ _) (significand_lt x)
    have hsigned := hf.truncate_signed (f.isNegative x) hlt
    simp only [if_neg hwhole, Rounding.up, Bool.false_eq_true, if_false, Nat.one_shiftLeft, signOf]
    refine ⟨hsigned.1, hsigned.2.trans ?_⟩
    simp only [truncate, if_neg hexponent, Nat.shiftRight_eq_div_pow]

/-! ## Rational numbers -/

/-- The bias, as an integer. -/
theorem bias_cast : (2 ^ (f.exponentBits - 1) - 1 : ℤ) = f.bias := by
  have hpos := Nat.one_le_two_pow (n := f.exponentBits - 1)
  rw [bias, Nat.one_shiftLeft, Nat.cast_sub hpos]
  norm_num

/-- How many steps make up one, as a rational number. -/
theorem Regular.unit_cast (hf : f.Regular) :
    (f.unit : ℚ) * 2 = 2 ^ f.bias * 2 ^ f.fractionBits := by
  have hpos := hf.unit_exponent
  have hunit : f.unit * 2 = 2 ^ f.bias * 2 ^ f.fractionBits := by
    rw [unit, ← Nat.pow_succ, ← Nat.pow_add, Nat.succ_eq_add_one, Nat.sub_add_cancel hpos]
  exact_mod_cast hunit

/-- The number of a magnitude, by its fields. -/
theorem Regular.steps_div_unit (hf : f.Regular) (x : Nat) :
    (f.steps (f.magnitude x) : ℚ) / f.unit =
      if f.exponentField x = 0 then
        (f.fraction x : ℚ) / 2 ^ f.fractionBits * 2 ^ (1 - f.bias : ℤ)
      else
        (1 + (f.fraction x : ℚ) / 2 ^ f.fractionBits) * 2 ^ (f.exponentField x - f.bias : ℤ) := by
  have hunit := hf.unit_cast
  have hpos : (f.unit : ℚ) ≠ 0 := by exact_mod_cast f.unit_pos.ne'
  rw [steps_magnitude, significand, Nat.one_shiftLeft]
  by_cases hfield : f.exponentField x = 0
  · rw [if_pos hfield, if_pos hfield, hfield, zpow_sub₀ two_ne_zero, zpow_natCast]
    field_simp
    push_cast
    linear_combination (f.fraction x : ℚ) * -hunit
  · have hsucc : ∃ k, f.exponentField x = k + 1 := Nat.exists_eq_succ_of_ne_zero hfield
    obtain ⟨k, hk⟩ := hsucc
    rw [if_neg hfield, if_neg hfield, hk, Nat.add_sub_cancel, zpow_sub₀ two_ne_zero, zpow_natCast,
      zpow_natCast, pow_succ]
    field_simp
    push_cast
    linear_combination ((2 : ℚ) ^ f.fractionBits + f.fraction x) * 2 ^ k * -hunit

/-- What the fields of a pattern stand for, in steps. -/
theorem Regular.datum_eq (hf : f.Regular) (x : Nat) : f.datum x =
    if f.isNaN x then .nan else if f.isInfinite x then .infinite
    else .number (f.signedSteps x / f.unit) := by
  have hnan := f.isNaN_iff x
  have hinfinite := f.isInfinite_iff x
  have hnegative := f.isNegative_iff x
  have hvalue := hf.steps_div_unit x
  simp only [datum, bias_cast, ← exponentField_eq, ← fraction_eq]
  by_cases hspecial : f.exponentField x = 2 ^ f.exponentBits - 1
  · by_cases hfraction : f.fraction x = 0
    · simp [hspecial, hfraction, hnan, hinfinite]
    · simp [hspecial, hfraction, hnan]
  · have hfinite : ¬ f.isInfinite x := fun h => hspecial (hinfinite.mp h).1
    have hnumber : ¬ f.isNaN x := fun h => hspecial (hnan.mp h).1
    have hsign : (f.signedSteps x : ℚ) / f.unit =
        (if x < 2 ^ (f.exponentBits + f.fractionBits) then 1 else -1) *
          (f.steps (f.magnitude x) / f.unit) := by
      by_cases hx : f.isNegative x
      · simp [signedSteps, hx, hnegative.mp hx, neg_div]
      · simp [signedSteps, hx, not_not.mp (mt hnegative.mpr hx)]
    rw [if_neg hspecial, if_neg hnumber, if_neg hfinite, hsign, hvalue]
    by_cases hfield : f.exponentField x = 0
    · simp only [if_pos hfield, mul_assoc]
    · simp only [if_neg hfield, mul_assoc]

/-! ## Wider formats -/

/-- All numbers of a format are normal numbers of another one. -/
structure Widens (f g : FloatFormat) : Prop where
  fraction_pos : 0 < g.fractionBits
  fraction_le : f.fractionBits ≤ g.fractionBits
  bias_le : f.bias + f.fractionBits ≤ g.bias
  room : 2 ^ f.exponentBits + g.bias < 2 ^ g.exponentBits + f.bias

/-- A quiet NaN has the quiet bit in its fraction. -/
theorem quiet_bounds (hfraction : 0 < f.fractionBits) (hpos : 0 < t)
    (hlt : t < 2 ^ f.fractionBits) :
    f.infinity < f.quiet (f.infinity + t) ∧ f.quiet (f.infinity + t) < f.signWeight := by
  have hbit : 2 ^ f.fractionBits = 2 * f.quietBit := by
    rw [quietBit, Nat.one_shiftLeft, ← Nat.pow_succ', Nat.succ_eq_add_one,
      Nat.sub_add_cancel hfraction]
  have hweight : f.signWeight = f.infinity + 2 ^ f.fractionBits := by
    have hone := Nat.one_le_two_pow (n := f.exponentBits)
    rw [signWeight_eq, infinity_eq, ← Nat.succ_mul, Nat.succ_eq_add_one, Nat.sub_add_cancel hone,
      Nat.mul_comm]
  have ht : f.fraction (f.infinity + t) = t := by
    rw [fraction_eq, infinity_eq, Nat.add_comm, Nat.add_mul_mod_self_right, Nat.mod_eq_of_lt hlt]
  rw [quiet, ht]
  split
  · omega
  · next hquiet =>
    have hsmall : t < f.quietBit := by
      by_contra hge
      have hone : t / f.quietBit = 1 := Nat.div_eq_of_lt_le (by omega) (by omega)
      exact hquiet (by rw [hone])
    omega

section Widen

variable {g : FloatFormat}

/-- A NaN stays one in a wider format. -/
theorem isNaN_widen (h : Widens f g) (hx : f.isNaN x) : g.isNaN (f.widen g x) := by
  have hpos := Nat.two_pow_pos (g.fractionBits - f.fractionBits)
  have hfraction : 0 < f.fraction x * 2 ^ (g.fractionBits - f.fractionBits) :=
    Nat.mul_pos (Nat.pos_of_ne_zero ((f.isNaN_iff x).mp hx).2) hpos
  have hlt : f.fraction x * 2 ^ (g.fractionBits - f.fractionBits) < 2 ^ g.fractionBits := by
    rw [← Nat.add_sub_cancel' h.fraction_le, Nat.pow_add, Nat.add_sub_cancel_left]
    exact Nat.mul_lt_mul_of_pos_right (f.fraction_lt x) hpos
  have hquiet := quiet_bounds h.fraction_pos hfraction hlt
  rw [widen, if_pos hx, Nat.shiftLeft_eq, isNaN_signed _ hquiet.2]
  exact decide_eq_true hquiet.1

/-- A number of the format has a number of the wider one, in whose steps it is as much. -/
theorem steps_widen (h : Widens f g) (hf : f.Regular) (hg : g.Regular)
    (hfinite : f.magnitude x < f.infinity) :
    g.scaled (f.significand x) (f.exponent x) < g.infinity ∧
      g.steps (g.scaled (f.significand x) (f.exponent x)) * f.unit =
        f.steps (f.magnitude x) * g.unit := by
  have hexponent := f.exponent_eq x
  have hfield : f.exponentField x < 2 ^ f.exponentBits - 1 := by
    rwa [exponentField_eq_div, Nat.div_lt_iff_lt_mul (Nat.two_pow_pos _), ← infinity_eq]
  have hbias := h.bias_le
  have hroom := h.room
  have hunit := hf.unit_exponent
  rw [steps_magnitude]
  by_cases h0 : f.significand x = 0
  · have hpos : 0 < g.infinity := (Nat.zero_le _).trans_lt (hg.steps_ofNat (n := 0) (by simp)).2
    simp [h0, scaled, hpos]
  · have hlog : (f.significand x).log2 ≤ f.fractionBits :=
      Nat.le_of_lt_succ ((Nat.log2_lt h0).mpr (significand_lt x))
    obtain ⟨field, hscaled⟩ := Int.eq_ofNat_of_zero_le
      (show 0 ≤ ((f.significand x).log2 + f.exponent x + g.bias - 1 : ℤ) by omega)
    have hlog' := hlog.trans h.fraction_le
    constructor
    · exact scaled_lt_infinity h0 hlog' hscaled.symm (by omega)
    · have hpower : g.fractionBits - (f.significand x).log2 + field +
          (f.bias + f.fractionBits - 1) =
          f.exponentField x - 1 + (g.bias + g.fractionBits - 1) := by omega
      rw [FloatFormat.steps_scaled h0 hlog' hscaled.symm, unit, unit, Nat.mul_assoc, Nat.mul_assoc,
        ← Nat.pow_add, ← Nat.pow_add, hpower]

/-- Widening keeps what a pattern stands for. -/
theorem datum_widen (h : Widens f g) (hf : f.Regular) (hg : g.Regular) (x : Nat) :
    g.datum (f.widen g x) = f.datum x := by
  rw [hf.datum_eq, hg.datum_eq]
  by_cases hnan : f.isNaN x
  · rw [if_pos hnan, if_pos (isNaN_widen h hnan)]
  by_cases hinfinite : f.isInfinite x
  · have hwiden : f.widen g x = (if f.isNegative x then g.signWeight else 0) + g.infinity := by
      simp [widen, hnan, hinfinite]
    have hweight := g.infinity_lt_signWeight
    rw [hwiden, isNaN_signed _ hweight, isInfinite_signed _ hweight]
    simp [hnan, hinfinite]
  · have hfinite : f.magnitude x < f.infinity := by
      simp only [isNaN, isInfinite, decide_eq_true_eq] at hnan hinfinite
      omega
    -- The significands may differ, as a number below the normal ones becomes a normal one; the
    -- steps of both formats are compared instead.
    obtain ⟨hlt, hsteps⟩ := steps_widen h hf hg hfinite
    have hweight := hlt.trans g.infinity_lt_signWeight
    have hvalue : (g.steps (g.scaled (f.significand x) (f.exponent x)) : ℚ) / g.unit =
        f.steps (f.magnitude x) / f.unit := by
      have hfu : (f.unit : ℚ) ≠ 0 := by exact_mod_cast f.unit_pos.ne'
      have hgu : (g.unit : ℚ) ≠ 0 := by exact_mod_cast g.unit_pos.ne'
      rw [div_eq_div_iff hgu hfu]
      exact_mod_cast hsteps
    rw [widen, if_neg hnan, if_neg hinfinite, isNaN_signed _ hweight, isInfinite_signed _ hweight,
      signedSteps_signed _ hweight, signedSteps, decide_eq_false hlt.le.not_gt,
      decide_eq_false hlt.ne, if_neg hnan, if_neg hinfinite]
    cases f.isNegative x <;> simp [neg_div, hvalue]

end Widen

theorem regular_binary32 : binary32.Regular := by constructor <;> decide

theorem regular_binary64 : binary64.Regular := by constructor <;> decide

theorem widens_binary64 : Widens binary32 binary64 := by constructor <;> decide

end Wasm.FloatFormat
