import Wasm.Proofs.Arithmetic
import Wasm.Proofs.FloatValue

/-!
# Wasm.Proofs.MinMax

Minimum and maximum of floats are those of a total order.

* `Width.place?` says where a pattern stands: by the number it stands for, with the infinities at
  the ends, and among the two zeros by its sign. A NaN stands nowhere.
* `Width.Chooses`: an operation leaves one of its operands, the one that an operation on places
  chooses; with a NaN among them it leaves the canonical one. `Width.chooses_min` and
  `Width.chooses_max` say so of the instructions.
* No two patterns stand at one place (`Width.eq_of_place?`), so the laws of the order are laws of
  the operations, bit by bit.
-/

namespace Wasm

namespace FloatFormat

variable {f : FloatFormat}

/-! ## Numbers and infinities -/

/-- The number of a pattern, or one end of all numbers for an infinity. -/
def extended (f : FloatFormat) (x : Nat) : WithBot (WithTop ℚ) :=
  if f.isInfinite x then if f.isNegative x then ⊥ else (⊤ : WithTop ℚ)
  else ((f.signedSteps x / f.unit : ℚ) : WithTop ℚ)

/-- What is no NaN is at most infinite. -/
theorem magnitude_le_infinity (hx : ¬ f.isNaN x) : f.magnitude x ≤ f.infinity := by
  simpa [isNaN] using hx

/-- Only an infinity has as many steps as an infinity. -/
theorem steps_lt_infinity (hx : ¬ f.isNaN x) (hfinite : ¬ f.isInfinite x) :
    f.steps (f.magnitude x) < f.steps f.infinity := by
  apply f.steps_strictMono
  apply lt_of_le_of_ne (magnitude_le_infinity hx)
  simpa [isInfinite] using hfinite

/-- Infinity is not zero. -/
theorem Regular.steps_infinity_pos (hf : f.Regular) : 0 < f.steps f.infinity := by
  have hroom := hf.room
  have hfield : 0 < 2 ^ f.exponentBits - 1 := by omega
  rw [← f.steps_zero, f.steps_strictMono.lt_iff_lt, infinity_eq]
  positivity

/-- Patterns are ordered as their numbers are, also where these are infinite. -/
theorem Regular.extended_le_iff (hf : f.Regular) (hx : ¬ f.isNaN x) (hy : ¬ f.isNaN y) :
    f.extended x ≤ f.extended y ↔ f.signedSteps x ≤ f.signedSteps y := by
  have hpos := hf.steps_infinity_pos
  have hinfinite : ∀ {z}, f.isInfinite z → f.steps (f.magnitude z) = f.steps f.infinity := by
    intro z hz
    rw [of_decide_eq_true hz]
  by_cases hxinf : f.isInfinite x <;> by_cases hyinf : f.isInfinite y
  · have hxsteps := hinfinite hxinf
    have hysteps := hinfinite hyinf
    by_cases hxneg : f.isNegative x <;> by_cases hyneg : f.isNegative y <;>
      simp [extended, signedSteps, *]
    omega
  · have hxsteps := hinfinite hxinf
    have hylt := steps_lt_infinity hy hyinf
    by_cases hxneg : f.isNegative x <;> by_cases hyneg : f.isNegative y <;>
      simp [extended, signedSteps, *] <;> omega
  · have hxlt := steps_lt_infinity hx hxinf
    have hysteps := hinfinite hyinf
    by_cases hxneg : f.isNegative x <;> by_cases hyneg : f.isNegative y <;>
      simp [extended, signedSteps, *] <;> omega
  · have hunit : (0 : ℚ) < f.unit := by exact_mod_cast f.unit_pos
    simp [extended, hxinf, hyinf, div_le_div_iff_of_pos_right hunit]

/-- Orders all patterns but NaNs by value, negative zero below positive zero. -/
def orderKey (f : FloatFormat) (x : Nat) : Int :=
  if f.isNegative x then -(f.magnitude x : Int) - 1 else f.magnitude x

/-- The key refines the numbers by the sign, so that minus zero comes before zero. -/
theorem orderKey_eq (f : FloatFormat) (x : Nat) :
    f.orderKey x = f.valueKey x - if f.isNegative x then 1 else 0 := by
  rw [orderKey, valueKey]
  split <;> omega

/-- The key orders patterns by their numbers and then by their signs. -/
theorem Regular.orderKey_le_iff (hf : f.Regular) (hx : ¬ f.isNaN x) (hy : ¬ f.isNaN y) :
    f.orderKey x ≤ f.orderKey y ↔
      toLex (f.extended x, !f.isNegative x) ≤ toLex (f.extended y, !f.isNegative y) := by
  have hxy := f.valueKey_le_iff x y
  have hyx := f.valueKey_le_iff y x
  have hsigns : ¬ true ≤ false := by decide
  rw [← hf.extended_le_iff hx hy] at hxy
  rw [← hf.extended_le_iff hy hx] at hyx
  rw [Prod.Lex.toLex_le_toLex, lt_iff_le_not_ge, le_antisymm_iff, ← hxy, ← hyx]
  by_cases hxneg : f.isNegative x <;> by_cases hyneg : f.isNegative y <;>
    simp [orderKey, valueKey, hxneg, hyneg, hsigns] <;> omega

/-- A key belongs to one pattern. -/
theorem orderKey_inj (hx : x < 2 * f.signWeight) (hy : y < 2 * f.signWeight)
    (h : f.orderKey x = f.orderKey y) : x = y := by
  have hmod : ∀ z < 2 * f.signWeight,
      f.magnitude z = if f.signWeight ≤ z then z - f.signWeight else z := by
    intro z hz
    rw [magnitude]
    split
    · rw [Nat.mod_eq_sub_mod ‹_›, Nat.mod_eq_of_lt (by omega)]
    · exact Nat.mod_eq_of_lt (by omega)
  simp only [orderKey, isNegative, decide_eq_true_eq, hmod x hx, hmod y hy] at h
  split at h <;> split at h <;> omega

/-- To compare values, and to look at a sign where they are the same, is to compare keys. -/
theorem ite_eq_ite_orderKey (hx : x < 2 * f.signWeight) (hy : y < 2 * f.signWeight)
    (hordered : f.ordered x y) {p q : Nat} (hpq : x = y → p = q) :
    (if f.eq x y then if f.isNegative x then p else q else if f.lt x y then p else q) =
      if f.orderKey x ≤ f.orderKey y then p else q := by
  have hxkey := f.orderKey_eq x
  have hykey := f.orderKey_eq y
  simp only [eq, lt, hordered, Bool.true_and, decide_eq_true_eq]
  by_cases hvalue : f.valueKey x = f.valueKey y
  · rw [if_pos hvalue]
    by_cases hxneg : f.isNegative x
    · have hle : f.orderKey x ≤ f.orderKey y := by
        rw [if_pos hxneg] at hxkey
        split at hykey <;> omega
      rw [if_pos hxneg, if_pos hle]
    · rw [if_neg hxneg] at hxkey ⊢
      by_cases hle : f.orderKey x ≤ f.orderKey y
      · have hkey : f.orderKey x = f.orderKey y := by split at hykey <;> omega
        rw [if_pos hle, hpq (orderKey_inj hx hy hkey)]
      · rw [if_neg hle]
  · have hiff : f.valueKey x < f.valueKey y ↔ f.orderKey x ≤ f.orderKey y := by
      simp only [orderKey, valueKey] at hvalue ⊢
      split at hvalue <;> split at hvalue <;> simp [*] <;> omega
    simp only [if_neg hvalue, hiff]

/-- The branches of the minimum choose by the key. It needs the bound, since bits past the sign
would make patterns differ that have one key. -/
theorem min_eq (hx : x < 2 * f.signWeight) (hy : y < 2 * f.signWeight) :
    f.min x y = if f.isNaN x || f.isNaN y then f.canonicalNaN
      else if f.orderKey x ≤ f.orderKey y then x else y := by
  rw [min]
  split
  · rfl
  · next hnan => exact ite_eq_ite_orderKey hx hy (by simpa [ordered] using hnan) id

/-- So do those of the maximum. -/
theorem max_eq (hx : x < 2 * f.signWeight) (hy : y < 2 * f.signWeight) :
    f.max x y = if f.isNaN x || f.isNaN y then f.canonicalNaN
      else if f.orderKey x ≤ f.orderKey y then y else x := by
  rw [max]
  split
  · rfl
  · next hnan => exact ite_eq_ite_orderKey hx hy (by simpa [ordered] using hnan) Eq.symm

end FloatFormat

/-! ## Places -/

/-- The places of patterns: by their numbers, and then by their signs. -/
abbrev Place := WithBot (WithTop ℚ) ×ₗ Bool

namespace Width

variable {w : Width}

/-- Where a pattern of a width stands; a NaN stands nowhere. -/
def place? (w : Width) (x : BitVec w.bits) : Option Place :=
  match w.format.datum x.toNat with
  | .nan => none
  | .infinite => some (toLex (if x.msb then ⊥ else (⊤ : WithTop ℚ), !x.msb))
  | .number q => some (toLex ((q : WithTop ℚ), !x.msb))

/-- A number has its place by value, and among zeros by sign. -/
theorem place?_of_number {x : BitVec w.bits} (h : w.format.datum x.toNat = .number q) :
    w.place? x = some (toLex (((q : WithTop ℚ) : WithBot (WithTop ℚ)), !x.msb)) := by
  rw [place?, h]

/-- The canonical NaN of a width. -/
def canonicalNaN (w : Width) : BitVec w.bits :=
  .ofNat w.bits (w.pick (0x7FC00000, 0x7FF8000000000000))

theorem regular_format (w : Width) : w.format.Regular := by
  cases w with
  | w32 => exact FloatFormat.regular_binary32
  | w64 => exact FloatFormat.regular_binary64

/-- The sign is the highest bit of the width. -/
theorem two_pow_bits (w : Width) : 2 ^ w.bits = 2 * w.format.signWeight := by
  cases w <;> rfl

theorem signWeight_format (w : Width) : w.format.signWeight = 2 ^ (w.bits - 1) := by
  cases w <;> rfl

/-- The sign of a pattern is its highest bit. -/
theorem isNegative_toNat (x : BitVec w.bits) : w.format.isNegative x.toNat = x.msb := by
  rw [FloatFormat.isNegative, signWeight_format, BitVec.msb_eq_decide]

/-- Every pattern but a NaN has a place. -/
theorem place?_eq (x : BitVec w.bits) : w.place? x =
    if w.format.isNaN x.toNat then none
    else some (toLex (w.format.extended x.toNat, !w.format.isNegative x.toNat)) := by
  rw [place?, w.regular_format.datum_eq, FloatFormat.extended, isNegative_toNat]
  by_cases hnan : w.format.isNaN x.toNat
  · simp [hnan]
  · by_cases hinfinite : w.format.isInfinite x.toNat <;> simp [hnan, hinfinite]

theorem place?_eq_none_iff (x : BitVec w.bits) :
    w.place? x = none ↔ w.format.isNaN x.toNat := by
  rw [place?_eq]
  split <;> simp [*]

theorem place?_eq_some_iff (x : BitVec w.bits) : w.place? x = some a ↔
    ¬ w.format.isNaN x.toNat ∧
      a = toLex (w.format.extended x.toNat, !w.format.isNegative x.toNat) := by
  rw [place?_eq]
  split <;> simp [*, eq_comm]

/-- Places are ordered as keys are. -/
theorem le_iff_orderKey_le {x y : BitVec w.bits} (hx : w.place? x = some a)
    (hy : w.place? y = some b) :
    a ≤ b ↔ w.format.orderKey x.toNat ≤ w.format.orderKey y.toNat := by
  obtain ⟨hxnan, rfl⟩ := (place?_eq_some_iff x).mp hx
  obtain ⟨hynan, rfl⟩ := (place?_eq_some_iff y).mp hy
  rw [w.regular_format.orderKey_le_iff hxnan hynan]

/-- No two patterns stand at one place. -/
theorem eq_of_place? {x y : BitVec w.bits} (hx : w.place? x = some a) (hy : w.place? y = some a) :
    x = y := by
  have hle := (le_iff_orderKey_le hx hy).mp le_rfl
  have hge := (le_iff_orderKey_le hy hx).mp le_rfl
  apply BitVec.eq_of_toNat_eq
  exact FloatFormat.orderKey_inj (w.two_pow_bits ▸ x.isLt) (w.two_pow_bits ▸ y.isLt)
    (le_antisymm hle hge)

/-! ## Operations on patterns -/

/-- What an operation on floats makes of two patterns of a width. -/
def onPatterns (w : Width) (op : FloatBinary) (x y : BitVec w.bits) : BitVec w.bits :=
  w.ofCell (op.eval w (w.toCell x) (w.toCell y))

/-- The operation leaves one of its operands, the one at the place that is chosen from theirs. With
a NaN among them it leaves the canonical one. -/
structure Chooses (w : Width) (op : FloatBinary) (choose : Place → Place → Place) : Prop where
  nan : ∀ x y, w.place? x = none ∨ w.place? y = none → w.onPatterns op x y = w.canonicalNaN
  number : ∀ x y a b, w.place? x = some a → w.place? y = some b →
    (w.onPatterns op x y = x ∨ w.onPatterns op x y = y) ∧
      w.place? (w.onPatterns op x y) = some (choose a b)

/-- Of a cell, an instruction takes the bits of its width. -/
theorem pattern_eq_toNat_ofCell (w : Width) (c : UInt64) : w.pattern c = (w.ofCell c).toNat := by
  rw [toNat_ofCell, pattern, Nat.one_shiftLeft, low]

/-- A pattern comes back from its cell. -/
theorem pattern_toCell (x : BitVec w.bits) : w.pattern (w.toCell x) = x.toNat := by
  rw [pattern_eq_toNat_ofCell, ofCell_toCell]

theorem ofCell_ofNat (w : Width) (n : Nat) : w.ofCell (.ofNat n) = .ofNat w.bits n := by
  apply BitVec.eq_of_toNat_eq
  rw [toNat_ofCell, low, UInt64.toNat_ofNat', BitVec.toNat_ofNat]
  cases w <;> simp [bits, Nat.mod_mod_of_dvd]

/-- The operation takes one of two patterns, unless there is a NaN among them. -/
structure Picks (w : Width) (op : FloatBinary) (take : Nat → Nat → Nat) : Prop where
  eval : ∀ a b, op.eval w a b =
    .ofNat (if w.format.isNaN (w.pattern a) || w.format.isNaN (w.pattern b) then
      w.format.canonicalNaN else take (w.pattern a) (w.pattern b))
  mem : ∀ x y, take x y = x ∨ take x y = y

theorem pattern_lt (w : Width) (c : UInt64) : w.pattern c < 2 ^ w.bits := by
  rw [pattern_eq_toNat_ofCell]
  exact (w.ofCell c).isLt

theorem picks_min (w : Width) :
    w.Picks .min fun x y => if w.format.orderKey x ≤ w.format.orderKey y then x else y :=
  ⟨fun a b => congrArg UInt64.ofNat (FloatFormat.min_eq (w.two_pow_bits ▸ w.pattern_lt a)
    (w.two_pow_bits ▸ w.pattern_lt b)), fun _ _ => by split <;> simp⟩

theorem picks_max (w : Width) :
    w.Picks .max fun x y => if w.format.orderKey x ≤ w.format.orderKey y then y else x :=
  ⟨fun a b => congrArg UInt64.ofNat (FloatFormat.max_eq (w.two_pow_bits ▸ w.pattern_lt a)
    (w.two_pow_bits ▸ w.pattern_lt b)), fun _ _ => by split <;> simp⟩

/-- An operation that picks one of its operands gives that operand bit by bit, or the canonical NaN.
-/
theorem Picks.onPatterns_eq (hop : w.Picks op take) (x y : BitVec w.bits) :
    w.onPatterns op x y = .ofNat w.bits
      (if w.format.isNaN x.toNat || w.format.isNaN y.toNat then w.format.canonicalNaN
        else take x.toNat y.toNat) := by
  rw [onPatterns, hop.eval, pattern_toCell, pattern_toCell, ofCell_ofNat]

/-- An operation that picks as places say. -/
theorem Picks.chooses (hop : w.Picks op take)
    (hchoose : ∀ (x y : BitVec w.bits) a b, w.place? x = some a → w.place? y = some b →
      take x.toNat y.toNat = x.toNat ∧ choose a b = a ∨
        take x.toNat y.toNat = y.toNat ∧ choose a b = b) : w.Chooses op choose := by
  refine ⟨fun x y h => ?_, fun x y a b hx hy => ?_⟩
  · rw [place?_eq_none_iff, place?_eq_none_iff, ← Bool.or_eq_true] at h
    rw [hop.onPatterns_eq, if_pos h]
    cases w <;> rfl
  · have hxnan := ((place?_eq_some_iff x).mp hx).1
    have hynan := ((place?_eq_some_iff y).mp hy).1
    rw [hop.onPatterns_eq, if_neg (by simp [hxnan, hynan])]
    obtain ⟨htaken, hchosen⟩ | ⟨htaken, hchosen⟩ := hchoose x y a b hx hy
    · simp [htaken, hchosen, hx]
    · simp [htaken, hchosen, hy]

/-- The minimum is that of places. -/
theorem chooses_min (w : Width) : w.Chooses .min min := by
  apply w.picks_min.chooses
  intro x y a b hx hy
  have hle := le_iff_orderKey_le hx hy
  by_cases hab : a ≤ b
  · simp [hab, hle.mp hab]
  · simp [le_of_not_ge hab, mt hle.mpr hab]

/-- The maximum is that of places. -/
theorem chooses_max (w : Width) : w.Chooses .max max := by
  apply w.picks_max.chooses
  intro x y a b hx hy
  have hle := le_iff_orderKey_le hx hy
  by_cases hab : a ≤ b
  · simp [hab, hle.mp hab]
  · simp [le_of_not_ge hab, mt hle.mpr hab]

/-! ## Laws -/

namespace Chooses

variable {op op' : FloatBinary} {choose choose' : Place → Place → Place}

theorem place?_canonicalNaN (w : Width) : w.place? w.canonicalNaN = none := by
  rw [place?_eq_none_iff]
  cases w <;> decide

/-- Where the result stands, in terms of where the operands stand. -/
theorem place?_onPatterns (hop : w.Chooses op choose) (x y : BitVec w.bits) :
    w.place? (w.onPatterns op x y) = Option.map₂ choose (w.place? x) (w.place? y) := by
  cases hx : w.place? x with
  | none => rw [hop.nan x y (.inl hx), place?_canonicalNaN, Option.map₂_none_left]
  | some a =>
    cases hy : w.place? y with
    | none => rw [hop.nan x y (.inr hy), place?_canonicalNaN, Option.map₂_none_right]
    | some b => exact (hop.number x y a b hx hy).2

/-- Results that stand alike are the same, since only one NaN is a result. -/
theorem eq_of_place?_eq (hop : w.Chooses op choose) {x y u v : BitVec w.bits}
    (h : w.place? (w.onPatterns op x y) = w.place? (w.onPatterns op u v)) :
    w.onPatterns op x y = w.onPatterns op u v := by
  have hnan : ∀ x y : BitVec w.bits, w.place? (w.onPatterns op x y) = none →
      w.onPatterns op x y = w.canonicalNaN := by
    intro x y hnone
    rw [hop.place?_onPatterns, Option.map₂_eq_none_iff] at hnone
    exact hop.nan x y hnone
  cases hplace : w.place? (w.onPatterns op x y) with
  | none => rw [hnan x y hplace, hnan u v (h ▸ hplace)]
  | some a => exact eq_of_place? hplace (h ▸ hplace)

/-- Laws of the choice are laws of the operation. Where an operand has no place, both sides are the
canonical NaN. -/
theorem comm (hop : w.Chooses op choose) (hcomm : ∀ a b, choose a b = choose b a)
    (x y : BitVec w.bits) : w.onPatterns op x y = w.onPatterns op y x := by
  apply hop.eq_of_place?_eq
  rw [hop.place?_onPatterns, hop.place?_onPatterns, Option.map₂_comm hcomm]

/-- A NaN in any place makes both sides the canonical one. -/
theorem assoc (hop : w.Chooses op choose)
    (hassoc : ∀ a b c, choose (choose a b) c = choose a (choose b c)) (x y z : BitVec w.bits) :
    w.onPatterns op (w.onPatterns op x y) z = w.onPatterns op x (w.onPatterns op y z) := by
  apply hop.eq_of_place?_eq
  simp only [hop.place?_onPatterns]
  exact Option.map₂_assoc hassoc

/-- A pattern with a place comes back bit by bit, since a place has one pattern. -/
theorem idem (hop : w.Chooses op choose) (hx : w.place? x ≠ none) : w.onPatterns op x x = x := by
  obtain ⟨a, ha⟩ := Option.ne_none_iff_exists'.mp hx
  exact (hop.number x x a a ha ha).1.elim id id

/-- Two choices that absorb each other do so on patterns. -/
theorem absorb (hop : w.Chooses op choose) (hop' : w.Chooses op' choose')
    (habsorb : ∀ a b, choose a (choose' a b) = a) (hx : w.place? x ≠ none)
    (hy : w.place? y ≠ none) : w.onPatterns op x (w.onPatterns op' x y) = x := by
  obtain ⟨a, ha⟩ := Option.ne_none_iff_exists'.mp hx
  obtain ⟨b, hb⟩ := Option.ne_none_iff_exists'.mp hy
  have hinner := (hop'.number x y a b ha hb).2
  have houter := (hop.number x _ a _ ha hinner).2
  rw [habsorb] at houter
  exact eq_of_place? houter ha

end Chooses

/-! ## Instructions -/

/-- A cell with the result is made from the patterns in the cells of the operands. -/
theorem Picks.eval_eq (hop : w.Picks op take) (a b : UInt64) :
    op.eval w a b = w.toCell (w.onPatterns op (w.ofCell a) (w.ofCell b)) := by
  have hnan : w.format.canonicalNaN < 2 ^ w.bits := by cases w <;> decide
  rw [hop.eval, hop.onPatterns_eq, ← pattern_eq_toNat_ofCell, ← pattern_eq_toNat_ofCell, toCell_eq,
    BitVec.toNat_ofNat, Nat.mod_eq_of_lt]
  split
  · exact hnan
  · obtain h | h := hop.mem (w.pattern a) (w.pattern b) <;> rw [h]
    · exact w.pattern_lt a
    · exact w.pattern_lt b

theorem ofByte?_min (w : Width) :
    NumericOp.ofByte? (w.pick (0x96, 0xA4)) = some (.binary (.float w .min)) := by
  cases w <;> decide +kernel

theorem ofByte?_max (w : Width) :
    NumericOp.ofByte? (w.pick (0x97, 0xA5)) = some (.binary (.float w .max)) := by
  cases w <;> decide +kernel

end Width

open Width in
/-- Minimum and maximum of floats. The instructions work on the patterns in their operands, and take
the lower and the higher one in the order of places, which tells all patterns but NaNs apart. So
they have the laws of a lattice, bit by bit. -/
theorem min_max_lattice (w : Width) :
    Instr.Binary (w.pick (0x96, 0xA4)) (fun a b =>
      .ok (w.toCell (w.onPatterns .min (w.ofCell a) (w.ofCell b)))) ∧
    Instr.Binary (w.pick (0x97, 0xA5)) (fun a b =>
      .ok (w.toCell (w.onPatterns .max (w.ofCell a) (w.ofCell b)))) ∧
    w.Chooses .min min ∧ w.Chooses .max max ∧
    (∀ x y a, w.place? x = some a → w.place? y = some a → x = y) ∧
    (∀ op ∈ [FloatBinary.min, .max],
      (∀ x y, w.onPatterns op x y = w.onPatterns op y x) ∧
      (∀ x y z, w.onPatterns op (w.onPatterns op x y) z =
        w.onPatterns op x (w.onPatterns op y z)) ∧
      ∀ x, w.place? x ≠ none → w.onPatterns op x x = x) ∧
    ∀ x y, w.place? x ≠ none → w.place? y ≠ none →
      w.onPatterns .min x (w.onPatterns .max x y) = x ∧
      w.onPatterns .max x (w.onPatterns .min x y) = x := by
  have hmin := w.chooses_min
  have hmax := w.chooses_max
  refine ⟨?_, ?_, hmin, hmax, fun x y a => eq_of_place?, ?_, fun x y hx hy => ?_⟩
  · exact Instr.binary_of_eval w.ofByte?_min fun a b => congrArg _ (w.picks_min.eval_eq a b)
  · exact Instr.binary_of_eval w.ofByte?_max fun a b => congrArg _ (w.picks_max.eval_eq a b)
  · simp only [List.forall_mem_cons]
    exact ⟨⟨hmin.comm min_comm, hmin.assoc min_assoc, fun x => hmin.idem⟩,
      ⟨hmax.comm max_comm, hmax.assoc max_assoc, fun x => hmax.idem⟩, by simp⟩
  · exact ⟨hmin.absorb hmax (fun _ _ => inf_sup_self) hx hy,
      hmax.absorb hmin (fun _ _ => sup_inf_self) hx hy⟩

/-- The negative zero is the lower one, on whichever side it stands. -/
theorem min_max_lattice_zeros :
    Width.w32.place? 0x80000000#32 = some (toLex (0, false)) ∧
    Width.w32.place? 0#32 = some (toLex (0, true)) ∧
    Width.w32.onPatterns .min 0#32 0x80000000#32 = 0x80000000#32 ∧
    Width.w32.onPatterns .max 0x80000000#32 0#32 = 0#32 ∧
    Width.w32.onPatterns .min 0x80000000#32 (Width.w32.onPatterns .max 0x80000000#32 0#32) =
      0x80000000#32 := by
  obtain ⟨-, -, hmin, hmax, hinj, -, habsorb⟩ := min_max_lattice .w32
  have hzeros : FloatFormat.binary32.datum 0x80000000 = .number 0 ∧
      FloatFormat.binary32.datum 0 = .number 0 := by
    norm_num [FloatFormat.datum, FloatFormat.binary32]
  have hneg : Width.w32.place? 0x80000000#32 = some (toLex (0, false)) :=
    Width.place?_of_number (w := .w32) (x := 0x80000000#32) hzeros.1
  have hpos : Width.w32.place? 0#32 = some (toLex (0, true)) :=
    Width.place?_of_number (w := .w32) (x := 0#32) hzeros.2
  have hle : (toLex (0, false) : Place) ≤ toLex (0, true) := by
    simp [Prod.Lex.toLex_le_toLex]
  have hlow := (hmin.number _ _ _ _ hpos hneg).2
  have hhigh := (hmax.number _ _ _ _ hneg hpos).2
  rw [min_eq_right hle] at hlow
  rw [max_eq_right hle] at hhigh
  exact ⟨hneg, hpos, hinj _ _ _ hlow hneg, hinj _ _ _ hhigh hpos,
    (habsorb _ _ (by simp [hneg]) (by simp [hpos])).1⟩

end Wasm
