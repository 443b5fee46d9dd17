import Mathlib.Tactic.IntervalCases
import Wasm.Proofs.Reader

/-!
# Wasm.Proofs.Groups

Variable-length integers as sums. The readers put the groups of an integer into a word bit by bit,
and so does the writer of signed integers take them out. What they compute is easier to say by
recursion on the groups: the first one, plus 128 times what the others give.

* `unsignedGroups`, `signedGroups`: the readers in that form.
* `unsigned_eq`, `signed_eq`: they are the same readers.
* `writeSigned_eq`: one step of the writer, in terms of numbers.
-/

namespace Wasm.Leb128

open Reader

/-- The seven low bits of a byte as a two's complement number. -/
def signedGroup (b : UInt8) : Int :=
  if group b < 64 then group b else (group b : Int) - 128

/-- Read an unsigned integer of which `left` more bytes may come; `room` of its bits are free. -/
def unsignedGroups (bits : Nat) : (left room : Nat) → Reader Nat
  | 0, _ => do fail (.leb128TooManyBytes (limit bits) (← offset))
  | left + 1, room => do
    let b ← u8
    if 1 <<< room ≤ group b then
      fail (.leb128Overflow bits (← offset))
    else if continues b then
      return group b + 128 * (← unsignedGroups bits left (room - 7))
    else
      return group b

/-- Read a signed integer of which `left` more bytes may come; `room` of its bits are free. -/
def signedGroups (bits : Nat) : (left room : Nat) → Reader Int
  | 0, _ => do fail (.leb128TooManyBytes (limit bits) (← offset))
  | left + 1, room => do
    let b ← u8
    let half : Nat := 1 <<< (room - 1)
    if signedGroup b < -half ∨ half ≤ signedGroup b then
      fail (.leb128Overflow bits (← offset))
    else if continues b then
      return group b + 128 * (← signedGroups bits left (room - 7))
    else
      return signedGroup b

/-! ## Arithmetic of groups -/

/-- The bytes that an integer may take are enough for its bits, and none of them is in vain. -/
theorem limit_bounds (bits : Nat) : bits ≤ 7 * limit bits ∧ 7 * limit bits < bits + 7 := by
  unfold limit
  omega

theorem group_lt (b : UInt8) : group b < 128 :=
  Nat.mod_lt _ (by decide)

theorem signedGroup_bounds (b : UInt8) : -64 ≤ signedGroup b ∧ signedGroup b < 64 := by
  have h := group_lt b
  unfold signedGroup
  split <;> omega

theorem one_shiftLeft_add_seven (r : Nat) : 1 <<< (r + 7) = 128 * 1 <<< r := by
  rw [Nat.shiftLeft_add, Nat.shiftLeft_eq _ 7, Nat.mul_comm]

theorem one_shiftLeft_pos (r : Nat) : 0 < 1 <<< r := by
  rw [Nat.one_shiftLeft]
  exact Nat.two_pow_pos r

/-- Seven more bits of room, as long as there are seven. -/
theorem one_shiftLeft_of_le (room : Nat) (h : 7 ≤ room) :
    1 <<< room = 128 * 1 <<< (room - 7) := by
  obtain ⟨r, rfl⟩ := Nat.exists_eq_add_of_le' h
  rw [Nat.add_sub_cancel]
  exact one_shiftLeft_add_seven r

/-- The same for the half of the range that a sign leaves. -/
theorem one_shiftLeft_pred_of_lt (room : Nat) (h : 7 < room) :
    1 <<< (room - 1) = 128 * 1 <<< (room - 7 - 1) := by
  rw [one_shiftLeft_of_le _ (by omega), show room - 1 - 7 = room - 7 - 1 by omega]

/-- The sign bit of seven. -/
theorem and_sign_ne_zero_iff : ∀ {g : Nat}, g < 128 → (g &&& 0x40 ≠ 0 ↔ 64 ≤ g) := by
  decide

/-- A group with its sign bit stands for a negative number. -/
theorem signedGroup_eq (b : UInt8) :
    signedGroup b = group b + 128 * if group b &&& 0x40 ≠ 0 then -1 else 0 := by
  have hsign := and_sign_ne_zero_iff (group_lt b)
  unfold signedGroup
  split <;> split <;> omega

/-! ## Unsigned integers -/

/-- A group has bits for which there is no room exactly if it is too large a number. -/
theorem shiftRight_ne_zero_iff (room : Nat) (b : UInt8) :
    room < 7 ∧ group b >>> room ≠ 0 ↔ 1 <<< room ≤ group b := by
  have hgroup := group_lt b
  have hpos := Nat.two_pow_pos room
  have hlarge : 7 ≤ room → 2 ^ 7 ≤ 2 ^ room := fun h => Nat.pow_le_pow_right Nat.two_pos h
  rw [Nat.shiftRight_eq_div_pow, Nat.one_shiftLeft, Nat.div_ne_zero_iff]
  omega

/-- The bits from `shift` on are what is still to come, and those below are there. -/
theorem unsignedFrom_eq (bits : Nat) {left shift result : Nat} (h : result < 2 ^ shift) :
    (unsignedFrom bits left shift result : Reader Nat) =
      (do return result + 2 ^ shift * (← unsignedGroups bits left (bits - shift))) := by
  induction left generalizing shift result with
  | zero => rfl
  | succ left ih =>
    have hput (b : UInt8) : result ||| group b <<< shift = result + 2 ^ shift * group b := by
      rw [Nat.or_comm, ← Nat.shiftLeft_add_eq_or_of_lt h, Nat.shiftLeft_eq, Nat.add_comm,
        Nat.mul_comm]
    have hlt (b : UInt8) : result + 2 ^ shift * group b < 2 ^ (shift + 7) := by
      have hb := Nat.mul_le_mul_left (2 ^ shift) (Nat.le_of_lt_succ (group_lt b))
      rw [Nat.pow_add]
      omega
    simp only [unsignedFrom, unsignedGroups, Decoder.subtract, shiftRight_ne_zero_iff, hput,
      ih (hlt _), liftM, monadLift, MonadLiftT.monadLift, pure_bind, bind_assoc]
    refine bind_congr fun b => ?_
    split
    · rfl
    · split
      · simp [Nat.sub_sub, Nat.pow_add, Nat.mul_add, Nat.mul_assoc, Nat.add_assoc]
      · simp

/-- The loop that shifts and adds reads what its groups spell. Its invariant is that the sum so far
is below the weight of the next group. -/
theorem unsigned_eq (bits : Nat) :
    (unsigned bits : Reader Nat) = unsignedGroups bits (limit bits) bits := by
  rw [unsigned, unsignedFrom_eq bits (by decide)]
  simp

/-! ## Signed integers -/

/-- The bits of a group for which there is no room are all copies of the sign exactly if the group
is a small number. -/
theorem overflows_eq (room : Nat) (b : UInt8) :
    (overflows room b : Reader Bool) = return decide (signedGroup b < -(1 <<< (room - 1) : Nat) ∨
      (1 <<< (room - 1) : Nat) ≤ signedGroup b) := by
  have hgroup := group_lt b
  have hsigned := signedGroup_bounds b
  simp only [overflows, Decoder.subtract, pure_bind, ← apply_ite pure]
  congr 1
  split
  · rw [decide_eq_decide, signedGroup]
    interval_cases room <;> simp [Nat.shiftRight_eq_div_pow] <;> split <;> omega
  · have hle : 2 ^ 6 ≤ 2 ^ (room - 1) := Nat.pow_le_pow_right Nat.two_pos (by omega)
    rw [eq_comm, decide_eq_false_iff_not, Nat.one_shiftLeft]
    omega

/-- Bits that stand above all others can be added. -/
theorem or_shiftLeft_eq_add {x : BitVec w} (hx : x.toNat < 2 ^ k) (v : Int) :
    x ||| BitVec.ofInt w v <<< k = x + BitVec.ofInt w (2 ^ k * v) := by
  have hdisjoint : x &&& BitVec.ofInt w v <<< k = 0#w := by
    ext i hi
    simp only [BitVec.getElem_and, BitVec.getElem_shiftLeft, BitVec.getElem_zero]
    by_cases hk : i < k
    · simp [hk]
    · have hlt : x.toNat < 2 ^ i :=
        Nat.lt_of_lt_of_le hx (Nat.pow_le_pow_right Nat.two_pos (Nat.not_lt.mp hk))
      simp [← BitVec.getLsbD_eq_getElem, BitVec.getLsbD, Nat.testBit_lt_two_pow hlt]
  have hpow : BitVec.twoPow w k = BitVec.ofInt w (2 ^ k) := by
    apply BitVec.eq_of_toNat_eq
    rw [BitVec.toNat_twoPow, show (2 ^ k : Int) = (2 ^ k : Nat) by simp, BitVec.ofInt_natCast,
      BitVec.toNat_ofNat]
  rw [← BitVec.add_eq_or_of_and_eq_zero _ _ hdisjoint, BitVec.shiftLeft_eq_mul_twoPow,
    BitVec.ofInt_mul, hpow, BitVec.mul_comm]

/-- The sign is copied to the bits above it, and there are none if the word is full. -/
theorem or_sign_eq_add {x : BitVec 64} (hx : x.toNat < 2 ^ k) (p : Prop) [Decidable p] :
    (if k < 64 ∧ p then x ||| (-1 : BitVec 64) <<< k else x) =
      x + BitVec.ofInt 64 (2 ^ k * if p then -1 else 0) := by
  by_cases hp : p
  · rw [if_pos hp, ← or_shiftLeft_eq_add hx]
    by_cases hk : k < 64
    · exact if_pos ⟨hk, hp⟩
    · rw [if_neg fun h => hk h.1, BitVec.shiftLeft_eq_zero (Nat.not_lt.mp hk), BitVec.or_zero]
  · simp [hp]

/-- The loop on bit vectors. What has been put together lies below the shift, so that or-ing the
next group in is adding it. -/
theorem signedFrom_eq (bits : Nat) {left shift : Nat} {result : BitVec 64}
    (h : result.toNat < 2 ^ shift) :
    (signedFrom bits left shift result : Reader (BitVec 64)) = (do
      return result + BitVec.ofInt 64 (2 ^ shift * (← signedGroups bits left (bits - shift)))) := by
  induction left generalizing shift result with
  | zero => rfl
  | succ left ih =>
    -- The bits of a group do not meet those that are there.
    have hput (b : UInt8) : result ||| BitVec.ofNat 64 (group b) <<< shift =
        result + BitVec.ofInt 64 (2 ^ shift * group b) := by
      rw [← BitVec.ofInt_natCast, or_shiftLeft_eq_add h]
    have hlt (b : UInt8) :
        (result ||| BitVec.ofNat 64 (group b) <<< shift).toNat < 2 ^ (shift + 7) := by
      rw [BitVec.toNat_or, BitVec.toNat_shiftLeft, BitVec.toNat_ofNat]
      refine Nat.or_lt_two_pow
        (Nat.lt_of_lt_of_le h (Nat.pow_le_pow_right Nat.two_pos (Nat.le_add_right _ _)))
        (Nat.lt_of_le_of_lt (Nat.mod_le _ _) ?_)
      rw [Nat.shiftLeft_eq, Nat.mul_comm, Nat.pow_add]
      exact Nat.mul_lt_mul_of_pos_left (Nat.lt_of_le_of_lt (Nat.mod_le _ _) (group_lt b))
        (Nat.two_pow_pos _)
    simp only [signedFrom, signedGroups, Decoder.subtract, overflows_eq, ih (hlt _), liftM,
      monadLift, MonadLiftT.monadLift, pure_bind, bind_assoc, decide_eq_true_eq]
    refine bind_congr fun b => ?_
    split
    · rfl
    · split
      · simp [hput, Nat.sub_sub, Int.mul_add, BitVec.add_assoc, ← BitVec.ofInt_add, Int.pow_add,
          Int.mul_assoc]
      · simp only [pure_bind, ← apply_ite pure]
        congr 1
        rw [or_sign_eq_add (hlt b), hput, BitVec.add_assoc, ← BitVec.ofInt_add, signedGroup_eq,
          Int.mul_add, Int.pow_add, Int.mul_assoc]
        rfl

/-- The groups give a number of the bits that there is room for. -/
theorem signedGroups_bounds (hle : room ≤ 7 * left) (hlt : 7 * left < room + 7)
    (h : (signedGroups bits left room).runAt data pos = .ok v stop) :
    -(1 <<< (room - 1) : Nat) ≤ v ∧ v < (1 <<< (room - 1) : Nat) := by
  induction left generalizing room pos v stop with
  | zero =>
    obtain ⟨_, _, -, hfail⟩ := runAt_bind_eq_ok.mp h
    contradiction
  | succ left ih =>
    obtain ⟨b, next, -, h⟩ := runAt_bind_eq_ok.mp h
    have hgroup := group_lt b
    dsimp only at h
    split at h
    · obtain ⟨_, _, -, hfail⟩ := runAt_bind_eq_ok.mp h
      contradiction
    · next hfits =>
      split at h
      · obtain ⟨w, hw, rfl⟩ := runAt_map_eq_ok.mp h
        by_cases hroom : room ≤ 7
        · -- There is no room for another group, so no byte may come.
          obtain rfl : left = 0 := by omega
          obtain ⟨_, _, -, hfail⟩ := runAt_bind_eq_ok.mp hw
          contradiction
        · have hpow := one_shiftLeft_pred_of_lt room (by omega)
          obtain ⟨hlow, hhigh⟩ := ih (by omega) (by omega) hw
          omega
      · rw [runAt_pure] at h
        injection h with hv
        omega

/-- Read as a signed number, the bit vector is what the groups spell, since these stay in the range
of 64 bits. -/
theorem signed_eq (hpos : 0 < bits) (hbits : bits ≤ 64) :
    (signed bits : Reader Int) = signedGroups bits (limit bits) bits := by
  have hword (v : Int) (hlow : -(1 <<< (bits - 1) : Nat) ≤ v)
      (hhigh : v < (1 <<< (bits - 1) : Nat)) :
      (BitVec.ofInt 64 v).toInt = v := by
    have hpow : 2 ^ (bits - 1) ≤ 2 ^ 63 := Nat.pow_le_pow_right Nat.two_pos (by omega)
    rw [Nat.one_shiftLeft] at hlow hhigh
    exact BitVec.toInt_ofInt_eq_self (by decide) (by omega) (by omega)
  obtain ⟨hle, hlt⟩ := limit_bounds bits
  rw [signed, signedFrom_eq bits (by decide)]
  simp only [bind_assoc, pure_bind, Nat.sub_zero, Int.pow_zero, Int.one_mul]
  refine map_eq_self fun data pos v stop h => ?_
  obtain ⟨hlow, hhigh⟩ := signedGroups_bounds hle hlt h
  exact (congrArg BitVec.toInt (BitVec.zero_add _)).trans (hword v hlow hhigh)

/-! ## The writer -/

/-- All bits above a group are copies of its last one exactly if the number is that of a signed
group. -/
theorem copiesSign_iff (v : Int) :
    v >>> (7 : Nat) = 0 ∧ (v % 128).toNat &&& 0x40 = 0 ∨
        v >>> (7 : Nat) = -1 ∧ (v % 128).toNat &&& 0x40 ≠ 0 ↔
      -64 ≤ v ∧ v < 64 := by
  have hsign := and_sign_ne_zero_iff (show (v % 128).toNat < 128 by omega)
  have hrest : v >>> (7 : Nat) = v / 128 := Int.shiftRight_eq_div_pow v 7
  omega

/-- The last byte is written when a signed group can have the number, and another one when not. -/
theorem writeSigned_eq (v : Int) :
    writeSigned v = if -64 ≤ v ∧ v < 64 then [UInt8.ofNat (v % 128).toNat]
      else UInt8.ofNat ((v % 128).toNat + 128) :: writeSigned (v / 128) := by
  have hor : (v % 128).toNat ||| 0x80 = (v % 128).toNat + 128 := by
    have hlt : (v % 128).toNat < 2 ^ 7 := by omega
    rw [Nat.or_comm, Nat.add_comm]
    exact (Nat.two_pow_add_eq_or_of_lt hlt 1).symm
  have hrest : v >>> (7 : Nat) = v / 128 := Int.shiftRight_eq_div_pow v 7
  rw [writeSigned]
  simp only [copiesSign_iff, hor]
  rw [hrest]

end Wasm.Leb128
