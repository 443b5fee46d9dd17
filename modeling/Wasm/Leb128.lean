import Wasm.Decoder

/-!
# Wasm.Leb128

Variable-length integers: groups of seven bits, least significant group first, every byte but the
last with its top bit set. A reader for a width accepts at most as many bytes as the width needs,
and the last of them may only use the bits that are left; shorter and longer spellings of the same
number within that bound are all accepted. The writers give the shortest spelling.
-/

namespace Wasm

variable {m : Type → Type} [Monad m] [MonadLiftT Reader m] [Decoder m]

namespace Leb128

/-- The most bytes that an integer of this width may take. -/
def limit (bits : Nat) : Nat := (bits + 6) / 7

/-- The seven low bits of a byte as a number. -/
def group (b : UInt8) : Nat := b.toNat % 128

/-- Whether more bytes follow. -/
def continues (b : UInt8) : Bool := 128 ≤ b.toNat

/-! ## Readers -/

/-- Read an unsigned integer of which `left` more bytes may come. The next one has the bits from
`shift` on, those below are in `result`. -/
def unsignedFrom (bits : Nat) : (left shift result : Nat) → m Nat
  | 0, _, _ => do Reader.fail (.leb128TooManyBytes (limit bits) (← Reader.offset))
  | left + 1, shift, result => do
    let b ← Reader.u8
    let room ← Decoder.subtract bits shift
    if room < 7 ∧ group b >>> room ≠ 0 then
      Reader.fail (.leb128Overflow bits (← Reader.offset))
    else
      let result := result ||| group b <<< shift
      if continues b then unsignedFrom bits left (shift + 7) result else return result

/-- Read an unsigned integer of the given width. -/
def unsigned (bits : Nat) : m Nat :=
  unsignedFrom bits (limit bits) 0 0

/-- Whether the bits of a group for which there is no room are something else than copies of the
sign. -/
def overflows (room : Nat) (b : UInt8) : m Bool :=
  if room < 7 then do
    let high ← Decoder.subtract room 1
    let unused := group b >>> high
    return unused ≠ 0 ∧ unused ≠ 0x7F >>> high
  else return false

/-- Read a signed integer of which `left` more bytes may come. The next one has the bits from
`shift` on, those below are in `result`. The last byte has the sign, which all bits above copy. -/
def signedFrom (bits : Nat) : (left shift : Nat) → (result : BitVec 64) → m (BitVec 64)
  | 0, _, _ => do Reader.fail (.leb128TooManyBytes (limit bits) (← Reader.offset))
  | left + 1, shift, result => do
    let b ← Reader.u8
    let room ← Decoder.subtract bits shift
    if ← overflows room b then
      Reader.fail (.leb128Overflow bits (← Reader.offset))
    else
      let result := result ||| BitVec.ofNat 64 (group b) <<< shift
      let shift := shift + 7
      if continues b then signedFrom bits left shift result
      else if shift < 64 ∧ group b &&& 0x40 ≠ 0 then
        return result ||| (-1 : BitVec 64) <<< shift
      else return result

/-- Read a signed integer of the given width. -/
def signed (bits : Nat) : m Int := do
  return (← signedFrom bits (limit bits) 0 0).toInt

/-! ## Writers -/

/-- The shortest spelling of an unsigned integer. -/
def writeUnsigned (n : Nat) : List UInt8 :=
  if n < 128 then [UInt8.ofNat n]
  else UInt8.ofNat (n % 128 + 128) :: writeUnsigned (n / 128)
termination_by n
decreasing_by omega

/-- The shortest spelling of a signed integer. It ends where all bits that are left are copies of
the last one that was written. -/
def writeSigned (v : Int) : List UInt8 :=
  let low := (v % 128).toNat
  let rest := v >>> (7 : Nat)
  if rest = 0 ∧ low &&& 0x40 = 0 ∨ rest = -1 ∧ low &&& 0x40 ≠ 0 then [UInt8.ofNat low]
  else UInt8.ofNat (low ||| 0x80) :: writeSigned rest
termination_by v.natAbs
decreasing_by
  next h =>
    have hzero : v ≠ 0 := by
      rintro rfl
      exact h (by decide)
    have hone : v ≠ -1 := by
      rintro rfl
      exact h (by decide)
    have hrest : v >>> (7 : Nat) = v / 128 := Int.shiftRight_eq_div_pow v 7
    omega

end Leb128

namespace Reader

/-- A 32-bit unsigned LEB128 integer: an index, a count or a size. -/
def u32 : m UInt32 := do
  return UInt32.ofNat (← Leb128.unsigned 32)

/-- A 64-bit unsigned LEB128 integer. -/
def u64 : m UInt64 := do
  return UInt64.ofNat (← Leb128.unsigned 64)

/-- A 32-bit signed LEB128 integer. -/
def s32 : m Int32 := do
  return Int32.ofInt (← Leb128.signed 32)

/-- A 33-bit signed LEB128 integer. -/
def s33 : m Int := Leb128.signed 33

/-- A 64-bit signed LEB128 integer. -/
def s64 : m Int64 := do
  return Int64.ofInt (← Leb128.signed 64)

end Reader

end Wasm
