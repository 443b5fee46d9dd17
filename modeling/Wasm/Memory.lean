import Wasm.Bytes
import Wasm.Link.Error

/-!
# Wasm.Memory

Linear memory: bytes in whole pages of 64 KiB, zero until they are written. A memory only grows,
and never past its maximum or the 65536 pages that 32-bit addresses reach.

`Memory.byte` and `Memory.size` are its view: the byte at an address, and the first address that
has none.
-/

namespace Wasm

/-! ## Byte arrays -/

/-- The byte at an index, zero past the end. -/
def byteAt (data : ByteArray) (i : Nat) : UInt8 :=
  if h : i < data.size then data[i] else 0

/-- Put a byte at an index; nothing happens past the end. -/
def putByte (data : ByteArray) (i : Nat) (b : UInt8) : ByteArray :=
  if h : i < data.size then data.set i b h else data

/-- Put bytes in a row from an index on. -/
def putBytes (data : ByteArray) (i : Nat) : List UInt8 → ByteArray
  | [] => data
  | b :: bs => putBytes (putByte data i b) (i + 1) bs

/-- The `n` bytes from an index on. -/
def bytesAt (data : ByteArray) (i n : Nat) : List UInt8 :=
  (List.range n).map fun k => byteAt data (i + k)

/-! ## Memories -/

/-- The number of bytes in a page. -/
def pageSize : Nat := 65536

/-- The number of pages that addresses reach. -/
def maxPages : Nat := 65536

/-- A page of zeros. -/
def zeroPage : ByteArray := ⟨Array.replicate pageSize 0⟩

/-- Add pages of zeros. -/
def addPages (data : ByteArray) : (n : Nat) → ByteArray
  | 0 => data
  | n + 1 => addPages (data ++ zeroPage) n

/-- A memory: its bytes and the limits it was declared with. -/
structure Memory where
  data : ByteArray
  limits : Limits

namespace Memory

/-- A memory without pages. -/
def empty (limits : Limits) : Memory := ⟨.empty, limits⟩

/-- The number of bytes. -/
def size (m : Memory) : Nat := m.data.size

/-- The byte at an address, zero where there is none. -/
def byte (m : Memory) (i : Nat) : UInt8 := byteAt m.data i

/-- The number of pages. -/
def pages (m : Memory) : Nat := m.size / pageSize

/-- The most pages the memory may have. -/
def cap (m : Memory) : Nat :=
  match m.limits.max with
  | some max => Nat.min max.toNat maxPages
  | none => maxPages

/-- Extend a memory to a number of pages; it never shrinks. -/
def extend (m : Memory) (pages : Nat) : Memory :=
  { m with data := addPages m.data (pages - m.pages) }

/-- Whether a memory may grow by some pages. -/
def canGrow (m : Memory) (delta : Nat) : Bool :=
  m.pages + delta ≤ m.cap

/-- Grow by some pages; `none` when that leads past the maximum. -/
def grow? (m : Memory) (delta : Nat) : Option Memory :=
  if m.canGrow delta then some (m.extend (m.pages + delta)) else none

/-- Extend to the declared minimum. -/
def ensureMin (m : Memory) : Except LinkError Memory :=
  let min := m.limits.min.toNat
  if m.cap < min then .error (.sizeExceedsMaximum .memoryMinimum min m.cap)
  else .ok (m.extend min)

/-- Put bytes at an address where the memory has room for them. -/
def write (m : Memory) (address : Nat) (bytes : List UInt8) : Memory :=
  { m with data := putBytes m.data address bytes }

/-- Put a data segment at an offset, with new pages where it runs past the end. -/
def writeSegment (m : Memory) (offset : UInt32) (bytes : List UInt8) : Except LinkError Memory :=
  let stop := offset.toNat + bytes.length
  let max := m.cap * pageSize
  if max < stop then .error (.sizeExceedsMaximum (.segment .data) stop max)
  else .ok ((m.extend ((stop + pageSize - 1) / pageSize)).write offset.toNat bytes)

/-! ## Accesses -/

/-- Where an access begins: address and offset are added without wrapping. -/
def effective (address offset : UInt32) : Nat :=
  address.toNat + offset.toNat

/-- Whether the memory has the bytes of an access. -/
def covers (m : Memory) (address length : Nat) : Bool :=
  address + length ≤ m.size

/-- The bytes of an access. -/
def load (m : Memory) (address offset : UInt32) (length : Nat) : Except Trap (List UInt8) :=
  let start := effective address offset
  if m.covers start length then .ok (bytesAt m.data start length)
  else .error (.memoryOutOfBounds start length)

/-- Replace the bytes of an access. -/
def store (m : Memory) (address offset : UInt32) (bytes : List UInt8) : Except Trap Memory :=
  let start := effective address offset
  if m.covers start bytes.length then .ok (m.write start bytes)
  else .error (.memoryOutOfBounds start bytes.length)

/-- The bytes of a range; `none` when it is not inside the memory. -/
def read? (m : Memory) (address length : Nat) : Option (List UInt8) :=
  if m.covers address length then some (bytesAt m.data address length) else none

/-- Replace the bytes of a range; `none` when it is not inside the memory. -/
def write? (m : Memory) (address : Nat) (bytes : List UInt8) : Option Memory :=
  if m.covers address bytes.length then some (m.write address bytes) else none

/-- Replace every byte. -/
def fill (m : Memory) (b : UInt8) : Memory :=
  m.write 0 (List.replicate m.size b)

/-- Put the byte at an address before runs that begin above it. -/
def addToRuns (i : Nat) (b : UInt8) : List (Nat × List UInt8) → List (Nat × List UInt8)
  | [] => [(i, [b])]
  | (start, bs) :: runs =>
    if start = i + 1 then (i, b :: bs) :: runs else (i, [b]) :: (start, bs) :: runs

/-- The runs of bytes other than zero below an address, before the given ones. -/
def nonzeroRunsBelow (m : Memory) : (i : Nat) → List (Nat × List UInt8) → List (Nat × List UInt8)
  | 0, runs => runs
  | i + 1, runs =>
    let b := m.byte i
    nonzeroRunsBelow m i (if b = 0 then runs else addToRuns i b runs)

/-- The maximal runs of bytes other than zero, each with its address. -/
def nonzeroRuns (m : Memory) : List (Nat × List UInt8) :=
  m.nonzeroRunsBelow m.size []

end Memory

end Wasm
