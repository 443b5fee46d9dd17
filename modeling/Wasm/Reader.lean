import Wasm.Bytes
import Wasm.Text.Quoted

/-!
# Wasm.Reader

Reading a byte string from a position. A reader stops at a position whether it succeeds or not,
so a failed read still says how far it came. All offsets are absolute within the byte string.

* `ReadError` holds the reasons a read fails, `ReadError.message` their wording.
* `Reader` is the type of readers; `Reader.u8`, `Reader.bytes`, `Reader.seek` and the
  little-endian readers are the primitive ones.
-/

namespace Wasm

/-! ## Why a read fails -/

/-- What stood in the grammar where an unfitting type byte was found. -/
inductive TypeByte where
  | value
  | integerValue
  | function
  | funcref
  deriving DecidableEq, Repr

def TypeByte.text : TypeByte → String
  | .value => "value type"
  | .integerValue => "integer value type (floating point disabled)"
  | .function => "function type (0x60)"
  | .funcref => "funcref (0x70)"

/-- The ways in which bytes that can be read fail to form a module. -/
inductive Malformation where
  | positionOverflow
  | badMagic
  | unsupportedVersion
  | unknownSection
  | sectionOrder
  | sectionSize
  | globalMutability
  | importKind
  | exportKind
  | limitsFlag
  | limitsOrder
  | multipleTables
  | multipleMemories
  | tooManyLocals
  | localsOverrun
  deriving DecidableEq, Repr

def Malformation.text : Malformation → String
  | .positionOverflow => "position overflow"
  | .badMagic => "bad magic header"
  | .unsupportedVersion => "unsupported version"
  | .unknownSection => "unknown section id"
  | .sectionOrder => "section out of order or duplicated"
  | .sectionSize => "section size mismatch"
  | .globalMutability => "invalid global mutability"
  | .importKind => "invalid import kind"
  | .exportKind => "invalid export kind"
  | .limitsFlag => "invalid limits flag"
  | .limitsOrder => "limits maximum below minimum"
  | .multipleTables => "multiple tables"
  | .multipleMemories => "multiple memories"
  | .tooManyLocals => "too many locals"
  | .localsOverrun => "local declarations overrun code body"

/-- Why a read failed, and where. -/
inductive ReadError where
  | unexpectedEof (offset : Nat)
  | leb128Overflow (bits offset : Nat)
  | leb128TooManyBytes (limit offset : Nat)
  | invalidUtf8 (offset : Nat)
  | invalidTypeByte (byte : UInt8) (offset : Nat) (expected : TypeByte)
  | invalidConstOpcode (opcode : UInt8) (offset : Nat)
  | unterminatedConst (offset : Nat)
  | malformed (offset : Nat) (what : Malformation)
  deriving DecidableEq, Repr

/-- Where the failure was noticed. -/
def ReadError.offset : ReadError → Nat
  | .unexpectedEof offset => offset
  | .leb128Overflow _ offset => offset
  | .leb128TooManyBytes _ offset => offset
  | .invalidUtf8 offset => offset
  | .invalidTypeByte _ offset _ => offset
  | .invalidConstOpcode _ offset => offset
  | .unterminatedConst offset => offset
  | .malformed offset _ => offset

def ReadError.message : ReadError → String
  | .unexpectedEof offset => s!"unexpected EOF at offset {offset}"
  | .leb128Overflow bits offset => s!"LEB128 overflow (target bits={bits}) at offset {offset}"
  | .leb128TooManyBytes limit offset =>
    s!"too many bytes in LEB128 (limit={limit}) at offset {offset}"
  | .invalidUtf8 offset => s!"invalid UTF-8 string at offset {offset}"
  | .invalidTypeByte byte offset expected =>
    s!"invalid type byte {Text.hexByte byte} at offset {offset}: {expected.text}"
  | .invalidConstOpcode opcode offset =>
    s!"invalid opcode {Text.hexByte opcode} for constant expression at offset {offset}"
  | .unterminatedConst offset => s!"constant expression has not terminated at offset {offset}"
  | .malformed offset what => s!"malformed binary at offset {offset}: {what.text}"

/-! ## Readers -/

/-- A reader sees fixed bytes and moves a position over them. -/
abbrev Reader := ReaderT (Array UInt8) (EStateM ReadError Nat)

/-- Run a reader on `bytes` from `pos`: a value or an error, and the position where it stopped. -/
def Reader.runAt (r : Reader α) (bytes : Array UInt8) (pos : Nat) :
    EStateM.Result ReadError Nat α :=
  r bytes pos

/-- Run a reader on `bytes` from the start and forget the position. -/
def Reader.parse (r : Reader α) (bytes : Array UInt8) : Except ReadError α :=
  match r.runAt bytes 0 with
  | .ok a _ => .ok a
  | .error e _ => .error e

namespace Reader

/-- The current position. -/
def offset : Reader Nat := fun _ pos => .ok pos pos

/-- The number of bytes in view. -/
def size : Reader Nat := fun bytes pos => .ok bytes.size pos

/-- The number of bytes from the position to the end. -/
def remaining : Reader Nat := fun bytes pos => .ok (bytes.size - pos) pos

/-- Whether the position has reached the end. -/
def atEnd : Reader Bool := fun bytes pos => .ok (decide (bytes.size ≤ pos)) pos

/-- Give up where the reader stands. -/
def fail (e : ReadError) : Reader α := fun _ pos => .error e pos

/-- The next byte, which stays unread. -/
def peek : Reader UInt8 := fun bytes pos =>
  match bytes[pos]? with
  | some b => .ok b pos
  | none => .error (.unexpectedEof pos) pos

/-- The next byte. -/
def u8 : Reader UInt8 := fun bytes pos =>
  match bytes[pos]? with
  | some b => .ok b (pos + 1)
  | none => .error (.unexpectedEof pos) pos

/-- The next `n` bytes. Positions are 64-bit numbers; a length that leads past them is another
fault than one that leads past the end of the bytes. -/
def bytes (n : Nat) : Reader (Array UInt8) := fun bytes pos =>
  if pos + n ≤ bytes.size then .ok (bytes.extract pos (pos + n)) (pos + n)
  else if UInt64.size ≤ pos + n then .error (.malformed pos .positionOverflow) pos
  else .error (.unexpectedEof pos) pos

/-- Pass over the next `n` bytes. -/
def skip (n : Nat) : Reader Unit := do
  let _ ← bytes n

/-- Move to an absolute position; the end itself is allowed. -/
def seek (target : Nat) : Reader Unit := fun bytes pos =>
  if bytes.size < target then .error (.unexpectedEof target) pos else .ok () target

/-- The number spelled by the next `n` bytes, least significant byte first. -/
def littleEndian (n : Nat) : Reader Nat := do
  return leNat (← bytes n).toList

/-- A 32-bit little-endian number. -/
def u32le : Reader UInt32 := do
  return UInt32.ofNat (← littleEndian 4)

/-- A 64-bit little-endian number. -/
def u64le : Reader UInt64 := do
  return UInt64.ofNat (← littleEndian 8)

/-- Run a reader with the bytes cut off at `stop`. -/
def within (stop : Nat) (r : Reader α) : Reader α := fun bytes pos =>
  r (bytes.extract 0 stop) pos

/-- Run a reader and return the bytes it passed over. -/
def captured (r : Reader α) : Reader (Array UInt8) := fun bytes pos =>
  match r bytes pos with
  | .ok _ pos' => .ok (bytes.extract pos pos') pos'
  | .error e pos' => .error e pos'

end Reader

end Wasm
