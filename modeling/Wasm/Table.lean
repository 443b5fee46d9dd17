import Wasm.Link.Error

/-!
# Wasm.Table

Tables of functions: slots that are empty or hold an index of the functions of the instance. A
table only grows, and never past its maximum.
-/

namespace Wasm

/-- A table: its slots and the limits it was declared with. -/
structure Table where
  slots : Array (Option UInt32)
  limits : Limits
  deriving DecidableEq, Repr

namespace Table

/-- A table without slots. -/
def empty (limits : Limits) : Table := ⟨#[], limits⟩

/-- The number of slots. -/
def size (t : Table) : Nat := t.slots.size

/-- The most slots the table may have. -/
def cap (t : Table) : Nat :=
  match t.limits.max with
  | some max => max.toNat
  | none => UInt32.size - 1

/-- The function index in a slot. -/
def get (t : Table) (index : UInt32) : Except Trap UInt32 :=
  match t.slots[index.toNat]? with
  | some (some func) => .ok func
  | some none => .error (.uninitializedElement index)
  | none => .error (.undefinedElement index)

/-- Extend a table with empty slots to a size; it never shrinks. -/
def extend (t : Table) (size : Nat) : Table :=
  { t with slots := t.slots ++ Array.replicate (size - t.slots.size) none }

/-- Extend to the declared minimum. -/
def ensureMin (t : Table) : Except LinkError Table :=
  let min := t.limits.min.toNat
  if t.cap < min then .error (.sizeExceedsMaximum .tableMinimum min t.cap)
  else .ok (t.extend min)

/-- Put function indices into slots in a row; nothing happens past the end. -/
def putFuncs (slots : Array (Option UInt32)) (i : Nat) : List UInt32 → Array (Option UInt32)
  | [] => slots
  | f :: fs => putFuncs (slots.setIfInBounds i (some f)) (i + 1) fs

/-- Put an element segment at an offset, with new slots where it runs past the end. -/
def writeSegment (t : Table) (offset : UInt32) (funcs : List UInt32) : Except LinkError Table :=
  let stop := offset.toNat + funcs.length
  if t.cap < stop then .error (.sizeExceedsMaximum (.segment .element) stop t.cap)
  else
    let t := t.extend stop
    .ok { t with slots := putFuncs t.slots offset.toNat funcs }

end Table

end Wasm
