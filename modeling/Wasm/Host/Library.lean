import Wasm.Host.Closure

/-!
# Wasm.Host.Library

Ready-made host functions: a few with fixed behaviour, found by name, and some that are made for a
signature.
-/

namespace Wasm.HostFunc

/-! ## For a signature -/

/-- Always ends in the same way. -/
def constant (label : String) (type : FuncType) (result : Except Trap (List Value)) : HostFunc :=
  ⟨label, type, fun _ _ => { result }⟩

/-- Yields what a function makes of its arguments. -/
def mapping (label : String) (type : FuncType) (f : List Value → List Value) : HostFunc :=
  ⟨label, type, fun _ args => { result := .ok (f args) }⟩

/-! ## By name -/

/-- Yield a value and write nothing. -/
def yield (a : ρ) : HostEffect ρ := { result := a }

/-- The bytes that `fill` writes. -/
def fillBytes (length : Nat) : List UInt8 :=
  (List.range length).map fun i => .ofNat (0xA0 + i)

/-- Write a pattern into the caller's memory, if it has the whole range. -/
def fill (c : HostContext) (address length : UInt32) : HostEffect UInt32 :=
  match c.memory with
  | some m =>
    if m.covers address.toNat length.toNat then
      { writes := [(address.toNat, fillBytes length.toNat)], result := 1 }
    else yield 0
  | none => yield 0

/-- The length of the caller's memory. -/
def memoryLength (c : HostContext) : HostEffect Int64 :=
  match c.memory with
  | some m => yield (.ofNat m.size)
  | none => yield (-1)

/-- The cell of a global of the caller. -/
def globalCell (c : HostContext) (index : UInt32) : HostEffect UInt64 :=
  match c.globals[index.toNat]? with
  | some g => yield g.value.cell
  | none => yield 0xFFFFFFFFFFFFFFFF

/-- The host functions that are found by name. -/
def library : List HostFunc := [
  ofClosure "nop" fun _ => yield (),
  ofClosure "seven" fun _ => yield (7 : Int64),
  ofClosure "add_i32" fun _ (a b : Int32) => yield (a + b),
  ofClosure "div_u32" fun _ (a b : UInt32) => yield (if b = 0 then 0xFFFFFFFF else a / b),
  ofClosure "mul_i64" fun _ (a b : Int64) => yield (a * b),
  ofClosure "shr_u64" fun _ (a : UInt64) => yield (a >>> 1),
  ofClosure "half_f32" fun _ (a : F32) => yield (a.map (· * 0.5)),
  ofClosure "half_f64" fun _ (a : F64) => yield (a.map (· * 0.5)),
  ofClosure "mix3" fun _ (a : Int32) (_ : F32) (c : Int64) => yield (a.toInt64 - c),
  ofClosure "mix4" fun _ (_ : Int32) (_ : Int64) (_ : F32) (_ : F64) => yield (),
  ofClosure "fill" fill,
  ofClosure "mem_len" memoryLength,
  ofClosure "global_bits" globalCell]

/-- The host function of a name. -/
def find? (name : String) : Option HostFunc :=
  library.find? (·.label = name)

end Wasm.HostFunc
