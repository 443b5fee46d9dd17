import Wasm.Func

/-!
# Wasm.Host.Closure

Host functions from typed functions. The types of parameters and results give the signature, and
arguments and results are converted on the way.

* `HostType`: the types of the host whose values are those of a WebAssembly type, bit by bit.
* `HostSignature`: what a typed function takes and yields, read off its type (`HostClosure`).
* `HostFunc.ofClosure`: the host function of a typed function.
-/

namespace Wasm

/-! ## Types of the host -/

/-- A 32-bit float of the host. It is its bits, so that a NaN keeps its payload. -/
structure F32 where
  bits : UInt32
  deriving DecidableEq, Repr

/-- A 64-bit float of the host. -/
structure F64 where
  bits : UInt64
  deriving DecidableEq, Repr

/-- Compute with the number that a float stands for. -/
def F32.map (f : Float32 → Float32) (x : F32) : F32 :=
  ⟨(f (.ofBits x.bits)).toBits⟩

def F64.map (f : Float → Float) (x : F64) : F64 :=
  ⟨(f (.ofBits x.bits)).toBits⟩

/-- Types whose values are those of a WebAssembly type: they have the type, nothing is lost on the
way there and back, and there are no others of the type. -/
class HostType (α : Type) where
  type : ValType
  ofValue? : Value → Option α
  toValue : α → Value
  type_toValue : ∀ a, (toValue a).type = type := by exact fun _ => rfl
  ofValue?_toValue : ∀ a, ofValue? (toValue a) = some a := by exact fun _ => rfl
  exists_toValue : ∀ v : Value, v.type = type → ∃ a, toValue a = v := by
    rintro ⟨⟩ <;> simp [Value.type]

instance : HostType UInt32 where
  type := .i32
  ofValue?
    | .i32 bits => some bits
    | _ => none
  toValue := .i32

instance : HostType Int32 where
  type := .i32
  ofValue?
    | .i32 bits => some bits.toInt32
    | _ => none
  toValue n := .i32 n.toUInt32

instance : HostType UInt64 where
  type := .i64
  ofValue?
    | .i64 bits => some bits
    | _ => none
  toValue := .i64

instance : HostType Int64 where
  type := .i64
  ofValue?
    | .i64 bits => some bits.toInt64
    | _ => none
  toValue n := .i64 n.toUInt64

instance : HostType F32 where
  type := .f32
  ofValue?
    | .f32 bits => some ⟨bits⟩
    | _ => none
  toValue x := .f32 x.bits

instance : HostType F64 where
  type := .f64
  ofValue?
    | .f64 bits => some ⟨bits⟩
    | _ => none
  toValue x := .f64 x.bits

/-- What a host function may yield: nothing or one value. -/
class HostResult (ρ : Type) where
  types : List ValType
  toValues : ρ → List Value
  types_toValues : ∀ r, (toValues r).map Value.type = types := by exact fun _ => rfl

instance : HostResult Unit where
  types := []
  toValues _ := []

instance [HostType α] : HostResult α where
  types := [HostType.type α]
  toValues a := [HostType.toValue a]
  types_toValues a := congrArg (fun t => [t]) (HostType.type_toValue a)

/-! ## Typed functions -/

/-- What a typed host function does: bytes to be written, and its result. -/
structure HostEffect (ρ : Type) where
  writes : List (Nat × List UInt8) := []
  result : ρ

/-- The reply to arguments that do not fit. -/
def HostReply.misfit : HostReply :=
  { result := .error (.host "argument type mismatch") }

/-- What a typed function takes, one value after the other, and what it yields in the end. -/
inductive HostSignature : Type → Type 1 where
  | yields (ρ : Type) [HostResult ρ] : HostSignature (HostEffect ρ)
  | takes (α : Type) [HostType α] {φ : Type} (rest : HostSignature φ) : HostSignature (α → φ)

namespace HostSignature

def params : {φ : Type} → HostSignature φ → List ValType
  | _, @yields _ _ => []
  | _, @takes α _ _ rest => HostType.type α :: rest.params

def results : {φ : Type} → HostSignature φ → List ValType
  | _, @yields ρ _ => HostResult.types ρ
  | _, @takes _ _ _ rest => rest.results

/-- Apply a typed function to values, each of which has to fit its parameter. -/
def apply : {φ : Type} → HostSignature φ → φ → List Value → HostReply
  | _, @yields _ _, e, _ => { writes := e.writes, result := .ok (HostResult.toValues e.result) }
  | _, @takes _ _ _ rest, f, v :: vs =>
    match HostType.ofValue? v with
    | some a => rest.apply (f a) vs
    | none => .misfit
  | _, @takes _ _ _ _, _, [] => .misfit

end HostSignature

/-- The types of typed functions. -/
class HostClosure (φ : Type) where
  signature : HostSignature φ

instance [HostResult ρ] : HostClosure (HostEffect ρ) := ⟨.yields ρ⟩

instance [HostType α] [HostClosure φ] : HostClosure (α → φ) :=
  ⟨.takes α HostClosure.signature⟩

/-- The host function of a typed function that sees the caller. -/
def HostFunc.ofClosure [HostClosure φ] (label : String) (f : HostContext → φ) : HostFunc :=
  let signature : HostSignature φ := HostClosure.signature
  { label
    type := ⟨signature.params, signature.results⟩
    run context args := signature.apply (f context) args }

end Wasm
