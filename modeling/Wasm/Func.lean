import Wasm.Global
import Wasm.Memory

/-!
# Wasm.Func

Functions: code of a module, or functions of the host.

A host function sees the memory and the globals of the instance that calls it. It may write into
that memory, but not resize it, and it cannot call back; so what it does is a reply that holds the
writes and the results.
-/

namespace Wasm

/-- A function of a module. Its block types and indirect calls refer to the types of the module it
was defined in. -/
structure Code where
  type : FuncType
  body : Array UInt8
  /-- The number of declared locals, without the parameters. -/
  localCount : Nat
  types : Array FuncType
  blocks : BlockMap

/-- What a host function sees of the instance that calls it. -/
structure HostContext where
  memory : Option Memory
  globals : Array Global

/-- What a host function does: bytes it writes into the caller's memory, each run of them with its
address, and its results or the trap it ends in. -/
structure HostReply where
  writes : List (Nat × List UInt8) := []
  result : Except Trap (List Value)

/-- A function of the host, with a label for the record of calls. -/
structure HostFunc where
  label : String
  type : FuncType
  run : HostContext → List Value → HostReply

/-- A host function as an embedder sees it: its signature. -/
def HostFunc.fields (f : HostFunc) : String :=
  s!"HostFunc \x7b ty: {f.type.fields} \x7d"

/-- A call of a host function. -/
structure HostCall where
  label : String
  args : List Value
  deriving DecidableEq, Repr

/-- Write the bytes of a reply; those that lie outside the memory have no effect. -/
def Memory.writeAll (m : Memory) (writes : List (Nat × List UInt8)) : Memory :=
  writes.foldl (fun m (address, bytes) => (m.write? address bytes).getD m) m

/-- The results of a reply, which must have the declared types. -/
def HostFunc.results (f : HostFunc) (reply : HostReply) : Except Trap (List Value) := do
  let values ← reply.result
  let found := values.map Value.type
  if found = f.type.results then
    return values
  else
    throw (.hostResultMismatch f.type found)

/-- A function. -/
inductive Func where
  | code (c : Code)
  | host (f : HostFunc)

namespace Func

def type : Func → FuncType
  | .code c => c.type
  | .host f => f.type

def isHost : Func → Bool
  | .code _ => false
  | .host _ => true

end Func

end Wasm
