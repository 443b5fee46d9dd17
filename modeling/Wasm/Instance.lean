import Wasm.Link
import Wasm.Machine

/-!
# Wasm.Instance

Instances: modules linked, initialized and ready to be called. A call takes an instance to another
one, also when it traps. Calls may run for ever, so a caller says for how many instructions; `none`
means that the call was not over by then.
-/

namespace Wasm

/-- What an export refers to. -/
structure ExportRef where
  kind : ExternKind
  index : UInt32
  deriving DecidableEq, Repr

/-- A linked and initialized module. -/
structure Instance where
  module : Module
  space : IndexSpace
  exports : NameMap ExportRef
  stack : Stack
  config : EngineConfig
  /-- The fuel that is left, if runs are metered. -/
  fuel : Option Nat

/-- What comes of a call: its results or a trap, the instance after it, and the host calls made. -/
structure CallResult where
  outcome : Except Trap (List Value)
  after : Instance
  hostCalls : Array HostCall := #[]

/-- What comes of an instantiation: the instance or an error, and the host calls made. -/
structure Instantiation where
  result : Except LinkError Instance
  hostCalls : Array HostCall := #[]

namespace Instance

/-! ## Calls -/

/-- The instance with what a call left behind. -/
def resume (i : Instance) (s : Store) : Instance :=
  { i with space := s.space, stack := s.stack, fuel := s.fuel }

/-- Run a function on arguments of its types. -/
def execute (i : Instance) (steps : Nat) (index : UInt32) (args : List Value) :
    Machine.Outcome :=
  match Store.onStack (Stack.pushAll (args.map Value.cell)) ⟨i.space, i.stack, i.fuel, #[]⟩ with
  | .error t s => .trapped t s
  | .ok _ s => s.invoke i.config steps index

/-- What comes of a call whose execution is over. A trap clears the operand stack. -/
def finish (i : Instance) (type : FuncType) : Machine.Outcome → Option CallResult
  | .running _ => none
  | .trapped t s => some ⟨.error t, i.resume { s with stack := s.stack.clear }, s.hostCalls⟩
  | .returned s =>
    match Store.onStack (Stack.popMany type.results.length) s with
    | .error t s => some ⟨.error t, i.resume s, s.hostCalls⟩
    | .ok cells s =>
      some ⟨.ok (List.zipWith Value.ofCell type.results cells.toList), i.resume s, s.hostCalls⟩

/-- Call the function at an index. Arguments of other types than the parameters are refused. -/
def call (i : Instance) (steps : Nat) (index : UInt32) (args : List Value) : Option CallResult :=
  match i.space.funcs[index.toNat]? with
  | none =>
    some { outcome := .error (.functionIndexOutOfRange index i.space.funcs.size), after := i }
  | some f =>
    let found := args.map Value.type
    if found = f.type.params then
      i.finish f.type (i.execute steps index args)
    else
      some { outcome := .error (.argumentMismatch f.type found), after := i }

/-- Call the function exported under a name. -/
def callExport (i : Instance) (steps : Nat) (name : String) (args : List Value) :
    Option CallResult :=
  match i.exports.get? name with
  | none => some { outcome := .error (.exportNotFound name), after := i }
  | some ⟨.func, index⟩ => i.call steps index args
  | some _ => some { outcome := .error (.notAFunction name), after := i }

/-! ## Exports -/

/-- Every export as something that can be imported: functions are shared, the others are copies of
what they are now. -/
def externs (i : Instance) : NameMap Extern :=
  ⟨i.exports.entries.filterMap fun (name, ref) =>
    (i.space.get? ref.kind ref.index.toNat).map (name, ·)⟩

/-- The value of the global exported under a name. -/
def exportedGlobal? (i : Instance) (name : String) : Option Value :=
  match i.exports.get? name with
  | some ⟨.global, index⟩ => (i.space.globals[index.toNat]?).map Global.value
  | _ => none

/-! ## Memory -/

/-- The bytes of a range of the memory. -/
def readMemory? (i : Instance) (address length : Nat) : Option (List UInt8) := do
  (← i.space.memory).read? address length

/-- Replace the bytes of a range of the memory. -/
def writeMemory? (i : Instance) (address : Nat) (bytes : List UInt8) : Option Instance := do
  let m ← (← i.space.memory).write? address bytes
  return { i with space := { i.space with memory := some m } }

end Instance

/-- The numbering that the indices of a kind refer to. -/
def ExternKind.indices : ExternKind → IndexKind
  | .func => .function
  | .table => .table
  | .memory => .memory
  | .global => .global

/-- Collect exports by name, where each must refer to something; of one name the last one counts. -/
def IndexSpace.bindExports (s : IndexSpace) :
    List Export → NameMap ExportRef → Except LinkError (NameMap ExportRef)
  | [], exports => .ok exports
  | e :: rest, exports =>
    if e.index.toNat < s.count e.kind then
      s.bindExports rest (exports.insert e.name ⟨e.kind, e.index⟩)
    else .error (.indexOutOfRange e.kind.indices e.index (s.count e.kind))

/-- Run the start function of a module. -/
def Instance.runStart (i : Instance) (steps : Nat) (start : UInt32) : Option Instantiation :=
  if i.space.funcs.size ≤ start.toNat then
    some { result := .error (.indexOutOfRange .function start i.space.funcs.size) }
  else
    (i.call steps start []).map fun r =>
      match r.outcome with
      | .ok _ => ⟨.ok r.after, r.hostCalls⟩
      | .error t => ⟨.error (.startFunction t), r.hostCalls⟩

/-- Link a module, bind its exports and run its start function. -/
def Module.instantiate (m : Module) (imports : Imports) (config : EngineConfig) (steps : Nat) :
    Option Instantiation :=
  let bound := do
    let space ← m.link imports
    return (space, ← space.bindExports m.exports.toList ∅)
  match bound with
  | .error e => some { result := .error e }
  | .ok (space, exports) =>
    let i : Instance := ⟨m, space, exports, { limit := config.maxStackHeight }, config, config.fuel⟩
    match m.start with
    | none => some { result := .ok i }
    | some start => i.runStart steps start

end Wasm
