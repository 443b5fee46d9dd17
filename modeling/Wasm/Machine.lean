import Wasm.Frame

/-!
# Wasm.Machine

Running code: one instruction after the other, with an explicit stack of callers instead of
recursion. Host functions run in place and add no frame.

* `Store` is what all frames of a call share.
* `Machine.step` runs one instruction, `Machine.run` a number of them.
* `Store.invoke` runs a function whose arguments are on the stack.
-/

namespace Wasm

/-- The limits of a run; without fuel it is not metered. -/
structure EngineConfig where
  maxCallDepth : Nat := 1024
  maxStackHeight : Nat := 1048576
  fuel : Option Nat := none
  deriving DecidableEq, Repr

/-- What all frames of a call share: the instance, the operand stack, the fuel that is left, and
the record of host calls. -/
structure Store where
  space : IndexSpace
  stack : Stack
  fuel : Option Nat
  hostCalls : Array HostCall

/-- The running frame and its callers, the nearest one last. -/
structure Machine where
  store : Store
  frame : Frame
  callers : Array Frame

/-- The state of a call after some instructions. -/
inductive Machine.Outcome where
  | running (m : Machine)
  | returned (s : Store)
  | trapped (t : Trap) (s : Store)

/-- The effect of calls on what the frames share. -/
abbrev StoreM := EStateM Trap Store

namespace Store

/-- Act on the stack. -/
def onStack (x : StackM α) : StoreM α := fun s =>
  match s with
  | ⟨space, stack, fuel, hostCalls⟩ =>
    match x stack with
    | .ok a stack => .ok a ⟨space, stack, fuel, hostCalls⟩
    | .error t stack => .error t ⟨space, stack, fuel, hostCalls⟩

/-- Pay for one instruction. -/
def payFuel : StoreM Unit := fun s =>
  match s.fuel with
  | none => .ok () s
  | some 0 => .error .outOfFuel s
  | some (n + 1) => .ok () { s with fuel := some n }

/-- The function at an index. -/
def getFunc (index : UInt32) : StoreM Func := fun s =>
  match s.space.funcs[index.toNat]? with
  | some f => .ok f s
  | none => .error (.functionIndexOutOfRange index s.space.funcs.size) s

/-- Run a host function on typed arguments: record the call and write what it writes. -/
def runHost (f : HostFunc) (args : List Value) : StoreM (List Value) := fun s =>
  let reply := f.run s.space.hostContext args
  let s := { s with
    space := s.space.mapMemory (·.writeAll reply.writes)
    hostCalls := s.hostCalls.push ⟨f.label, args⟩ }
  match f.results reply with
  | .ok values => .ok values s
  | .error t => .error t s

/-- Call a host function: take its arguments from the stack and leave its results there. -/
def callHost (f : HostFunc) : StoreM Unit := do
  let cells ← onStack (Stack.popMany f.type.params.length)
  let args := List.zipWith Value.ofCell f.type.params cells.toList
  let values ← runHost f args
  onStack (Stack.pushAll (values.map Value.cell))

/-- Enter code: take its arguments from the stack, and start with them and with zeros as locals. -/
def enter (config : EngineConfig) (c : Code) : StoreM Frame := do
  let args ← onStack (Stack.popMany c.type.params.length)
  if config.maxStackHeight < args.size + c.localCount then
    throw .stackOverflow
  else
    let base := (← get).stack.size
    return { code := c, locals := args ++ Array.replicate c.localCount 0, base }

end Store

namespace Machine

/-- Go on after a return from the running frame: keep its results and drop what else it left. -/
def leave (m : Machine) : Outcome :=
  match m with
  | ⟨store, frame, callers⟩ =>
    match Store.onStack (Stack.unwind frame.base frame.code.type.results.length) store with
    | .error t store => .trapped t store
    | .ok _ store =>
      match callers.back? with
      | none => .returned store
      | some caller => .running ⟨store, caller, callers.pop⟩

/-- Go on with a call from the running frame. -/
def call (config : EngineConfig) (index : UInt32) (m : Machine) : Outcome :=
  match m with
  | ⟨store, frame, callers⟩ =>
    match Store.getFunc index store with
    | .error t store => .trapped t store
    | .ok (.host f) store =>
      match Store.callHost f store with
      | .error t store => .trapped t store
      | .ok _ store => .running ⟨store, frame, callers⟩
    | .ok (.code c) store =>
      if config.maxCallDepth < callers.size + 2 then .trapped .callStackExhausted store
      else
        match Store.enter config c store with
        | .error t store => .trapped t store
        | .ok callee store => .running ⟨store, callee, callers.push frame⟩

/-- Run one instruction. -/
def step (config : EngineConfig) (m : Machine) : Outcome :=
  match m with
  | ⟨store, frame, callers⟩ =>
    match Store.payFuel store with
    | .error t store => .trapped t store
    | .ok _ ⟨space, stack, fuel, hostCalls⟩ =>
      match Control.step ⟨space, stack, frame⟩ with
      | .error t ⟨space, stack, _⟩ => .trapped t ⟨space, stack, fuel, hostCalls⟩
      | .ok flow ⟨space, stack, frame⟩ =>
        let m := ⟨⟨space, stack, fuel, hostCalls⟩, frame, callers⟩
        match flow with
        | .next => .running m
        | .ret => m.leave
        | .call func => m.call config func

/-- Run until the call is over, but for at most `n` instructions. -/
def run (config : EngineConfig) : (n : Nat) → Machine → Outcome
  | 0, m => .running m
  | n + 1, m =>
    match m.step config with
    | .running m => run config n m
    | outcome => outcome

end Machine

/-- Run the function at an index for at most `n` instructions. Its arguments are on the stack, and
its results will be. -/
def Store.invoke (config : EngineConfig) (n : Nat) (index : UInt32) (s : Store) :
    Machine.Outcome :=
  match Store.getFunc index s with
  | .error t s => .trapped t s
  | .ok (.host f) s =>
    match Store.callHost f s with
    | .error t s => .trapped t s
    | .ok _ s => .returned s
  | .ok (.code c) s =>
    match Store.enter config c s with
    | .error t s => .trapped t s
    | .ok frame s => Machine.run config n ⟨s, frame, #[]⟩

end Wasm
