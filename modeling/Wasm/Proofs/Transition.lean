import Wasm.Instance
import Wasm.Proofs.Refinement
import Wasm.Proofs.Stack

/-!
# Wasm.Proofs.Transition

What one step of a machine can do, case by case.

* `Machine.Transition` lists how an instruction can end, `Machine.Exit` what a return and
  `Machine.Entry` what a call can lead to; `Machine.step_cases`, `Machine.leave_cases` and
  `Machine.call_cases` say that there is nothing else.
* `Machine.run_induction`: what steps keep, runs keep.
* `Instance.Execution` lists how the execution of a function can end.
* `Store.enter_eq_ok` and `Store.callHost_eq_ok` say what a call takes from the stack and leaves
  there, `Store.enter_eq_error` and `Store.callHost_eq_error` how it can fail.
-/

namespace Wasm

/-! ## The operand stack of a store -/

namespace Store

variable {s s' : Store}

/-- An operation on the stack leaves everything else. -/
theorem onStack_eq_ok {x : StackM α} (h : onStack x s = .ok a s') :
    x s.stack = .ok a s'.stack ∧ s' = { s with stack := s'.stack } := by
  simp only [onStack] at h
  cases hx : x s.stack with
  | ok b stack =>
    rw [hx] at h
    cases h
    exact ⟨rfl, rfl⟩
  | error t stack =>
    rw [hx] at h
    contradiction

theorem onStack_eq_error {x : StackM α} (h : onStack x s = .error t s') :
    x s.stack = .error t s'.stack ∧ s' = { s with stack := s'.stack } := by
  simp only [onStack] at h
  cases hx : x s.stack with
  | ok b stack =>
    rw [hx] at h
    contradiction
  | error t' stack =>
    rw [hx] at h
    cases h
    exact ⟨rfl, rfl⟩

/-! ## Entering code -/

/-- Code that is entered takes its arguments from the stack, and its base is the height that is
left. -/
theorem enter_eq_ok (h : enter config c s = .ok f s') :
    ∃ args : Array UInt64, args.size = c.type.params.length ∧
      s = { s' with stack := ⟨s'.stack.cells ++ args, s'.stack.limit⟩ } ∧
      f = { code := c, locals := args ++ Array.replicate c.localCount 0,
            base := s'.stack.size } := by
  obtain ⟨args, s₁, hpop, hrest⟩ := bind_eq_ok.mp h
  split at hrest
  · contradiction
  · cases hrest
    obtain ⟨hpop, hs⟩ := onStack_eq_ok hpop
    obtain ⟨hargs, hstack⟩ := Stack.popMany_eq_ok hpop
    refine ⟨args, hargs, ?_, rfl⟩
    rw [hs, ← hstack]

/-- Code is not entered without room for its locals, or without arguments. -/
theorem enter_eq_error (h : enter config c s = .error t s') :
    t = .stackOverflow ∨ t = .stackUnderflow ∧ s.stack.size < c.type.params.length := by
  obtain hpop | ⟨args, s₁, hpop, hrest⟩ := bind_eq_error.mp h
  · obtain ⟨hsize, ht, -⟩ := Stack.popMany_eq_error (onStack_eq_error hpop).1
    exact .inr ⟨ht, hsize⟩
  · split at hrest
    · cases hrest
      exact .inl rfl
    · contradiction

end Store

/-! ## Calling host functions -/

/-- Cells that are read at types give values of these types. -/
theorem Value.types_zipWith_ofCell {types : List ValType} {cells : Array UInt64}
    (h : cells.size = types.length) :
    (List.zipWith Value.ofCell types cells.toList).map Value.type = types := by
  rw [List.map_zipWith]
  simp only [Value.type_ofCell]
  rw [← Array.length_toList] at h
  generalize cells.toList = cs at h
  induction types generalizing cs with
  | nil => rfl
  | cons type types ih =>
    obtain ⟨c, cs, rfl⟩ := List.exists_cons_of_length_eq_add_one h
    rw [List.zipWith_cons_cons, ih cs (Nat.succ.inj h)]

/-- What a host function yields has been checked. -/
theorem HostFunc.results_eq_ok {f : HostFunc} (h : f.results reply = .ok values) :
    values.map Value.type = f.type.results := by
  unfold results at h
  cases hreply : reply.result with
  | error t =>
    rw [hreply] at h
    contradiction
  | ok found =>
    simp only [hreply, Bind.bind, Except.bind] at h
    split at h
    · next htypes =>
      cases h
      exact htypes
    · contradiction

/-- It fails by itself, or by yielding other types than it declares. -/
theorem HostFunc.results_eq_error {f : HostFunc} (h : f.results reply = .error t) :
    reply.result = .error t ∨ ∃ found, t = .hostResultMismatch f.type found := by
  unfold results at h
  cases hreply : reply.result with
  | error t' =>
    rw [hreply] at h
    cases h
    exact .inl rfl
  | ok found =>
    simp only [hreply, Bind.bind, Except.bind] at h
    split at h
    · contradiction
    · cases h
      exact .inr ⟨_, rfl⟩

namespace Store

variable {s s' : Store}

/-- The store after a host function was run. -/
def replied (s : Store) (f : HostFunc) (args : List Value) : Store :=
  { s with
    space := s.space.mapMemory (·.writeAll (f.run s.space.hostContext args).writes)
    hostCalls := s.hostCalls.push ⟨f.label, args⟩ }

/-- The writes of a host function that succeeds are carried out. -/
theorem runHost_eq_ok (h : runHost f args s = .ok values s') :
    values.map Value.type = f.type.results ∧ s' = s.replied f args := by
  simp only [runHost] at h
  split at h
  · next hresults =>
    cases h
    exact ⟨HostFunc.results_eq_ok hresults, rfl⟩
  · contradiction

/-- They are carried out as well if it fails. -/
theorem runHost_eq_error (h : runHost f args s = .error t s') :
    ((f.run s.space.hostContext args).result = .error t ∨
      ∃ found, t = .hostResultMismatch f.type found) ∧ s' = s.replied f args := by
  simp only [runHost] at h
  split at h
  · contradiction
  · next hresults =>
    cases h
    exact ⟨HostFunc.results_eq_error hresults, rfl⟩

/-- A host function that succeeds takes its arguments from the stack and leaves its results there.
-/
theorem callHost_eq_ok (h : callHost f s = .ok a s') :
    ∃ (below cells : Array UInt64) (values : List Value),
      s.stack.cells = below ++ cells ∧ cells.size = f.type.params.length ∧
      values.map Value.type = f.type.results ∧
      s'.stack.cells = below ++ (values.map Value.cell).toArray := by
  obtain ⟨cells, s₁, hpop, h⟩ := bind_eq_ok.mp h
  obtain ⟨values, s₂, hrun, hpush⟩ := bind_eq_ok.mp h
  obtain ⟨hcells, hstack⟩ := Stack.popMany_eq_ok (onStack_eq_ok hpop).1
  obtain ⟨htypes, rfl⟩ := runHost_eq_ok hrun
  have hstack' := Stack.pushAll_eq_ok (onStack_eq_ok hpush).1
  exact ⟨s₁.stack.cells, cells, values, by rw [hstack], hcells, htypes, by rw [hstack']; rfl⟩

/-- A host function that ends in a trap: it was called on arguments of its types, and the store is
the one it left behind. -/
def Raised (s : Store) (f : HostFunc) (t : Trap) (s' : Store) : Prop :=
  ∃ args, args.map Value.type = f.type.params ∧
    (f.run s.space.hostContext args).result = .error t ∧
    s'.space = (s.replied f args).space ∧ s'.hostCalls = (s.replied f args).hostCalls

/-- How a call of a host function can fail. -/
theorem callHost_eq_error (h : callHost f s = .error t s') :
    s.Raised f t s' ∨ (∃ found, t = .hostResultMismatch f.type found) ∨ t = .stackOverflow ∨
      t = .stackUnderflow ∧ s.stack.size < f.type.params.length := by
  obtain hpop | ⟨cells, s₁, hpop, h⟩ := bind_eq_error.mp h
  · obtain ⟨hsize, ht, -⟩ := Stack.popMany_eq_error (onStack_eq_error hpop).1
    exact .inr (.inr (.inr ⟨ht, hsize⟩))
  · obtain hrun | ⟨values, s₂, -, hpush⟩ := bind_eq_error.mp h
    · obtain ⟨hpop, hs⟩ := onStack_eq_ok hpop
      obtain ⟨hcells, -⟩ := Stack.popMany_eq_ok hpop
      obtain ⟨hresult | hmismatch, rfl⟩ := runHost_eq_error hrun
      · rw [hs] at hresult ⊢
        exact .inl ⟨_, Value.types_zipWith_ofCell hcells, hresult, rfl, rfl⟩
      · exact .inr (.inl hmismatch)
    · obtain ⟨ht, -⟩ := Stack.pushAll_eq_error (onStack_eq_error hpush).1
      exact .inr (.inr (.inl ht))

end Store

namespace Machine

/-! ## Returns -/

/-- How a return from the running frame can end. -/
inductive Exit (m : Machine) : Outcome → Prop where
  | failed (h : m.store.stack.size < m.frame.base + m.frame.code.type.results.length) :
      Exit m (.trapped .stackUnderflow m.store)
  | finished
      (h : Stack.unwind m.frame.base m.frame.code.type.results.length m.store.stack = .ok () stack)
      (hcallers : m.callers = #[]) : Exit m (.returned { m.store with stack })
  | back
      (h : Stack.unwind m.frame.base m.frame.code.type.results.length m.store.stack = .ok () stack)
      (hcallers : m.callers = outer.push caller) :
      Exit m (.running ⟨{ m.store with stack }, caller, outer⟩)

/-- There is a caller to return to, or there is none. -/
theorem leave_cases (m : Machine) : Exit m m.leave := by
  obtain ⟨⟨space, stack, fuel, hostCalls⟩, frame, callers⟩ := m
  simp only [leave, Store.onStack]
  cases h : Stack.unwind frame.base frame.code.type.results.length stack with
  | error t stack' =>
    obtain ⟨hsize, rfl, rfl⟩ := Stack.unwind_eq_error h
    exact .failed hsize
  | ok _ stack' =>
    dsimp only
    cases hback : callers.back? with
    | none => exact .finished h (Array.back?_eq_none_iff.mp hback)
    | some caller =>
      obtain ⟨outer, rfl⟩ := Array.back?_eq_some_iff.mp hback
      rw [Array.pop_push]
      exact .back h rfl

/-! ## Calls -/

/-- How a call from the running frame can end. -/
inductive Entry (config : EngineConfig) (index : UInt32) (m : Machine) : Outcome → Prop where
  | missing (h : m.store.space.funcs[index.toNat]? = none) :
      Entry config index m
        (.trapped (.functionIndexOutOfRange index m.store.space.funcs.size) m.store)
  | hostFailed (hf : m.store.space.funcs[index.toNat]? = some (.host f))
      (h : Store.callHost f m.store = .error t s) : Entry config index m (.trapped t s)
  | host (hf : m.store.space.funcs[index.toNat]? = some (.host f))
      (h : Store.callHost f m.store = .ok () s) :
      Entry config index m (.running { m with store := s })
  | tooDeep (hf : m.store.space.funcs[index.toNat]? = some (.code c))
      (hdepth : config.maxCallDepth < m.callers.size + 2) :
      Entry config index m (.trapped .callStackExhausted m.store)
  | failed (hf : m.store.space.funcs[index.toNat]? = some (.code c))
      (h : Store.enter config c m.store = .error t s)
      (hdepth : m.callers.size + 2 ≤ config.maxCallDepth) : Entry config index m (.trapped t s)
  | entered (hf : m.store.space.funcs[index.toNat]? = some (.code c))
      (h : Store.enter config c m.store = .ok callee s)
      (hdepth : m.callers.size + 2 ≤ config.maxCallDepth) :
      Entry config index m (.running ⟨s, callee, m.callers.push m.frame⟩)

/-- A call finds no function, enters code, or runs a host function; each of them may fail. -/
theorem call_cases (config : EngineConfig) (index : UInt32) (m : Machine) :
    Entry config index m (m.call config index) := by
  obtain ⟨store, frame, callers⟩ := m
  simp only [call, Store.getFunc]
  cases hf : store.space.funcs[index.toNat]? with
  | none => exact .missing hf
  | some func =>
    cases func with
    | host f =>
      dsimp only
      cases h : Store.callHost f store with
      | error t s => exact .hostFailed hf h
      | ok _ s => exact .host hf h
    | code c =>
      dsimp only
      split
      · next hdepth => exact .tooDeep hf hdepth
      · next hdepth =>
        cases h : Store.enter config c store with
        | error t s => exact .failed hf h (Nat.le_of_not_lt hdepth)
        | ok callee s => exact .entered hf h (Nat.le_of_not_lt hdepth)

/-! ## Steps -/

/-- The machine after an instruction that left its frame as `a` and some fuel. -/
def after (m : Machine) (fuel : Option Nat) (a : Activation) : Machine :=
  ⟨⟨a.space, a.stack, fuel, m.store.hostCalls⟩, a.frame, m.callers⟩

/-- How the step of a machine can end. -/
inductive Transition (config : EngineConfig) (m : Machine) : Outcome → Prop where
  | unpaid : Transition config m (.trapped .outOfFuel m.store)
  | trapped (fuel : Option Nat) (h : Control.step m.activation = .error t a) :
      Transition config m (.trapped t (m.after fuel a).store)
  | next (fuel : Option Nat) (h : Control.step m.activation = .ok .next a) :
      Transition config m (.running (m.after fuel a))
  | ret (fuel : Option Nat) (h : Control.step m.activation = .ok .ret a)
      (hexit : Exit (m.after fuel a) o) : Transition config m o
  | call (fuel : Option Nat) (h : Control.step m.activation = .ok (.call func) a)
      (hentry : Entry config func (m.after fuel a) o) : Transition config m o

/-- Every step is one of the transitions. -/
theorem step_cases (config : EngineConfig) (m : Machine) :
    Transition config m (m.step config) := by
  obtain ⟨⟨space, stack, fuel, hostCalls⟩, frame, callers⟩ := m
  have hpaid : ∀ fuel', Store.payFuel ⟨space, stack, fuel, hostCalls⟩ =
        .ok () ⟨space, stack, fuel', hostCalls⟩ →
      Transition config ⟨⟨space, stack, fuel, hostCalls⟩, frame, callers⟩
        (step config ⟨⟨space, stack, fuel, hostCalls⟩, frame, callers⟩) := by
    intro fuel' hpay
    simp only [step, hpay]
    cases h : Control.step ⟨space, stack, frame⟩ with
    | error t a => exact .trapped fuel' h
    | ok flow a =>
      cases flow with
      | next => exact .next fuel' h
      | ret => exact .ret fuel' h (leave_cases _)
      | call func => exact .call fuel' h (call_cases config func _)
  cases fuel with
  | none => exact hpaid none rfl
  | some n =>
    cases n with
    | zero => exact .unpaid
    | succ n => exact hpaid (some n) rfl

/-- The function that the next instruction calls, if it calls one. -/
def callee? (m : Machine) : Option Func :=
  match Control.step m.activation with
  | .ok (.call index) a => a.space.funcs[index.toNat]?
  | _ => none

/-- An instruction that is paid for and calls a function. -/
theorem step_of_callee {m : Machine} (config : EngineConfig) (hcallee : m.callee? = some f)
    (hfuel : m.store.fuel ≠ some 0) :
    ∃ fuel index a, Control.step m.activation = .ok (.call index) a ∧
      (m.after fuel a).store.space.funcs[index.toNat]? = some f ∧
      m.step config = (m.after fuel a).call config index := by
  obtain ⟨⟨space, stack, fuel, hostCalls⟩, frame, callers⟩ := m
  simp only [callee?] at hcallee
  split at hcallee
  · next index a hstep =>
    have hpaid : ∃ fuel', Store.payFuel ⟨space, stack, fuel, hostCalls⟩ =
        .ok () ⟨space, stack, fuel', hostCalls⟩ := by
      cases fuel with
      | none => exact ⟨none, rfl⟩
      | some n =>
        cases n with
        | zero => exact absurd rfl hfuel
        | succ n => exact ⟨some n, rfl⟩
    obtain ⟨fuel', hpay⟩ := hpaid
    have hstep' : Control.step ⟨space, stack, frame⟩ = .ok (.call index) a := hstep
    refine ⟨fuel', index, a, hstep, hcallee, ?_⟩
    simp only [step, hpay, hstep']
    rfl
  · contradiction

/-- What holds of a machine and is kept by steps holds after any number of them. -/
theorem run_induction {P : Outcome → Prop} {m : Machine}
    (hstep : ∀ m o, P (.running m) → Transition config m o → P o) (hm : P (.running m)) (n : Nat) :
    P (m.run config n) := by
  induction n generalizing m with
  | zero => exact hm
  | succ n ih =>
    have hfirst := hstep m _ hm (m.step_cases config)
    rw [run]
    cases hs : m.step config with
    | running m' =>
      rw [hs] at hfirst
      exact ih hfirst
    | returned s => rwa [hs] at hfirst
    | trapped t s => rwa [hs] at hfirst

end Machine

namespace Instance

/-! ## Executions -/

/-- The store in which a function finds its arguments. -/
def loaded (i : Instance) (args : List Value) : Store :=
  ⟨i.space, ⟨i.stack.cells ++ (args.map Value.cell).toArray, i.stack.limit⟩, i.fuel, #[]⟩

/-- The stack has room for the arguments. -/
def Loads (i : Instance) (args : List Value) : Prop :=
  Stack.pushAll (args.map Value.cell) i.stack = .ok () (i.loaded args).stack

/-- How the execution of a function can end, or where it is after some steps. -/
inductive Execution (i : Instance) (steps : Nat) (index : UInt32) (args : List Value) :
    Machine.Outcome → Prop where
  | overflow (stack : Stack)
      (h : Stack.pushAll (args.map Value.cell) i.stack = .error .stackOverflow stack) :
      Execution i steps index args (.trapped .stackOverflow ⟨i.space, stack, i.fuel, #[]⟩)
  | missing (h : i.space.funcs[index.toNat]? = none) (hload : i.Loads args) :
      Execution i steps index args
        (.trapped (.functionIndexOutOfRange index i.space.funcs.size) (i.loaded args))
  | hostFailed (hf : i.space.funcs[index.toNat]? = some (.host f))
      (h : Store.callHost f (i.loaded args) = .error t s) (hload : i.Loads args) :
      Execution i steps index args (.trapped t s)
  | host (hf : i.space.funcs[index.toNat]? = some (.host f))
      (h : Store.callHost f (i.loaded args) = .ok () s) (hload : i.Loads args) :
      Execution i steps index args (.returned s)
  | failed (hf : i.space.funcs[index.toNat]? = some (.code c))
      (h : Store.enter i.config c (i.loaded args) = .error t s) (hload : i.Loads args) :
      Execution i steps index args (.trapped t s)
  | entered (hf : i.space.funcs[index.toNat]? = some (.code c))
      (h : Store.enter i.config c (i.loaded args) = .ok f s)
      (ho : Machine.run i.config steps ⟨s, f, #[]⟩ = o) (hload : i.Loads args) :
      Execution i steps index args o

/-- Every execution is one of the cases, by where it has come to. -/
theorem execute_cases (i : Instance) (steps : Nat) (index : UInt32) (args : List Value) :
    Execution i steps index args (i.execute steps index args) := by
  simp only [execute]
  cases hpush : Store.onStack (Stack.pushAll (args.map Value.cell)) ⟨i.space, i.stack, i.fuel, #[]⟩
    with
  | error t s =>
    obtain ⟨hpush, hs⟩ := Store.onStack_eq_error hpush
    obtain ⟨rfl, -⟩ := Stack.pushAll_eq_error hpush
    rw [hs]
    exact .overflow s.stack hpush
  | ok _ s =>
    obtain ⟨hpush, hs⟩ := Store.onStack_eq_ok hpush
    obtain rfl : s = i.loaded args := by rw [hs, Stack.pushAll_eq_ok hpush]; rfl
    have hload : i.Loads args := hpush
    simp only [Store.invoke, Store.getFunc]
    cases hf : (i.loaded args).space.funcs[index.toNat]? with
    | none => exact .missing hf hload
    | some func =>
      cases func with
      | host f =>
        dsimp only
        cases h : Store.callHost f (i.loaded args) with
        | error t s => exact .hostFailed hf h hload
        | ok _ s => exact .host hf h hload
      | code c =>
        dsimp only
        cases h : Store.enter i.config c (i.loaded args) with
        | error t s => exact .failed hf h hload
        | ok f s => exact .entered hf h rfl hload

end Instance

end Wasm
