import Wasm.Host.Closure
import Wasm.Proofs.History
import Wasm.Proofs.Metering

/-!
# Wasm.Proofs.Passing

How values pass from a caller to a function and back.

* `Value.zipWith_ofCell`: the cells of some values, read at their types, are these values.
* `Store.enter_of_args`: code starts with its arguments and zeros as locals.
* `Store.HostAnswer` lists how a host function ends that is called on some arguments;
  `Store.hostAnswer_callHost` says that there is nothing else.
* `Instance.call_of_returned`: a call yields the cells that its function leaves, read at the types
  of its results.
* `HostSignature.Applied`: what a typed function does with arguments. It has one effect on all
  arguments of its types (`HostSignature.applied_iff`), and the host function that is made of it has
  the same effect (`Store.callHost_of_applied`).
* `values_pass` puts these together; with them, code that hands its arguments to a host function
  which gives them back gives them back itself.
-/

namespace Wasm

/-! ## Cells -/

/-- The cells of some values, read at their types, are these values. -/
theorem Value.zipWith_ofCell (vs : List Value) :
    List.zipWith ofCell (vs.map type) (vs.map cell) = vs := by
  induction vs with
  | nil => rfl
  | cons v vs ih => simp [ih]

namespace Stack

variable {cells : Array UInt64} {limit : Nat}

theorem push_of_lt (c : UInt64) (h : cells.size < limit) :
    push c ⟨cells, limit⟩ = .ok () ⟨cells.push c, limit⟩ :=
  if_neg (Nat.not_le.mpr h)

/-- Cells are put on the stack if there is room for all of them. -/
theorem pushAll_of_le (h : cells.size + cs.length ≤ limit) :
    pushAll cs ⟨cells, limit⟩ = .ok () ⟨cells ++ cs.toArray, limit⟩ := by
  induction cs generalizing cells with
  | nil => simp [pushAll, pure, EStateM.pure]
  | cons c cs ih =>
    rw [List.length_cons] at h
    rw [pushAll, bind_of_ok _ (push_of_lt c (by omega)), ih (by rw [Array.size_push]; omega)]
    simp

/-- Without room for all of them, cells are pushed until the stack is full. -/
theorem pushAll_of_lt (hcells : cells.size ≤ limit) (h : limit < cells.size + cs.length) :
    ∃ s', pushAll cs ⟨cells, limit⟩ = .error .stackOverflow s' := by
  induction cs generalizing cells with
  | nil => exact absurd h (Nat.not_lt.mpr hcells)
  | cons c cs ih =>
    rw [List.length_cons] at h
    obtain rfl | hlt := Nat.eq_or_lt_of_le hcells
    · have hfull : push c ⟨cells, cells.size⟩ = .error .stackOverflow ⟨cells, cells.size⟩ :=
        if_pos (Nat.le_refl _)
      exact ⟨_, bind_eq_error.mpr (.inl hfull)⟩
    · rw [pushAll, bind_of_ok _ (push_of_lt c hlt)]
      exact ih (by rw [Array.size_push]; omega) (by rw [Array.size_push]; omega)

end Stack

/-! ## Replies of host functions -/

namespace HostFunc

theorem results_of_error {f : HostFunc} (h : reply.result = .error t) :
    f.results reply = .error t := by
  rw [results, h]
  rfl

/-- The types of what a host function yields are compared with the declared ones, all of them and in
order. -/
theorem results_of_ok {f : HostFunc} (h : reply.result = .ok values) :
    f.results reply = if values.map Value.type = f.type.results then .ok values
      else .error (.hostResultMismatch f.type (values.map Value.type)) := by
  rw [results, h]
  rfl

end HostFunc

/-! ## Entering code -/

/-- The frame in which code starts on arguments: they and then zeros are its locals. -/
def Code.started (c : Code) (args : List Value) (base : Nat) : Frame :=
  { code := c, locals := (args.map Value.cell).toArray ++ Array.replicate c.localCount 0, base }

namespace Store

variable {s : Store} {args : List Value} {below : Array UInt64}

theorem onStack_of_ok {x : StackM α} {stack : Stack} (h : x s.stack = .ok a stack) :
    onStack x s = .ok a { s with stack } := by
  simp only [onStack, h]

theorem onStack_of_error {x : StackM α} {stack : Stack} (h : x s.stack = .error t stack) :
    onStack x s = .error t { s with stack } := by
  simp only [onStack, h]

/-- The store with its stack lowered to what lies below some operands. -/
def lowered (s : Store) (below : Array UInt64) : Store :=
  { s with stack := ⟨below, s.stack.limit⟩ }

/-- What lies on top is taken, and what lies below stays. -/
theorem popMany_of_append {cells : Array UInt64} (hs : s.stack.cells = below ++ cells) :
    onStack (Stack.popMany cells.size) s = .ok cells (s.lowered below) := by
  have hpop := Stack.popMany_append below cells s.stack.limit
  rw [← hs] at hpop
  exact onStack_of_ok hpop

/-- Code that is entered on arguments starts with them, unless there is no room for its locals. -/
theorem enter_of_args (hs : s.stack.cells = below ++ (args.map Value.cell).toArray)
    (hargs : args.map Value.type = c.type.params) :
    enter config c s =
      if config.maxStackHeight < args.length + c.localCount then
        .error .stackOverflow (s.lowered below)
      else .ok (c.started args below.size) (s.lowered below) := by
  have hsize : (args.map Value.cell).toArray.size = c.type.params.length := by simp [← hargs]
  have hpop := popMany_of_append hs
  rw [hsize] at hpop
  rw [enter, bind_of_ok _ hpop]
  simp only [List.size_toArray, List.length_map]
  split <;> rfl

/-! ## Calling host functions -/

/-- How a host function can end that is called on arguments which lie on top of `below`. -/
inductive HostAnswer (s : Store) (f : HostFunc) (args : List Value) (below : Array UInt64) :
    EStateM.Result Trap Store Unit → Prop where
  | raised (h : (f.run s.space.hostContext args).result = .error t) :
      HostAnswer s f args below (.error t ((s.replied f args).lowered below))
  | mismatched (h : (f.run s.space.hostContext args).result = .ok values)
      (htypes : values.map Value.type ≠ f.type.results) :
      HostAnswer s f args below (.error (.hostResultMismatch f.type (values.map Value.type))
        ((s.replied f args).lowered below))
  | overflowed (s' : Store) (h : (f.run s.space.hostContext args).result = .ok values)
      (htypes : values.map Value.type = f.type.results)
      (hroom : s.stack.limit < below.size + values.length) :
      HostAnswer s f args below (.error .stackOverflow s')
  | answered (h : (f.run s.space.hostContext args).result = .ok values)
      (htypes : values.map Value.type = f.type.results)
      (hroom : below.size + values.length ≤ s.stack.limit) :
      HostAnswer s f args below
        (.ok () ((s.replied f args).lowered (below ++ (values.map Value.cell).toArray)))

/-- A host function that yields values of its types leaves their cells. -/
theorem HostAnswer.eq_ok (h : s.HostAnswer f args below r)
    (hresult : (f.run s.space.hostContext args).result = .ok values)
    (htypes : values.map Value.type = f.type.results)
    (hroom : below.size + values.length ≤ s.stack.limit) :
    r = .ok () ((s.replied f args).lowered (below ++ (values.map Value.cell).toArray)) := by
  cases h with
  | raised h =>
    rw [hresult] at h
    contradiction
  | mismatched h hne =>
    cases hresult.symm.trans h
    exact absurd htypes hne
  | overflowed s' h _ hfull =>
    cases hresult.symm.trans h
    exact absurd hroom (Nat.not_le.mpr hfull)
  | answered h =>
    cases hresult.symm.trans h
    rfl

/-- Without room for them, it does not. -/
theorem HostAnswer.eq_error (h : s.HostAnswer f args below r)
    (hresult : (f.run s.space.hostContext args).result = .ok values)
    (htypes : values.map Value.type = f.type.results)
    (hfull : s.stack.limit < below.size + values.length) :
    ∃ s', r = .error .stackOverflow s' := by
  cases h with
  | raised h =>
    rw [hresult] at h
    contradiction
  | mismatched h hne =>
    cases hresult.symm.trans h
    exact absurd htypes hne
  | overflowed s' => exact ⟨s', rfl⟩
  | answered h _ hroom =>
    cases hresult.symm.trans h
    exact absurd hroom (Nat.not_le.mpr hfull)

theorem runHost_of_ok (h : f.results (f.run s.space.hostContext args) = .ok values) :
    runHost f args s = .ok values (s.replied f args) := by
  simp only [runHost, h]
  rfl

theorem runHost_of_error (h : f.results (f.run s.space.hostContext args) = .error t) :
    runHost f args s = .error t (s.replied f args) := by
  simp only [runHost, h]
  rfl

/-- What lies on the stack may be more than the types of the parameters can see. -/
theorem hostAnswer_of_cells {cells : Array UInt64} (hs : s.stack.cells = below ++ cells)
    (hcells : cells.size = f.type.params.length) (hbelow : below.size ≤ s.stack.limit) :
    HostAnswer s f (List.zipWith Value.ofCell f.type.params cells.toList) below
      (callHost f s) := by
  have hpop := popMany_of_append hs
  rw [hcells] at hpop
  rw [callHost, bind_of_ok _ hpop]
  generalize List.zipWith Value.ofCell f.type.params cells.toList = args
  cases hreply : (f.run s.space.hostContext args).result with
  | error t =>
    have hrun : runHost f args (s.lowered below) =
        .error t ((s.replied f args).lowered below) :=
      runHost_of_error (HostFunc.results_of_error hreply)
    rw [bind_eq_error.mpr (.inl hrun)]
    exact .raised hreply
  | ok values =>
    have hresults := HostFunc.results_of_ok (f := f) hreply
    by_cases htypes : values.map Value.type = f.type.results
    · rw [if_pos htypes] at hresults
      have hrun : runHost f args (s.lowered below) =
          .ok values ((s.replied f args).lowered below) := runHost_of_ok hresults
      rw [bind_of_ok _ hrun]
      by_cases hroom : below.size + values.length ≤ s.stack.limit
      · have hpush : Stack.pushAll (values.map Value.cell) ⟨below, s.stack.limit⟩ = _ :=
          Stack.pushAll_of_le (by simpa using hroom)
        rw [onStack_of_ok (s := (s.replied f args).lowered below) hpush]
        exact .answered hreply htypes hroom
      · obtain ⟨stack, hpush⟩ : ∃ stack, Stack.pushAll (values.map Value.cell)
            ⟨below, s.stack.limit⟩ = .error .stackOverflow stack :=
          Stack.pushAll_of_lt hbelow (by simpa using hroom)
        rw [onStack_of_error (s := (s.replied f args).lowered below) hpush]
        exact .overflowed _ hreply htypes (Nat.lt_of_not_le hroom)
    · rw [if_neg htypes] at hresults
      have hrun : runHost f args (s.lowered below) =
          .error _ ((s.replied f args).lowered below) := runHost_of_error hresults
      rw [bind_eq_error.mpr (.inl hrun)]
      exact .mismatched hreply htypes

/-- A host function receives exactly the arguments whose cells lie on the stack. -/
theorem hostAnswer_callHost (hs : s.stack.cells = below ++ (args.map Value.cell).toArray)
    (hargs : args.map Value.type = f.type.params) (hbelow : below.size ≤ s.stack.limit) :
    HostAnswer s f args below (callHost f s) := by
  have hanswer := hostAnswer_of_cells hs (f := f) (by simp [← hargs]) hbelow
  rwa [List.toList_toArray, ← hargs, Value.zipWith_ofCell] at hanswer

end Store

/-! ## Calls -/

/-- How a run goes on after a host function. -/
def Machine.Outcome.afterHost (next : Store → Machine.Outcome) :
    EStateM.Result Trap Store Unit → Machine.Outcome
  | .ok _ s => next s
  | .error t s => .trapped t s

/-- A host function that is called by code runs in place. -/
theorem Machine.call_host {m : Machine} (config : EngineConfig)
    (hf : m.store.space.funcs[index.toNat]? = some (.host f)) :
    m.call config index =
      .afterHost (fun s => .running { m with store := s }) (Store.callHost f m.store) := by
  obtain ⟨store, frame, callers⟩ := m
  have hget : Store.getFunc index store = .ok (.host f) store := by
    simp only [Store.getFunc, hf]
  simp only [call, hget, Outcome.afterHost]
  cases Store.callHost f store <;> rfl

namespace Instance

variable {i : Instance} {index : UInt32} {args : List Value}

/-- A call with arguments of the right types is executed, and its result is typed. -/
theorem call_of_args (hf : i.space.funcs[index.toNat]? = some func)
    (hargs : args.map Value.type = func.type.params) :
    i.call steps index args = i.finish func.type (i.execute steps index args) := by
  simp only [call, hf, if_pos hargs]

/-- The arguments are loaded if there is room. -/
theorem execute_of_room (hroom : i.stack.size + args.length ≤ i.stack.limit) :
    i.execute steps index args = (i.loaded args).invoke i.config steps index := by
  have hpush : Stack.pushAll (args.map Value.cell) i.stack = .ok () (i.loaded args).stack :=
    Stack.pushAll_of_le (by rwa [List.length_map])
  rw [execute, Store.onStack_of_ok hpush]
  rfl

/-- Without room, the function is not reached. -/
theorem execute_of_no_room (steps : Nat) (index : UInt32) (hi : i.stack.size ≤ i.stack.limit)
    (hroom : i.stack.limit < i.stack.size + args.length) :
    ∃ stack, i.execute steps index args =
      .trapped .stackOverflow ⟨i.space, stack, i.fuel, #[]⟩ := by
  obtain ⟨stack, hpush⟩ : ∃ stack, Stack.pushAll (args.map Value.cell) i.stack =
      .error .stackOverflow stack :=
    Stack.pushAll_of_lt hi (by rwa [List.length_map])
  exact ⟨stack, by rw [execute, Store.onStack_of_error hpush]⟩

/-- There is room for the arguments of code and for its locals. -/
structure HasRoom (i : Instance) (c : Code) (args : List Value) : Prop where
  stack : i.stack.size + args.length ≤ i.stack.limit
  locals : args.length + c.localCount ≤ i.config.maxStackHeight

/-- A host function that is called from outside runs on the stack of the instance. -/
theorem execute_host (hf : i.space.funcs[index.toNat]? = some (.host f))
    (hroom : i.stack.size + args.length ≤ i.stack.limit) :
    i.execute steps index args = .afterHost .returned (Store.callHost f (i.loaded args)) := by
  have hget : Store.getFunc index (i.loaded args) = .ok (.host f) (i.loaded args) := by
    simp only [Store.getFunc, loaded, hf]
  rw [execute_of_room hroom]
  simp only [Store.invoke, hget, Machine.Outcome.afterHost]
  cases Store.callHost f (i.loaded args) <;> rfl

section

variable (hf : i.space.funcs[index.toNat]? = some (.code c))
  (hargs : args.map Value.type = c.type.params)

include hf hargs

/-- Code starts on its arguments unless there is no room for its locals. -/
theorem invoke_code : (i.loaded args).invoke i.config steps index =
    if i.config.maxStackHeight < args.length + c.localCount then
      .trapped .stackOverflow ⟨i.space, i.stack, i.fuel, #[]⟩
    else Machine.run i.config steps
      ⟨⟨i.space, i.stack, i.fuel, #[]⟩, c.started args i.stack.size, #[]⟩ := by
  have hget : Store.getFunc index (i.loaded args) = .ok (.code c) (i.loaded args) := by
    simp only [Store.getFunc, loaded, hf]
  have henter : Store.enter i.config c (i.loaded args) = _ := Store.enter_of_args rfl hargs
  by_cases hlocals : i.config.maxStackHeight < args.length + c.localCount
  · rw [if_pos hlocals] at henter ⊢
    simp only [Store.invoke, hget, henter]
    rfl
  · rw [if_neg hlocals] at henter ⊢
    simp only [Store.invoke, hget, henter]
    rfl

/-- Code that is called starts on its arguments. -/
theorem call_code (hroom : i.HasRoom c args) :
    i.call steps index args = i.finish c.type (Machine.run i.config steps
      ⟨⟨i.space, i.stack, i.fuel, #[]⟩, c.started args i.stack.size, #[]⟩) := by
  rw [call_of_args hf hargs, execute_of_room hroom.stack, invoke_code hf hargs,
    if_neg (Nat.not_lt.mpr hroom.locals)]
  rfl

/-- Without room, whether for the arguments or for the locals, the call traps. -/
theorem call_code_of_not_hasRoom (hi : i.stack.size ≤ i.stack.limit)
    (hroom : ¬ i.HasRoom c args) :
    ∃ after, i.call steps index args = some ⟨.error .stackOverflow, after, #[]⟩ := by
  rw [call_of_args hf hargs]
  by_cases hstack : i.stack.size + args.length ≤ i.stack.limit
  · have hlocals : i.config.maxStackHeight < args.length + c.localCount :=
      Nat.lt_of_not_le fun hlocals => hroom ⟨hstack, hlocals⟩
    rw [execute_of_room hstack, invoke_code hf hargs, if_pos hlocals]
    exact ⟨_, rfl⟩
  · obtain ⟨stack, hexecute⟩ := execute_of_no_room steps index hi (Nat.lt_of_not_le hstack)
    rw [hexecute]
    exact ⟨_, rfl⟩

end

/-- A function that returns has taken its arguments and left its results. -/
theorem Execution.size_returned (h : i.Execution steps index args (.returned s))
    (hf : i.space.funcs[index.toNat]? = some func)
    (hargs : args.map Value.type = func.type.params) :
    s.stack.size = i.stack.size + func.type.results.length := by
  have hlength : (i.loaded args).stack.cells.size = i.stack.size + func.type.params.length := by
    simp [loaded, Stack.size, ← hargs]
  cases h with
  | @host f _ hf' h =>
    obtain rfl := Option.some.inj (hf.symm.trans hf')
    obtain ⟨below, cells, values, hcells, hparams, hresults, hstack⟩ := Store.callHost_eq_ok h
    rw [hcells, Array.size_append, hparams, Func.type] at hlength
    rw [Stack.size, hstack, Array.size_append, Nat.add_right_cancel hlength, Func.type, ← hresults]
    simp
  | @entered c f s₁ _ hf' h ho =>
    obtain rfl := Option.some.inj (hf.symm.trans hf')
    obtain ⟨cells, hparams, hloaded, rfl⟩ := Store.enter_eq_ok h
    rw [hloaded] at hlength
    simp only [Array.size_append, hparams, Func.type] at hlength
    rw [Machine.size_of_run_returned ho]
    simp [Machine.outermost, Stack.size, Nat.add_right_cancel hlength, Func.type]

/-- A call yields the cells that its function leaves on top, read at the types of its results. -/
theorem call_of_returned (hf : i.space.funcs[index.toNat]? = some func)
    (hargs : args.map Value.type = func.type.params)
    (ho : i.execute steps index args = .returned s) :
    ∃ below cells : Array UInt64, s.stack.cells = below ++ cells ∧ below.size = i.stack.size ∧
      cells.size = func.type.results.length ∧
      i.call steps index args =
        some ⟨.ok (List.zipWith Value.ofCell func.type.results cells.toList),
          i.resume (s.lowered below), s.hostCalls⟩ := by
  have hexecution := i.execute_cases steps index args
  rw [ho] at hexecution
  have hsize := hexecution.size_returned hf hargs
  obtain ⟨below, cells, hs, hcells⟩ :=
    s.stack.exists_append (n := func.type.results.length) (by omega)
  have hpop := Store.popMany_of_append hs
  rw [hcells] at hpop
  refine ⟨below, cells, hs, ?_, hcells, ?_⟩
  · rw [Stack.size, hs, Array.size_append, hcells] at hsize
    omega
  · rw [call_of_args hf hargs, ho]
    simp only [finish, hpop]
    rfl

end Instance

/-! ## Code that hands its arguments on -/

/-- The bytes put the first `n` locals on the stack, each instruction in any spelling. -/
inductive Gets : Nat → List UInt8 → Prop where
  | nil : Gets 0 []
  | snoc (h : Gets n bs) (hindex : index.toNat = n)
      (hcs : Instr.Spells (.plain (.localGet index)) cs) : Gets (n + 1) (bs ++ cs)

/-- Code that calls a function with all its parameters, and returns what comes of it. -/
def Code.Forwards (c : Code) (func : UInt32) : Prop :=
  ∃ gets call, Gets c.type.params.length gets ∧ Instr.Spells (.call func) call ∧
    c.body.toList = gets ++ (call ++ [endOpcode])

/-- A host function that gives back its arguments. -/
structure HostFunc.Echoes (f : HostFunc) (params : List ValType) : Prop where
  type : f.type = ⟨params, params⟩
  result : ∀ context args, args.map Value.type = params → (f.run context args).result = .ok args

namespace Machine

/-- The fuel is not used up by `n` instructions. -/
def Lasts (fuel : Option Nat) (n : Nat) : Prop := ∀ k, fuel = some k → n ≤ k

/-- The fuel after `n` instructions. -/
def burnt (fuel : Option Nat) (n : Nat) : Option Nat := fuel.map (· - n)

/-- An instruction that is paid for and carried out decides how the machine goes on. -/
theorem step_of_ok {m : Machine} (hfuel : Lasts m.store.fuel 1)
    (h : Control.step m.activation = .ok flow a) :
    m.step config = (match flow with
      | .next => .running (m.after (burnt m.store.fuel 1) a)
      | .ret => (m.after (burnt m.store.fuel 1) a).leave
      | .call func => (m.after (burnt m.store.fuel 1) a).call config func) := by
  obtain ⟨⟨space, stack, fuel, hostCalls⟩, frame, callers⟩ := m
  have hpay : Store.payFuel ⟨space, stack, fuel, hostCalls⟩ =
      .ok () ⟨space, stack, burnt fuel 1, hostCalls⟩ := by
    cases fuel with
    | none => rfl
    | some k =>
      cases k with
      | zero => exact absurd (hfuel 0 rfl) (Nat.not_succ_le_zero 0)
      | succ k => rfl
  have hstep : Control.step ⟨space, stack, frame⟩ = .ok flow a := h
  simp only [step, hpay, hstep]
  cases flow <;> rfl

/-- The return of the outermost frame ends the run. -/
theorem leave_outermost {m : Machine}
    (h : Stack.unwind m.frame.base m.frame.code.type.results.length m.store.stack = .ok () stack)
    (hcallers : m.callers = #[]) : m.leave = .returned { m.store with stack } := by
  obtain ⟨store, frame, callers⟩ := m
  obtain rfl := hcallers
  simp only [leave, Store.onStack_of_ok h]
  rfl

/-- Fuel is burnt instruction by instruction. -/
theorem burnt_burnt (fuel : Option Nat) (n k : Nat) :
    burnt (burnt fuel n) k = burnt fuel (n + k) := by
  cases fuel with
  | none => rfl
  | some f => simp [burnt, Nat.sub_sub]

theorem Lasts.mono {fuel : Option Nat} (h : Lasts fuel n) (hk : k ≤ n) : Lasts fuel k :=
  fun left hleft => Nat.le_trans hk (h left hleft)

theorem Lasts.burnt {fuel : Option Nat} (h : Lasts fuel (n + k)) : Lasts (burnt fuel n) k := by
  intro left hleft
  cases fuel with
  | none => contradiction
  | some f =>
    obtain rfl : f - n = left := Option.some.inj hleft
    have hle := h f rfl
    omega

end Machine

/-- A host function that gives back its arguments leaves the stack as it was. -/
theorem Store.callHost_echo {s : Store} {args : List Value} (hecho : f.Echoes params)
    (hs : s.stack.cells = below ++ (args.map Value.cell).toArray)
    (hargs : args.map Value.type = params) (hroom : s.stack.size ≤ s.stack.limit) :
    callHost f s = .ok () (s.replied f args) := by
  have hsize : s.stack.size = below.size + args.length := by simp [Stack.size, hs]
  have hanswer : s.HostAnswer f args below (callHost f s) :=
    hostAnswer_callHost hs (by rw [hecho.type, hargs]) (by omega)
  have hresult := hecho.result s.space.hostContext args hargs
  rw [hanswer.eq_ok hresult (by rw [hecho.type, hargs]) (by omega), ← hs]
  rfl

/-- Putting a local on the stack. -/
theorem PlainInstr.exec_localGet {locals : Locals} (hget : locals[index.toNat]? = some c)
    (hroom : cells.size < limit) :
    (localGet index).exec ⟨space, ⟨cells, limit⟩, locals⟩ =
      .ok () ⟨space, ⟨cells.push c, limit⟩, locals⟩ := by
  have hlocal : Exec.onLocals (Locals.get index) ⟨space, ⟨cells, limit⟩, locals⟩ =
      .ok c ⟨space, ⟨cells, limit⟩, locals⟩ := by
    simp only [Exec.onLocals, Locals.get, hget]
  rw [exec, bind_of_ok _ hlocal]
  simp only [Exec.push, Exec.onStack, Stack.push_of_lt c hroom]

namespace Code

variable {c : Code} {args : List Value} {s : Store}

/-- Code that was started on arguments and has come to a position. -/
def standing (c : Code) (args : List Value) (base pos : Nat) (s : Store) : Machine :=
  ⟨s, { c.started args base with pc := pos }, #[]⟩

/-- A `local.get` puts the cell of its local on the stack. -/
theorem step_get (base : Nat) (config : EngineConfig)
    (hcs : Instr.Spells (.plain (.localGet index)) cs) (hbody : StandsAt c.body pos cs)
    (hlocal : (c.started args base).locals[index.toNat]? = some cell)
    (hroom : s.stack.size < s.stack.limit) (hfuel : Machine.Lasts s.fuel 1) :
    (c.standing args base pos s).step config = .running (c.standing args base (pos + cs.length)
      { s with
        stack := ⟨s.stack.cells.push cell, s.stack.limit⟩
        fuel := Machine.burnt s.fuel 1 }) := by
  have hexec : (PlainInstr.localGet index).exec
      ⟨s.space, s.stack, (c.started args base).locals⟩ = _ :=
    PlainInstr.exec_localGet hlocal hroom
  have hstep : Control.step (c.standing args base pos s).activation =
      .ok .next (c.activation base (pos + cs.length) []
        ⟨s.space, ⟨s.stack.cells.push cell, s.stack.limit⟩, (c.started args base).locals⟩) := by
    have hread := step_activation base [] ⟨s.space, s.stack, (c.started args base).locals⟩
      hcs.read hbody
    refine hread.trans ((Instr.exec_plain _ pos).trans ?_)
    simp only [activation] at hexec ⊢
    rw [hexec]
  rw [Machine.step_of_ok hfuel hstep]
  rfl

/-- The instructions put the arguments on the stack, one after the other. -/
theorem run_gets (base : Nat) (config : EngineConfig) (hgets : Gets n gets)
    (hbody : StandsAt c.body 0 gets) (hn : n ≤ args.length)
    (hroom : s.stack.size + n ≤ s.stack.limit) (hfuel : Machine.Lasts s.fuel n) :
    (c.standing args base 0 s).run config n = .running (c.standing args base gets.length
      { s with
        stack := ⟨s.stack.cells ++ ((args.take n).map Value.cell).toArray, s.stack.limit⟩
        fuel := Machine.burnt s.fuel n }) := by
  induction hgets with
  | nil =>
    obtain ⟨space, stack, fuel, hostCalls⟩ := s
    cases fuel <;> simp [Machine.run, Machine.burnt]
  | @snoc n bs index cs h hindex hcs ih =>
    have hfirst := ih hbody.left (by omega) (by omega) (hfuel.mono (Nat.le_succ n))
    have hcs' : StandsAt c.body bs.length cs := by simpa using hbody.right
    have hlocal : (c.started args base).locals[index.toNat]? = some args[n].cell := by
      rw [started, Array.getElem?_append_left (by simp; omega)]
      simp [hindex, List.getElem?_eq_getElem hn]
    have hcells : s.stack.cells ++ ((args.take (n + 1)).map Value.cell).toArray =
        (s.stack.cells ++ ((args.take n).map Value.cell).toArray).push args[n].cell := by
      apply Array.toList_inj.mp
      rw [List.take_succ_eq_append_getElem hn, List.map_append]
      simp [-List.map_take]
    have hsize : (s.stack.cells ++ ((args.take n).map Value.cell).toArray).size <
        s.stack.limit := by
      simp [Stack.size] at *
      omega
    rw [Machine.run_succ, hfirst, hcells, List.length_append, ← Machine.burnt_burnt]
    exact step_get base config hcs hcs' hlocal hsize hfuel.burnt

/-- The call leaves the same values on the stack that it takes from there. -/
theorem step_call_echo (base : Nat) (config : EngineConfig)
    (hcs : Instr.Spells (.call func) cs) (hbody : StandsAt c.body pos cs)
    (hf : s.space.funcs[func.toNat]? = some (.host f)) (hecho : f.Echoes params)
    (hs : s.stack.cells = below ++ (args.map Value.cell).toArray)
    (hargs : args.map Value.type = params) (hroom : s.stack.size ≤ s.stack.limit)
    (hfuel : Machine.Lasts s.fuel 1) :
    (c.standing args base pos s).step config = .running (c.standing args base (pos + cs.length)
      { s.replied f args with fuel := Machine.burnt s.fuel 1 }) := by
  have hstep : Control.step (c.standing args base pos s).activation =
      .ok (.call func) (c.activation base (pos + cs.length) []
        ⟨s.space, s.stack, (c.started args base).locals⟩) :=
    step_activation base [] ⟨s.space, s.stack, (c.started args base).locals⟩ hcs.read hbody
  rw [Machine.step_of_ok hfuel hstep]
  have hcall : Store.callHost f { s with fuel := Machine.burnt s.fuel 1 } =
      .ok () { s.replied f args with fuel := Machine.burnt s.fuel 1 } :=
    Store.callHost_echo hecho hs hargs hroom
  have hhost := Machine.call_host config
    (m := c.standing args base (pos + cs.length) { s with fuel := Machine.burnt s.fuel 1 }) hf
  exact hhost.trans (congrArg _ hcall)

/-- The `end` of the body returns what lies on top of the base. -/
theorem step_end_outermost (config : EngineConfig) (below cells : Array UInt64)
    (hbody : StandsAt c.body pos [endOpcode]) (hs : s.stack.cells = below ++ cells)
    (hcells : cells.size = c.type.results.length) (hfuel : Machine.Lasts s.fuel 1) :
    (c.standing args below.size pos s).step config =
      .returned { s with fuel := Machine.burnt s.fuel 1 } := by
  have hstep := step_last below.size ⟨s.space, s.stack, (c.started args below.size).locals⟩ hbody
  rw [Machine.step_of_ok (m := c.standing args below.size pos s) hfuel hstep]
  have hunwind : Stack.unwind below.size c.type.results.length s.stack = .ok () s.stack := by
    have hall := Stack.unwind_append below #[] cells s.stack.limit
    rwa [Array.append_empty, ← hs, hcells] at hall
  exact Machine.leave_outermost hunwind rfl

/-- Code that hands its arguments to a host function which gives them back returns them. -/
theorem run_forwards (config : EngineConfig) (hc : c.Forwards func)
    (hresults : c.type.results = c.type.params)
    (hf : s.space.funcs[func.toNat]? = some (.host f)) (hecho : f.Echoes c.type.params)
    (hargs : args.map Value.type = c.type.params)
    (hroom : s.stack.size + args.length ≤ s.stack.limit)
    (hfuel : Machine.Lasts s.fuel (args.length + 2)) :
    (c.standing args s.stack.size 0 s).run config (args.length + 2) = .returned
      { s.replied f args with
        stack := ⟨s.stack.cells ++ (args.map Value.cell).toArray, s.stack.limit⟩
        fuel := Machine.burnt s.fuel (args.length + 2) } := by
  obtain ⟨gets, call, hgets, hcall, hbody⟩ := hc
  have hlength : c.type.params.length = args.length := by simp [← hargs]
  rw [hlength] at hgets
  have hstands : StandsAt c.body 0 (gets ++ (call ++ [endOpcode])) := hbody ▸ .of_toList c.body
  have hcall' : StandsAt c.body gets.length call := by simpa using hstands.right.left
  have hend : StandsAt c.body (gets.length + call.length) [endOpcode] := by
    simpa using hstands.right.right
  have hpushed := run_gets s.stack.size config hgets hstands.left (Nat.le_refl _) hroom
    (hfuel.mono (Nat.le_add_right _ _))
  rw [List.take_length] at hpushed
  -- The three stretches of the run: the arguments, the call and the end.
  let s₁ : Store :=
    { s with
      stack := ⟨s.stack.cells ++ (args.map Value.cell).toArray, s.stack.limit⟩
      fuel := Machine.burnt s.fuel args.length }
  have hcalled : (c.standing args s.stack.size gets.length s₁).step config = _ :=
    step_call_echo s.stack.size config hcall hcall' hf hecho rfl hargs
      (by simpa [s₁, Stack.size] using hroom) (hfuel.burnt.mono (by decide))
  have hreturned : (c.standing args s.stack.size (gets.length + call.length)
      { s₁.replied f args with fuel := Machine.burnt s₁.fuel 1 }).step config = _ :=
    step_end_outermost config s.stack.cells (args.map Value.cell).toArray hend rfl
      (by simp [hresults, hlength]) hfuel.burnt.burnt
  rw [Machine.run_succ, Machine.run_succ, hpushed, Machine.Outcome.step, hcalled,
    Machine.Outcome.step, hreturned, Machine.burnt_burnt, Machine.burnt_burnt]
  rfl

end Code

/-- A call of such code returns its arguments. All that is left of it is what the host function has
written, and the fuel that was burnt. -/
theorem Instance.call_forwards {i : Instance} {args : List Value}
    (hf : i.space.funcs[index.toNat]? = some (.code c)) (hc : c.Forwards func)
    (hresults : c.type.results = c.type.params)
    (hhost : i.space.funcs[func.toNat]? = some (.host f)) (hecho : f.Echoes c.type.params)
    (hargs : args.map Value.type = c.type.params) (hroom : i.HasRoom c args)
    (hfuel : Machine.Lasts i.fuel (args.length + 2)) (hsteps : args.length + 2 ≤ steps) :
    i.call steps index args = some
      ⟨.ok args,
        { i with
          space := i.space.mapMemory (·.writeAll (f.run i.space.hostContext args).writes)
          fuel := Machine.burnt i.fuel (args.length + 2) },
        #[⟨f.label, args⟩]⟩ := by
  let left : Store :=
    ⟨i.space.mapMemory (·.writeAll (f.run i.space.hostContext args).writes),
      ⟨i.stack.cells ++ (args.map Value.cell).toArray, i.stack.limit⟩,
      Machine.burnt i.fuel (args.length + 2), #[⟨f.label, args⟩]⟩
  have hexecute : i.execute (args.length + 2) index args = .returned left := by
    rw [execute_of_room hroom.stack, invoke_code hf hargs, if_neg (Nat.not_lt.mpr hroom.locals)]
    exact Code.run_forwards (s := ⟨i.space, i.stack, i.fuel, #[]⟩) i.config hc hresults hhost hecho
      hargs hroom.stack hfuel
  have hpop : Store.onStack (Stack.popMany c.type.results.length) left =
      .ok (args.map Value.cell).toArray (left.lowered i.stack.cells) := by
    have hsize : (args.map Value.cell).toArray.size = c.type.results.length := by
      simp [hresults, ← hargs]
    rw [← hsize]
    exact Store.popMany_of_append rfl
  rw [call_of_args hf hargs, execute_of_le hsteps hexecute (fun _ => nofun)]
  simp only [finish, Func.type, hpop]
  rw [hresults, ← hargs, Value.zipWith_ofCell]
  rfl

/-! ## Typed host functions -/

namespace HostSignature

/-- A typed function that is applied to arguments has this effect. Each parameter takes the value of
the host that the argument in its place stands for. -/
inductive Applied : {φ : Type} → HostSignature φ → φ → List Value → HostEffect (List Value) → Prop
  where
  | yields {ρ : Type} [HostResult ρ] (e : HostEffect ρ) :
      Applied (.yields ρ) e [] { writes := e.writes, result := HostResult.toValues e.result }
  | takes {α φ : Type} [HostType α] {rest : HostSignature φ} {f : α → φ} (a : α)
      (h : Applied rest (f a) args effect) :
      Applied (.takes α rest) f (HostType.toValue a :: args) effect

/-- Arguments of the types of the parameters stand for values of the host. -/
theorem exists_applied (σ : HostSignature φ) (f : φ) (hargs : args.map Value.type = σ.params) :
    ∃ effect, σ.Applied f args effect := by
  induction σ generalizing args with
  | yields ρ =>
    obtain rfl := List.map_eq_nil_iff.mp hargs
    exact ⟨_, .yields f⟩
  | takes α rest ih =>
    cases args with
    | nil => contradiction
    | cons v vs =>
      injection hargs with hv hvs
      obtain ⟨a, rfl⟩ := HostType.exists_toValue v hv
      obtain ⟨effect, heffect⟩ := ih (f a) hvs
      exact ⟨effect, .takes a heffect⟩

namespace Applied

variable {σ : HostSignature φ} {f : φ}

/-- The result has the declared types. -/
theorem types_result (h : σ.Applied f args effect) :
    effect.result.map Value.type = σ.results := by
  induction h with
  | yields e => exact HostResult.types_toValues e.result
  | takes _ _ ih => exact ih

/-- No argument is refused on the way, and nothing is lost. -/
theorem apply_eq (h : σ.Applied f args effect) :
    σ.apply f args = { writes := effect.writes, result := .ok effect.result } := by
  induction h with
  | yields => rfl
  | takes _ _ ih =>
    rw [apply, HostType.ofValue?_toValue]
    exact ih

end Applied

/-- A typed function has one effect on arguments of the types of its parameters. -/
theorem applied_iff (σ : HostSignature φ) (f : φ) (hargs : args.map Value.type = σ.params) :
    ∃ effect, ∀ effect', σ.Applied f args effect' ↔ effect' = effect := by
  obtain ⟨effect, heffect⟩ := σ.exists_applied f hargs
  refine ⟨effect, fun effect' => ⟨fun heffect' => ?_, fun h => h ▸ heffect⟩⟩
  have hreplies := heffect'.apply_eq.symm.trans heffect.apply_eq
  injection hreplies with hwrites hresults
  injection hresults with hresults
  obtain ⟨writes', result'⟩ := effect'
  obtain rfl : writes' = effect.writes := hwrites
  obtain rfl : result' = effect.result := hresults
  rfl

end HostSignature

/-- The effect that a typed function has on arguments, by the signature that its type has. -/
def HostClosure.Applied [HostClosure φ] (f : φ) (args : List Value)
    (effect : HostEffect (List Value)) : Prop :=
  HostSignature.Applied HostClosure.signature f args effect

namespace HostFunc

variable [HostClosure φ] {g : HostContext → φ} {args : List Value}

theorem applied_iff (label : String) (context : HostContext)
    (hargs : args.map Value.type = (ofClosure label g).type.params) :
    ∃ effect, ∀ effect', HostClosure.Applied (g context) args effect' ↔ effect' = effect :=
  HostSignature.applied_iff HostClosure.signature (g context) hargs

/-- The host function of a typed function has the effect of the typed function. -/
theorem run_ofClosure (label : String) {context : HostContext}
    (h : HostClosure.Applied (g context) args effect) :
    (ofClosure label g).run context args =
        { writes := effect.writes, result := .ok effect.result } ∧
      effect.result.map Value.type = (ofClosure label g).type.results :=
  ⟨h.apply_eq, h.types_result⟩

end HostFunc

namespace Store

variable [HostClosure φ] {s : Store} {args : List Value} {below : Array UInt64}

/-- A typed function gets the arguments whose cells lie on the stack, and its result is left there
if there is room for it. -/
theorem callHost_of_applied (label : String) {g : HostContext → φ}
    (h : HostClosure.Applied (g s.space.hostContext) args effect)
    (hargs : args.map Value.type = (HostFunc.ofClosure label g).type.params)
    (hs : s.stack.cells = below ++ (args.map Value.cell).toArray)
    (hbelow : below.size ≤ s.stack.limit) :
    (below.size + effect.result.length ≤ s.stack.limit → callHost (.ofClosure label g) s = .ok ()
      { s with
        space := s.space.mapMemory (·.writeAll effect.writes)
        stack := ⟨below ++ (effect.result.map Value.cell).toArray, s.stack.limit⟩
        hostCalls := s.hostCalls.push ⟨label, args⟩ }) ∧
    (s.stack.limit < below.size + effect.result.length →
      ∃ s', callHost (.ofClosure label g) s = .error .stackOverflow s') := by
  obtain ⟨hrun, htypes⟩ := HostFunc.run_ofClosure label h
  have hresult := congrArg HostReply.result hrun
  have hanswer := hostAnswer_callHost hs hargs hbelow
  refine ⟨fun hroom => ?_, fun hfull => hanswer.eq_error hresult htypes hfull⟩
  rw [hanswer.eq_ok hresult htypes hroom, replied, hrun]
  rfl

/-- Whatever lies on the stack, a typed function fails only for want of operands or of room. -/
theorem callHost_ofClosure_eq_error {label : String} {g : HostContext → φ}
    (hs : s.stack.size ≤ s.stack.limit) (h : callHost (.ofClosure label g) s = .error t s') :
    t = .stackOverflow ∨ t = .stackUnderflow ∧
      s.stack.size < (HostFunc.ofClosure label g).type.params.length := by
  obtain hpop | ⟨cells, s₁, hpop, -⟩ := bind_eq_error.mp h
  · obtain ⟨hsize, ht, -⟩ := Stack.popMany_eq_error (onStack_eq_error hpop).1
    exact .inr ⟨ht, hsize⟩
  · obtain ⟨hcells, hstack⟩ := Stack.popMany_eq_ok (onStack_eq_ok hpop).1
    have happend : s.stack.cells = s₁.stack.cells ++ cells := congrArg Stack.cells hstack
    have hbelow : s₁.stack.cells.size ≤ s.stack.limit := by
      rw [Stack.size, happend, Array.size_append] at hs
      omega
    -- The cells, read at the types of the parameters, are arguments for the typed function.
    obtain ⟨effect, heffect⟩ := HostFunc.applied_iff label s.space.hostContext
      (Value.types_zipWith_ofCell hcells)
    obtain ⟨hrun, htypes⟩ := HostFunc.run_ofClosure label ((heffect effect).mpr rfl)
    have hresult := congrArg HostReply.result hrun
    have hanswer := hostAnswer_of_cells happend hcells hbelow
    by_cases hroom : s₁.stack.cells.size + effect.result.length ≤ s.stack.limit
    · have hok := hanswer.eq_ok hresult htypes hroom
      rw [h] at hok
      contradiction
    · obtain ⟨s'', hfull⟩ := hanswer.eq_error hresult htypes (Nat.lt_of_not_le hroom)
      cases h.symm.trans hfull
      exact .inl rfl

end Store

/-- Values pass through calls in order and bit by bit.

* A cell holds every value of its type.
* Code that is called starts with the cells of its arguments in order, and then zeros, as locals;
  without room for them the call traps.
* A host function receives the arguments whose cells lie on the stack, typed by its signature, and
  what it yields is checked and left there; this is so for calls from outside and from code.
* A call yields the cells that the function leaves, typed by its results.
* Code that hands its arguments to a host function which gives them back returns them.
* A typed host function is applied to its arguments in order, and the cells of its result are what
  it leaves. It neither refuses its arguments nor yields values of other types than it declares. -/
theorem values_pass {i : Instance} (hi : i.stack.size ≤ i.stack.limit) (steps : Nat)
    (index : UInt32) (args : List Value) :
    (∀ v : Value, Value.ofCell v.type v.cell = v) ∧
    (∀ c, i.space.funcs[index.toNat]? = some (.code c) → args.map Value.type = c.type.params →
      (i.HasRoom c args → i.call steps index args = i.finish c.type (Machine.run i.config steps
        ⟨⟨i.space, i.stack, i.fuel, #[]⟩, c.started args i.stack.size, #[]⟩)) ∧
      (¬ i.HasRoom c args →
        ∃ after, i.call steps index args = some ⟨.error .stackOverflow, after, #[]⟩)) ∧
    (∀ (f : HostFunc) (s : Store) (below : Array UInt64),
      s.stack.cells = below ++ (args.map Value.cell).toArray → s.stack.size ≤ s.stack.limit →
      args.map Value.type = f.type.params →
        s.HostAnswer f args below (Store.callHost f s) ∧
        ∀ config frame callers, s.space.funcs[index.toNat]? = some (.host f) →
          Machine.call config index ⟨s, frame, callers⟩ =
            .afterHost (fun s' => .running ⟨s', frame, callers⟩) (Store.callHost f s)) ∧
    (∀ f, i.space.funcs[index.toNat]? = some (.host f) →
      i.stack.size + args.length ≤ i.stack.limit → i.execute steps index args =
        .afterHost .returned (Store.callHost f (i.loaded args))) ∧
    (∀ func s, i.space.funcs[index.toNat]? = some func → args.map Value.type = func.type.params →
      i.execute steps index args = .returned s →
        ∃ below cells : Array UInt64, s.stack.cells = below ++ cells ∧
          below.size = i.stack.size ∧ cells.size = func.type.results.length ∧
          i.call steps index args =
            some ⟨.ok (List.zipWith Value.ofCell func.type.results cells.toList),
              i.resume (s.lowered below), s.hostCalls⟩) ∧
    (∀ (c : Code) (func : UInt32) (f : HostFunc) (params : List ValType),
      c.type = ⟨params, params⟩ → c.Forwards func → f.Echoes params →
      i.space.funcs[index.toNat]? = some (.code c) →
      i.space.funcs[func.toNat]? = some (.host f) → args.map Value.type = params →
      i.HasRoom c args → Machine.Lasts i.fuel (args.length + 2) → args.length + 2 ≤ steps →
        ∃ after, i.call steps index args = some ⟨.ok args, after, #[⟨f.label, args⟩]⟩ ∧
          after.stack = i.stack) ∧
    ∀ (φ : Type) [HostClosure φ] (label : String) (g : HostContext → φ) (s : Store),
      s.stack.size ≤ s.stack.limit →
      (∀ below : Array UInt64, s.stack.cells = below ++ (args.map Value.cell).toArray →
        args.map Value.type = (HostFunc.ofClosure label g).type.params →
        ∃ effect,
          (∀ effect', HostClosure.Applied (g s.space.hostContext) args effect' ↔
            effect' = effect) ∧
          (below.size + effect.result.length ≤ s.stack.limit →
            Store.callHost (.ofClosure label g) s = .ok ()
              { s with
                space := s.space.mapMemory (·.writeAll effect.writes)
                stack := ⟨below ++ (effect.result.map Value.cell).toArray, s.stack.limit⟩
                hostCalls := s.hostCalls.push ⟨label, args⟩ }) ∧
          (s.stack.limit < below.size + effect.result.length →
            ∃ s', Store.callHost (.ofClosure label g) s = .error .stackOverflow s')) ∧
      ∀ t s', Store.callHost (.ofClosure label g) s = .error t s' →
        t = .stackOverflow ∨ t = .stackUnderflow ∧
          s.stack.size < (HostFunc.ofClosure label g).type.params.length := by
  have hbelow : ∀ {s : Store} {below : Array UInt64},
      s.stack.cells = below ++ (args.map Value.cell).toArray → s.stack.size ≤ s.stack.limit →
        below.size ≤ s.stack.limit := by
    intro s below hs hlimit
    rw [Stack.size, hs, Array.size_append] at hlimit
    omega
  refine ⟨Value.ofCell_cell, fun c hf hargs => ⟨Instance.call_code hf hargs,
    Instance.call_code_of_not_hasRoom hf hargs hi⟩, fun f s below hs hlimit hargs => ⟨?_, ?_⟩,
    fun f hf hroom => Instance.execute_host hf hroom,
    fun func s hf hargs ho => Instance.call_of_returned hf hargs ho, ?_, ?_⟩
  · exact Store.hostAnswer_callHost hs hargs (hbelow hs hlimit)
  · intro config frame callers hf
    exact Machine.call_host config hf
  · rintro c func f params htype hc hecho hf hhost hargs hroom hfuel hsteps
    obtain rfl : c.type.params = params := by rw [htype]
    have hresults : c.type.results = c.type.params := by rw [htype]
    exact ⟨_, Instance.call_forwards hf hc hresults hhost hecho hargs hroom hfuel hsteps, rfl⟩
  · intro φ _ label g s hlimit
    refine ⟨fun below hs hargs => ?_, fun t s' h => Store.callHost_ofClosure_eq_error hlimit h⟩
    obtain ⟨effect, heffect⟩ := HostFunc.applied_iff label s.space.hostContext hargs
    exact ⟨effect, heffect, Store.callHost_of_applied label ((heffect effect).mpr rfl) hargs hs
      (hbelow hs hlimit)⟩

/-- A host function that gives back a float and an integer. -/
def echo : HostFunc where
  label := "echo"
  type := ⟨[.f32, .i64], [.f32, .i64]⟩
  run _ args := { result := .ok args }

/-- Code that calls it. The second `local.get` spells its index longer than need be. -/
def echoUser : Code where
  type := ⟨[.f32, .i64], [.f32, .i64]⟩
  body := #[0x20, 0x00, 0x20, 0x81, 0x00, 0x10, 0x01, 0x0B]
  localCount := 3
  types := #[]
  blocks := ∅

/-- An instance with both, and with just enough room and fuel. -/
def echoing : Instance where
  module := {}
  space := ⟨#[.code echoUser, .host echo], none, none, #[]⟩
  exports := ∅
  stack := { limit := 2 }
  config := { maxStackHeight := 5 }
  fuel := some 4

/-- A typed function that gives back one of two floats. -/
def pick : HostContext → F32 → UInt64 → F32 → HostEffect F32 :=
  fun _ x n y => { result := if n = 0 then y else x }

/-- A store with its arguments on top of the stack, and with no room to spare. -/
def picking : Store where
  space := ⟨#[], none, none, #[]⟩
  stack := ⟨#[5, 0x7FA00001, 1, 0x3F800000], 4⟩
  fuel := none
  hostCalls := #[]

/-- A NaN keeps its payload on its way through the host, also where a typed function takes it and
gives it back. -/
theorem values_pass_echoing :
    (echoUser.Forwards 1 ∧ echo.Echoes [.f32, .i64] ∧
      ∃ after, echoing.call 4 0 [.f32 0x7FA00001, .i64 7] =
        some ⟨.ok [.f32 0x7FA00001, .i64 7], after, #[⟨"echo", [.f32 0x7FA00001, .i64 7]⟩]⟩ ∧
        after.stack = echoing.stack) ∧
    Store.callHost (.ofClosure "pick" pick) picking = .ok ()
      { picking with
        stack := ⟨#[5, 0x7FA00001], 4⟩
        hostCalls := #[⟨"pick", [.f32 0x7FA00001, .i64 1, .f32 0x3F800000]⟩] } := by
  have hzero : Reader.Reads Reader.u32 [0x00] 0 := Reader.local_u32.reads_toList_iff.mpr rfl
  have hone : Reader.Reads Reader.u32 [0x81, 0x00] 1 := Reader.local_u32.reads_toList_iff.mpr rfl
  have hcall : Reader.Reads Reader.u32 [0x01] 1 := Reader.local_u32.reads_toList_iff.mpr rfl
  have hforwards : echoUser.Forwards 1 :=
    ⟨[0x20, 0x00, 0x20, 0x81, 0x00], [0x10, 0x01],
      .snoc (.snoc .nil rfl (.localGet hzero)) rfl (.localGet hone), .call hcall, rfl⟩
  have hechoes : echo.Echoes [.f32, .i64] := ⟨rfl, fun _ _ _ => rfl⟩
  have hroom : echoing.HasRoom echoUser [.f32 0x7FA00001, .i64 7] := ⟨by decide, by decide⟩
  have hfuel : Machine.Lasts echoing.fuel 4 := by
    rintro k hk
    cases hk
    exact Nat.le_refl 4
  obtain ⟨-, -, -, -, -, hpass, -⟩ :=
    values_pass (i := echoing) (by decide) 4 0 [.f32 0x7FA00001, .i64 7]
  refine ⟨⟨hforwards, hechoes, hpass echoUser 1 echo [.f32, .i64] rfl hforwards hechoes rfl rfl rfl
    hroom hfuel (by decide)⟩, ?_⟩
  obtain ⟨-, -, -, -, -, -, htyped⟩ :=
    values_pass (i := echoing) (by decide) 0 0 [.f32 0x7FA00001, .i64 1, .f32 0x3F800000]
  obtain ⟨hpick, -⟩ := htyped _ "pick" pick picking (by decide)
  obtain ⟨effect, heffect, hok, -⟩ := hpick #[5] rfl rfl
  have hpicked : HostClosure.Applied (pick picking.space.hostContext)
      [.f32 0x7FA00001, .i64 1, .f32 0x3F800000] ⟨[], [.f32 0x7FA00001]⟩ :=
    .takes (⟨0x7FA00001⟩ : F32) (.takes (1 : UInt64) (.takes (⟨0x3F800000⟩ : F32) (.yields _)))
  obtain rfl := (heffect _).mp hpicked
  exact hok (by decide)

end Wasm
