import Wasm.Proofs.Operands

/-!
# Wasm.Proofs.Comparison

Two executions side by side, of functions of two instances.

* `Ref` is what an instruction can refer to by index, and `Ref.Same` says that two instances have
  the same there. `Machine.refs` is what the next instruction refers to.
* A `Comparison` holds two instances that have the same wherever the first execution refers to, and
  limits that are the same or larger in the second. Some traps of the first execution are excused:
  after them the second one may do anything.
* `Comparison.Tracks`: effects on related states have related results. `Comparison.matches_step`
  says so of the step of a machine and `Comparison.matches_execute` of executions.
-/

namespace Wasm

/-! ## References -/

/-- What an instruction can refer to by index. -/
inductive Ref where
  | func (index : UInt32)
  | slot (table : UInt8) (element : UInt32)
  | global (index : UInt32)
  | memory
  /-- All that a host function sees. -/
  | context

namespace IndexSpace

/-- The function at an index, or the trap of a call that finds none. -/
def func (s : IndexSpace) (index : UInt32) : Except Trap Func :=
  match s.funcs[index.toNat]? with
  | some f => .ok f
  | none => .error (.functionIndexOutOfRange index s.funcs.size)

/-- A function is found exactly at the indices that have one. -/
theorem func_eq_ok {s : IndexSpace} : s.func index = .ok f ↔ s.funcs[index.toNat]? = some f := by
  unfold func
  cases s.funcs[index.toNat]? <;> simp

/-- The function index in a slot of a table. -/
def element (s : IndexSpace) (table : UInt8) (element : UInt32) : Except Trap UInt32 :=
  match s.table.toList[table.toNat]? with
  | none => .error (.tableIndexOutOfRange table.toUInt32)
  | some t => t.get element

/-- What a slot of a table denotes: a function, or nothing that could be called. -/
def slot (s : IndexSpace) (table : UInt8) (element : UInt32) : Except Trap (Except Trap Func) :=
  (s.element table element).map s.func

end IndexSpace

/-- Two instances have the same where a reference points to. -/
def Ref.Same (a b : IndexSpace) : Ref → Prop
  | func index => a.func index = b.func index
  | slot table element => a.slot table element = b.slot table element
  | global index => a.globals[index.toNat]? = b.globals[index.toNat]?
  | memory => a.memory = b.memory
  | context => a.hostContext = b.hostContext

theorem Ref.same_refl (s : IndexSpace) (r : Ref) : r.Same s s := by
  cases r <;> rfl

/-- What a plain instruction refers to. -/
def PlainInstr.refs : PlainInstr → List Ref
  | globalGet index | globalSet index => [.global index]
  | load _ _ | store _ _ | memorySize | memoryGrow => [.memory]
  | _ => []

/-- What an instruction refers to; that of an indirect call depends on the operand. -/
def Instr.refs (stack : Stack) : Instr → List Ref
  | plain op => op.refs
  | call index => [.func index]
  | callIndirect _ table => [.slot table stack.top]
  | _ => []

/-- What the next instruction of an activation refers to. -/
def Activation.refs (a : Activation) : List Ref :=
  match Instr.read.runAt a.frame.code.body a.frame.pc with
  | .ok instr _ => instr.refs a.stack
  | .error _ _ => []

/-- What the next instruction refers to, with the host function that it may call. -/
def Machine.refs (m : Machine) : List Ref :=
  match m.callee? with
  | some (.host _) => .context :: m.activation.refs
  | _ => m.activation.refs

/-! ## Comparisons -/

/-- A limit stays, or it gets larger and running into it is excused. -/
def Relaxed (excused : Prop) (n n' : Nat) : Prop := n = n' ∨ excused ∧ n ≤ n'

/-- Two instances with functions that are executed side by side. -/
structure Comparison where
  left : Instance
  right : Instance
  /-- What the first execution refers to. -/
  refs : Ref → Prop
  /-- The traps of the first execution after which the second one may do anything. -/
  excused : Trap → Prop
  same : ∀ r, refs r → r.Same left.space right.space
  depth : Relaxed (excused .callStackExhausted) left.config.maxCallDepth right.config.maxCallDepth
  height : Relaxed (excused .stackOverflow) left.config.maxStackHeight right.config.maxStackHeight
  room : Relaxed (excused .stackOverflow) left.stack.limit right.stack.limit

/-- A limit that is not reached is not reached when it gets larger. -/
theorem Relaxed.not_lt {excused : Prop} (h : Relaxed excused n n') (hn : ¬ n < k) : ¬ n' < k := by
  obtain rfl | ⟨-, hle⟩ := h <;> omega

namespace Comparison

variable (C : Comparison)

/-- Results that differ only as the states and the values that they hold may. -/
inductive Matches (R : σ → σ → Prop) (V : α → α → Prop) :
    EStateM.Result Trap σ α → EStateM.Result Trap σ α → Prop where
  | ok (hs : R s t) (hv : V a b) : Matches R V (.ok a s) (.ok b t)
  | error (hs : R s t) : Matches R V (.error e s) (.error e t)
  | excused (he : C.excused e) : Matches R V (.error e s) r

/-- Two effects on related states have matching results. -/
def Tracks (R : σ → σ → Prop) (V : α → α → Prop) (x y : EStateM Trap σ α) : Prop :=
  ∀ s t, R s t → C.Matches R V (x s) (y t)

section Rules

variable {C : Comparison} {R : σ → σ → Prop} {V : α → α → Prop} {W : β → β → Prop}

theorem tracks_pure (h : V a b) : C.Tracks R V (pure a) (pure b) :=
  fun _ _ hs => .ok hs h

/-- The same trap in both is no difference, excused or not. -/
theorem tracks_throw (e : Trap) : C.Tracks R V (throw e) (throw e) :=
  fun _ _ hs => .error hs

/-- What comes after matching results may use that the first execution has come there. -/
theorem Matches.bind {x y : EStateM Trap σ α} {f g : α → EStateM Trap σ β}
    (hx : C.Matches R V (x s) (y t))
    (hf : ∀ a b s' t', x s = .ok a s' → V a b → R s' t' → C.Matches R W (f a s') (g b t')) :
    C.Matches R W ((x >>= f) s) ((y >>= g) t) := by
  simp only [Bind.bind, EStateM.bind]
  generalize x s = r at hx hf ⊢
  generalize y t = r' at hx ⊢
  cases hx with
  | ok hs hv => exact hf _ _ _ _ rfl hv hs
  | error hs => exact .error hs
  | excused he => exact .excused he

/-- Effects with equal values, in sequence. -/
theorem Tracks.bind {x y : EStateM Trap σ α} {f g : α → EStateM Trap σ β} (hx : C.Tracks R Eq x y)
    (hf : ∀ a, C.Tracks R W (f a) (g a)) : C.Tracks R W (x >>= f) (y >>= g) := by
  intro s t hs
  refine (hx s t hs).bind fun a b s' t' _ hab hs' => ?_
  subst hab
  exact hf a s' t' hs'

/-- What both read from their states may differ, as far as related states do. -/
theorem tracks_get_bind {f g : σ → EStateM Trap σ β}
    (hf : ∀ s t, R s t → C.Tracks R W (f s) (g t)) : C.Tracks R W (get >>= f) (get >>= g) :=
  fun s t hs => hf s t hs s t hs

end Rules

/-! ## The operand stack -/

/-- Stacks of the same cells, whose limits stay. -/
structure Stacks (s t : Stack) : Prop where
  cells : s.cells = t.cells
  limit : s.limit = C.left.stack.limit
  limit' : t.limit = C.right.stack.limit

variable {C : Comparison}

/-- Stacks that are compared have the same height at any time. -/
theorem Stacks.size {s t : Stack} (h : C.Stacks s t) : s.size = t.size :=
  congrArg Array.size h.cells

/-- The stack with the smaller limit is full first, and that trap is excused. -/
theorem tracks_stackPush (c : UInt64) : C.Tracks C.Stacks Eq (Stack.push c) (Stack.push c) := by
  rintro ⟨cells, limit⟩ ⟨_, limit'⟩ ⟨rfl, rfl, rfl⟩
  simp only [Stack.push, ← Nat.lt_succ_iff]
  by_cases hfull : C.left.stack.limit < cells.size + 1
  · rw [if_pos hfull]
    obtain hroom | ⟨hexcused, -⟩ := C.room
    · rw [if_pos (hroom ▸ hfull)]
      exact .error ⟨rfl, rfl, rfl⟩
    · exact .excused hexcused
  · rw [if_neg hfull, if_neg (C.room.not_lt hfull)]
    exact .ok ⟨rfl, rfl, rfl⟩ rfl

/-- Taking a cell depends on the cells alone, and these are the same. -/
theorem tracks_stackPop : C.Tracks C.Stacks Eq Stack.pop Stack.pop := by
  rintro ⟨cells, limit⟩ ⟨_, limit'⟩ ⟨rfl, hlimit, hlimit'⟩
  simp only [Stack.pop]
  cases cells.back? with
  | some c => exact .ok ⟨rfl, hlimit, hlimit'⟩ rfl
  | none => exact .error ⟨rfl, hlimit, hlimit'⟩

theorem tracks_stackPeek : C.Tracks C.Stacks Eq Stack.peek Stack.peek := by
  rintro ⟨cells, limit⟩ ⟨_, limit'⟩ ⟨rfl, hlimit, hlimit'⟩
  simp only [Stack.peek]
  cases cells.back? with
  | some c => exact .ok ⟨rfl, hlimit, hlimit'⟩ rfl
  | none => exact .error ⟨rfl, hlimit, hlimit'⟩

/-- So does taking several of them. -/
theorem tracks_popMany (n : Nat) :
    C.Tracks C.Stacks Eq (Stack.popMany n) (Stack.popMany n) := by
  rintro ⟨cells, limit⟩ ⟨_, limit'⟩ ⟨rfl, hlimit, hlimit'⟩
  simp only [Stack.popMany]
  split
  · exact .error ⟨rfl, hlimit, hlimit'⟩
  · exact .ok ⟨rfl, hlimit, hlimit'⟩ rfl

/-- So does unwinding. -/
theorem tracks_unwind (height arity : Nat) :
    C.Tracks C.Stacks Eq (Stack.unwind height arity) (Stack.unwind height arity) := by
  rintro ⟨cells, limit⟩ ⟨_, limit'⟩ ⟨rfl, hlimit, hlimit'⟩
  simp only [Stack.unwind]
  split
  · exact .error ⟨rfl, hlimit, hlimit'⟩
  · exact .ok ⟨rfl, hlimit, hlimit'⟩ rfl

/-- Cells one after the other, by the case of a single one. -/
theorem tracks_pushAll (cs : List UInt64) :
    C.Tracks C.Stacks Eq (Stack.pushAll cs) (Stack.pushAll cs) := by
  induction cs with
  | nil => exact tracks_pure rfl
  | cons c cs ih => exact (tracks_stackPush c).bind fun _ => ih

/-! ## Index spaces -/

variable (C)

/-- Index spaces that execution can come to: functions and tables stay, and what both executions
refer to is the same. -/
structure Spaces (a b : IndexSpace) : Prop where
  funcs : a.funcs = C.left.space.funcs
  funcs' : b.funcs = C.right.space.funcs
  table : a.table = C.left.space.table
  table' : b.table = C.right.space.table
  memory : C.refs .memory → a.memory = b.memory
  globals : ∀ i, C.refs (.global i) → a.globals[i.toNat]? = b.globals[i.toNat]?
  context : C.refs .context → a.hostContext = b.hostContext

variable {C}

/-- The comparison starts from index spaces that are alike where it asks for it. -/
theorem spaces_start : C.Spaces C.left.space C.right.space where
  funcs := rfl
  funcs' := rfl
  table := rfl
  table' := rfl
  memory := C.same .memory
  globals := fun i => C.same (.global i)
  context := C.same .context

/-- Functions are those that the instances started with. -/
theorem Spaces.func {a b : IndexSpace} (h : C.Spaces a b) (index : UInt32) :
    a.func index = C.left.space.func index ∧ b.func index = C.right.space.func index := by
  simp only [IndexSpace.func, h.funcs, h.funcs', and_self]

/-- A slot that is referred to holds the same function in both, although its index may differ. -/
theorem Spaces.slot {a b : IndexSpace} {table : UInt8} {element : UInt32} (h : C.Spaces a b)
    (hr : C.refs (.slot table element)) : a.slot table element = b.slot table element := by
  have hfunc : a.func = C.left.space.func := funext fun i => (h.func i).1
  have hfunc' : b.func = C.right.space.func := funext fun i => (h.func i).2
  have hleft : a.slot table element = C.left.space.slot table element := by
    simp only [IndexSpace.slot, IndexSpace.element, h.table, hfunc]
  have hright : b.slot table element = C.right.space.slot table element := by
    simp only [IndexSpace.slot, IndexSpace.element, h.table', hfunc']
  rw [hleft, hright]
  exact C.same _ hr

/-- If the memories are the same, they are the same after the same change. -/
theorem Spaces.mapMemory {a b : IndexSpace} (h : C.Spaces a b) (f : Memory → Memory) :
    C.Spaces (a.mapMemory f) (b.mapMemory f) := by
  have hmap : ∀ s : IndexSpace, s.mapMemory f = { s with memory := s.memory.map f } := by
    rintro ⟨_, _, _ | m, _⟩ <;> rfl
  rw [hmap, hmap]
  refine ⟨h.funcs, h.funcs', h.table, h.table', fun hr => ?_, h.globals, fun hr => ?_⟩
  · exact congrArg (Option.map f) (h.memory hr)
  · have hcontext := h.context hr
    simp only [IndexSpace.hostContext, HostContext.mk.injEq] at hcontext ⊢
    exact ⟨congrArg (Option.map f) hcontext.1, hcontext.2⟩

/-- If a global is the same in both, it is the same after the same cell is put there. -/
theorem Spaces.setGlobal {a b : IndexSpace} (h : C.Spaces a b) (i : Nat) (c : UInt64) :
    C.Spaces (a.setGlobal i c) (b.setGlobal i c) := by
  refine ⟨h.funcs, h.funcs', h.table, h.table', h.memory, fun j hr => ?_, fun hr => ?_⟩
  · simp only [IndexSpace.setGlobal, Array.getElem?_modify, h.globals j hr]
  · have hcontext := h.context hr
    simp only [IndexSpace.hostContext, HostContext.mk.injEq] at hcontext
    simp only [IndexSpace.hostContext, IndexSpace.setGlobal, hcontext.1, hcontext.2]

/-! ## Plain instructions -/

variable (C)

/-- What plain instructions reach. -/
structure Scopes (s t : Scope) : Prop where
  space : C.Spaces s.space t.space
  stack : C.Stacks s.stack t.stack
  locals : s.locals = t.locals

variable {C}

section Plain

open Exec

/-- What compares on stacks compares on scopes. -/
theorem tracks_execStack {x y : StackM α} (hx : C.Tracks C.Stacks Eq x y) :
    C.Tracks C.Scopes Eq (Exec.onStack x) (Exec.onStack y) := by
  rintro ⟨space, stack, locals⟩ ⟨space', stack', locals'⟩ ⟨hspace, hstack, hlocals⟩
  have hxs := hx stack stack' hstack
  simp only [Exec.onStack]
  generalize x stack = r at hxs ⊢
  generalize y stack' = r' at hxs ⊢
  cases hxs with
  | ok hstack hv => exact .ok ⟨hspace, hstack, hlocals⟩ hv
  | error hstack => exact .error ⟨hspace, hstack, hlocals⟩
  | excused he => exact .excused he

theorem tracks_push (c : UInt64) : C.Tracks C.Scopes Eq (push c) (push c) :=
  tracks_execStack (tracks_stackPush c)

theorem tracks_pop : C.Tracks C.Scopes Eq pop pop := tracks_execStack tracks_stackPop

theorem tracks_pop32 : C.Tracks C.Scopes Eq Exec.pop32 Exec.pop32 :=
  tracks_pop.bind fun _ => tracks_pure rfl

/-- The locals are the same in both. -/
theorem tracks_onLocals (x : LocalsM α) : C.Tracks C.Scopes Eq (onLocals x) (onLocals x) := by
  rintro ⟨space, stack, locals⟩ ⟨space', stack', _⟩ ⟨hspace, hstack, rfl⟩
  simp only [onLocals]
  cases x locals with
  | ok a locals => exact .ok ⟨hspace, hstack, rfl⟩ rfl
  | error t locals => exact .error ⟨hspace, hstack, rfl⟩

/-- The global is referred to, so that it is the same in both. -/
theorem tracks_getGlobal (hr : C.refs (.global index)) :
    C.Tracks C.Scopes Eq (getGlobal index) (getGlobal index) := by
  intro s t hs
  simp only [getGlobal, ← hs.space.globals index hr]
  cases s.space.globals[index.toNat]? with
  | some g => exact .ok hs rfl
  | none => exact .error hs

/-- It is mutable in both or in none. -/
theorem tracks_setGlobal (hr : C.refs (.global index)) (c : UInt64) :
    C.Tracks C.Scopes Eq (setGlobal index c) (setGlobal index c) := by
  intro s t hs
  simp only [setGlobal, ← hs.space.globals index hr]
  cases s.space.globals[index.toNat]? with
  | none => exact .error hs
  | some g =>
    dsimp only
    split
    · exact .ok ⟨hs.space.setGlobal _ c, hs.stack, hs.locals⟩ rfl
    · exact .error hs

/-- The memory is referred to, so that the access has the same result. -/
theorem tracks_readMemory (hr : C.refs .memory) (f : Memory → Except Trap α) :
    C.Tracks C.Scopes Eq (readMemory f) (readMemory f) := by
  intro s t hs
  simp only [readMemory, ← hs.space.memory hr]
  cases s.space.memory with
  | none => exact .error hs
  | some m =>
    dsimp only
    cases f m with
    | ok a => exact .ok hs rfl
    | error t => exact .error hs

/-- A store is in bounds in both or in none. -/
theorem tracks_writeMemory (hr : C.refs .memory) (address offset : UInt32) (bytes : List UInt8) :
    C.Tracks C.Scopes Eq (writeMemory address offset bytes) (writeMemory address offset bytes) := by
  intro s t hs
  simp only [writeMemory, ← hs.space.memory hr]
  split
  · exact .error hs
  · exact .error hs
  · exact .ok ⟨hs.space.mapMemory _, hs.stack, hs.locals⟩ rfl

theorem tracks_growMemory (delta : Nat) :
    C.Tracks C.Scopes Eq (growMemory delta) (growMemory delta) :=
  fun _ _ hs => .ok ⟨hs.space.mapMemory _, hs.stack, hs.locals⟩ rfl

/-- Growth depends on the limits of the memory, not on those of the configuration. -/
theorem tracks_memoryGrow (hr : C.refs .memory) :
    C.Tracks C.Scopes Eq memoryGrow memoryGrow := by
  refine tracks_pop32.bind fun delta => (tracks_readMemory hr _).bind fun pages => ?_
  cases pages with
  | none => exact tracks_push _
  | some pages => exact (tracks_growMemory _).bind fun _ => tracks_push _

theorem tracks_ofExcept (x : Except Trap α) :
    C.Tracks C.Scopes Eq (Exec.ofExcept x) (Exec.ofExcept x) := by
  intro s t hs
  cases x with
  | ok a => exact .ok hs rfl
  | error t => exact .error hs

/-- Numbers depend on operands alone. -/
theorem tracks_numeric (op : NumericOp) : C.Tracks C.Scopes Eq (numeric op) (numeric op) := by
  cases op with
  | unary op => exact tracks_pop.bind fun _ => (tracks_ofExcept _).bind fun _ => tracks_push _
  | binary op =>
    exact tracks_pop.bind fun _ => tracks_pop.bind fun _ => (tracks_ofExcept _).bind fun _ =>
      tracks_push _

/-- A plain instruction does the same in both executions if they have the same where it refers to.
-/
theorem tracks_plain (op : PlainInstr) (hrefs : ∀ r ∈ op.refs, C.refs r) :
    C.Tracks C.Scopes Eq op.exec op.exec := by
  cases op with
  | unreachable => exact tracks_throw _
  | nop => exact tracks_pure rfl
  | drop => exact tracks_pop.bind fun _ => tracks_pure rfl
  | select =>
    exact tracks_pop32.bind fun _ => tracks_pop.bind fun _ => tracks_pop.bind fun _ => tracks_push _
  | localGet index => exact (tracks_onLocals _).bind fun _ => tracks_push _
  | localSet index => exact tracks_pop.bind fun _ => tracks_onLocals _
  | localTee index => exact (tracks_execStack tracks_stackPeek).bind fun _ => tracks_onLocals _
  | globalGet index =>
    have hr := hrefs (.global index) List.mem_cons_self
    exact (tracks_getGlobal hr).bind fun _ => tracks_push _
  | globalSet index =>
    have hr := hrefs (.global index) List.mem_cons_self
    exact tracks_pop.bind fun _ => tracks_setGlobal hr _
  | load op offset =>
    have hr := hrefs .memory List.mem_cons_self
    exact tracks_pop32.bind fun _ => (tracks_readMemory hr _).bind fun _ => tracks_push _
  | store op offset =>
    have hr := hrefs .memory List.mem_cons_self
    exact tracks_pop.bind fun _ => tracks_pop32.bind fun _ => tracks_writeMemory hr _ _ _
  | memorySize =>
    have hr := hrefs .memory List.mem_cons_self
    exact (tracks_readMemory hr _).bind fun _ => tracks_push _
  | memoryGrow => exact tracks_memoryGrow (hrefs .memory List.mem_cons_self)
  | const v => exact tracks_push _
  | numeric op => exact tracks_numeric op

/-- An indirect call takes its operand, and then it is up to what the slot denotes. -/
theorem indirect_eq (types : Array FuncType) (type : UInt32) (table : UInt8) :
    Exec.indirect types type table = (Exec.pop32 >>= fun element s =>
      match s.space.element table element with
      | .error trap => .error trap s
      | .ok func =>
        match types[type.toNat]? with
        | none => .error (.typeIndexOutOfRange type) s
        | some expected =>
          match s.space.func func with
          | .error trap => .error trap s
          | .ok f =>
            if f.type = expected then .ok func s
            else .error (.indirectCallTypeMismatch expected f.type) s) := by
  rw [Exec.indirect]
  congr
  funext element s
  rw [get_bind]
  simp only [IndexSpace.element, IndexSpace.func]
  cases s.space.table.toList[table.toNat]? with
  | none => rfl
  | some tbl =>
    dsimp only
    cases tbl.get element with
    | error trap => rfl
    | ok func =>
      dsimp only
      cases types[type.toNat]? with
      | none => rfl
      | some expected =>
        dsimp only
        cases s.space.funcs[func.toNat]? with
        | none => rfl
        | some f =>
          dsimp only
          split <;> rfl

/-- The operand that an indirect call takes is the one that its reference was read off. -/
theorem top_of_pop32 {s s' : Scope} (h : Exec.pop32 s = .ok element s') :
    s.stack.top = element := by
  obtain ⟨c, s₁, hpop, hrest⟩ := bind_eq_ok.mp h
  cases hrest
  simp only [pop, Exec.onStack] at hpop
  cases hstack : Stack.pop s.stack with
  | error t stack => simp [hstack] at hpop
  | ok c' stack =>
    simp only [hstack, EStateM.Result.ok.injEq] at hpop
    rw [Stack.top_of_pop hstack, hpop.1]

/-- Indirect calls go to the same function, though its index may not be the same. -/
theorem matches_indirect {s t : Scope} (hs : C.Scopes s t) (hr : C.refs (.slot table s.stack.top))
    (types : Array FuncType) (type : UInt32) :
    C.Matches C.Scopes (fun i j => C.left.space.func i = C.right.space.func j)
      (Exec.indirect types type table s) (Exec.indirect types type table t) := by
  rw [indirect_eq]
  refine (tracks_pop32 s t hs).bind fun element _ s' t' hpop heq hs' => ?_
  subst heq
  rw [top_of_pop32 hpop] at hr
  have hslot := hs'.space.slot hr
  simp only [IndexSpace.slot] at hslot
  cases hleft : s'.space.element table element with
  | error trap =>
    cases hright : t'.space.element table element with
    | error trap' =>
      obtain rfl : trap = trap' := by simpa [hleft, hright, Except.map] using hslot
      exact .error hs'
    | ok func' => simp [hleft, hright, Except.map] at hslot
  | ok func =>
    cases hright : t'.space.element table element with
    | error trap' => simp [hleft, hright, Except.map] at hslot
    | ok func' =>
      have hfunc : s'.space.func func = t'.space.func func' := by
        simpa [hleft, hright, Except.map] using hslot
      dsimp only
      cases types[type.toNat]? with
      | none => exact .error hs'
      | some expected =>
        dsimp only
        rw [← hfunc]
        cases hf : s'.space.func func with
        | error trap => exact .error hs'
        | ok f =>
          dsimp only
          split
          · exact .ok hs' (by rw [← (hs'.space.func func).1, ← (hs'.space.func func').2, hfunc])
          · exact .error hs'

end Plain

/-! ## Control instructions -/

variable (C)

/-- Frames that run side by side are the same, on what their instances have. -/
structure Activations (a b : Activation) : Prop where
  space : C.Spaces a.space b.space
  stack : C.Stacks a.stack b.stack
  frame : a.frame = b.frame

/-- Execution goes on in the same way; calls go to the same function. -/
inductive Flows : Flow → Flow → Prop where
  | next : Flows .next .next
  | ret : Flows .ret .ret
  | call (h : C.left.space.func i = C.right.space.func j) : Flows (.call i) (.call j)

variable {C}

section Instructions

open Control

/-- What compares on stacks compares on frames. -/
theorem tracks_controlStack {x y : StackM α} (hx : C.Tracks C.Stacks Eq x y) :
    C.Tracks C.Activations Eq (Control.onStack x) (Control.onStack y) := by
  rintro ⟨space, stack, frame⟩ ⟨space', stack', frame'⟩ ⟨hspace, hstack, hframe⟩
  have hxs := hx stack stack' hstack
  simp only [Control.onStack]
  generalize x stack = r at hxs ⊢
  generalize y stack' = r' at hxs ⊢
  cases hxs with
  | ok hstack hv => exact .ok ⟨hspace, hstack, hframe⟩ hv
  | error hstack => exact .error ⟨hspace, hstack, hframe⟩
  | excused he => exact .excused he

/-- Frames that are compared have scopes that can be. -/
theorem Activations.scopes {a b : Activation} (h : C.Activations a b) :
    C.Scopes ⟨a.space, a.stack, a.frame.locals⟩ ⟨b.space, b.stack, b.frame.locals⟩ :=
  ⟨h.space, h.stack, congrArg Frame.locals h.frame⟩

/-- What compares on scopes compares on frames. -/
theorem matches_onScope {x y : Exec α} {V : α → α → Prop} {a b : Activation}
    (h : C.Activations a b)
    (hx : C.Matches C.Scopes V (x ⟨a.space, a.stack, a.frame.locals⟩)
      (y ⟨b.space, b.stack, b.frame.locals⟩)) :
    C.Matches C.Activations V (onScope x a) (onScope y b) := by
  obtain ⟨space, stack, frame⟩ := a
  obtain ⟨space', stack', _⟩ := b
  obtain ⟨-, -, rfl⟩ := h
  simp only [onScope] at hx ⊢
  generalize x ⟨space, stack, frame.locals⟩ = r at hx ⊢
  generalize y ⟨space', stack', frame.locals⟩ = r' at hx ⊢
  cases hx with
  | ok hs hv => exact .ok ⟨hs.space, hs.stack, by simp [hs.locals]⟩ hv
  | error hs => exact .error ⟨hs.space, hs.stack, by simp [hs.locals]⟩
  | excused he => exact .excused he

/-- Frames are the same, so that they are after the same move. -/
theorem tracks_modifyFrame (g : Frame → Frame) :
    C.Tracks C.Activations Eq (modifyFrame g) (modifyFrame g) :=
  fun _ _ h => .ok ⟨h.space, h.stack, congrArg g h.frame⟩ rfl

theorem tracks_controlPop32 : C.Tracks C.Activations Eq Control.pop32 Control.pop32 :=
  (tracks_controlStack tracks_stackPop).bind fun _ => tracks_pure rfl

/-- Labels are part of the frame; only the stack has to be compared. -/
theorem tracks_branch (depth : UInt32) :
    C.Tracks C.Activations C.Flows (branch depth) (branch depth) := by
  refine tracks_get_bind fun a b hab => ?_
  rw [← hab.frame]
  dsimp only
  split
  · exact (tracks_controlStack (tracks_unwind _ _)).bind fun _ =>
      (tracks_modifyFrame _).bind fun _ => tracks_pure .next
  · split
    · exact tracks_pure .ret
    · exact tracks_throw _

/-- The height of the new label is that of the stack, which is the same in both. -/
theorem tracks_enterBlock (b : Block) (taken : Bool) :
    C.Tracks C.Activations C.Flows (enterBlock b taken) (enterBlock b taken) := by
  refine tracks_get_bind fun a a' ha => ?_
  rw [← ha.stack.size]
  dsimp only
  split
  · exact tracks_throw _
  · exact (tracks_modifyFrame _).bind fun _ => tracks_pure .next

theorem tracks_openBlock (start : Nat) (kind : BlockKind) :
    C.Tracks C.Activations C.Flows (openBlock start kind) (openBlock start kind) := by
  refine tracks_get_bind fun a b hab => ?_
  rw [← hab.frame]
  split
  · exact tracks_throw _
  · cases kind with
    | block | loop => exact tracks_enterBlock _ _
    | cond => exact tracks_controlPop32.bind fun _ => tracks_enterBlock _ _

theorem tracks_closeBlock : C.Tracks C.Activations C.Flows closeBlock closeBlock := by
  refine tracks_get_bind fun a b hab => ?_
  rw [← hab.frame]
  split
  · exact (tracks_modifyFrame _).bind fun _ => tracks_pure .next
  · exact tracks_pure .ret

/-- An instruction does the same in both executions if they have the same where it refers to. -/
theorem matches_instr {a b : Activation} (h : C.Activations a b) (instr : Instr)
    (hrefs : ∀ r ∈ instr.refs a.stack, C.refs r) (start : Nat) :
    C.Matches C.Activations C.Flows (instr.exec start a) (instr.exec start b) := by
  cases instr with
  | plain op =>
    have hop := matches_onScope h (tracks_plain op hrefs _ _ h.scopes)
    exact hop.bind fun _ _ _ _ _ _ hs => .ok hs .next
  | opener kind => exact tracks_openBlock start kind a b h
  | elseArm => exact tracks_branch 0 a b h
  | blockEnd => exact tracks_closeBlock a b h
  | br depth => exact tracks_branch depth a b h
  | brIf depth =>
    refine tracks_controlPop32.bind (fun c => ?_) a b h
    split
    · exact tracks_branch depth
    · exact tracks_pure .next
  | brTable depths last => exact tracks_controlPop32.bind (fun _ => tracks_branch _) a b h
  | ret => exact .ok h .ret
  | call func => exact .ok h (.call (C.same _ (hrefs (.func func) (by simp [Instr.refs]))))
  | callIndirect type table =>
    have hr : C.refs (.slot table a.stack.top) := hrefs _ (by simp [Instr.refs])
    have hcall := matches_onScope h (matches_indirect h.scopes hr a.frame.code.types type)
    simp only [Instr.exec, Control.indirect, get_bind, ← h.frame]
    exact hcall.bind fun _ _ _ _ _ hfunc hs => .ok hs (.call hfunc)
  | illegal opcode => exact .error h

/-- A step of a frame, if all that its instruction refers to is the same. -/
theorem matches_controlStep {a b : Activation} (h : C.Activations a b)
    (hrefs : ∀ r ∈ a.refs, C.refs r) :
    C.Matches C.Activations C.Flows (Control.step a) (Control.step b) := by
  obtain ⟨space, stack, f⟩ := a
  obtain ⟨space', stack', _⟩ := b
  obtain ⟨hspace, hstack, rfl⟩ := h
  cases hread : Instr.read.runAt f.code.body f.pc with
  | error e pc =>
    rw [step_of_read_error hread, step_of_read_error hread]
    exact .error ⟨hspace, hstack, rfl⟩
  | ok instr pc =>
    rw [step_of_read hread, step_of_read hread]
    have hinstr : ∀ r ∈ instr.refs stack, C.refs r := by
      simpa [Activation.refs, hread] using hrefs
    have hab : C.Activations ⟨space, stack, { f with pc }⟩ ⟨space', stack', { f with pc }⟩ :=
      ⟨hspace, hstack, rfl⟩
    exact matches_instr hab instr hinstr f.pc

end Instructions

/-! ## Calls -/

variable (C)

/-- What the frames of both executions share. -/
structure Stores (s t : Store) : Prop where
  space : C.Spaces s.space t.space
  stack : C.Stacks s.stack t.stack
  fuel : s.fuel = t.fuel
  hostCalls : s.hostCalls = t.hostCalls

/-- Machines with the same frames. -/
structure Machines (m m' : Machine) : Prop where
  store : C.Stores m.store m'.store
  frame : m.frame = m'.frame
  callers : m.callers = m'.callers

/-- Outcomes that differ only as the states that they hold may. -/
inductive Outcomes : Machine.Outcome → Machine.Outcome → Prop where
  | running (h : C.Machines m m') : Outcomes (.running m) (.running m')
  | returned (h : C.Stores s s') : Outcomes (.returned s) (.returned s')
  | trapped (h : C.Stores s s') : Outcomes (.trapped t s) (.trapped t s')
  | excused (ht : C.excused t) : Outcomes (.trapped t s) o

variable {C}

section Calls

open Store

/-- What compares on stacks compares on stores. -/
theorem tracks_storeStack {x y : StackM α} (hx : C.Tracks C.Stacks Eq x y) :
    C.Tracks C.Stores Eq (Store.onStack x) (Store.onStack y) := by
  rintro ⟨space, stack, fuel, hostCalls⟩ ⟨space', stack', fuel', hostCalls'⟩
    ⟨hspace, hstack, hfuel, hcalls⟩
  have hxs := hx stack stack' hstack
  simp only [Store.onStack]
  generalize x stack = r at hxs ⊢
  generalize y stack' = r' at hxs ⊢
  cases hxs with
  | ok hstack hv => exact .ok ⟨hspace, hstack, hfuel, hcalls⟩ hv
  | error hstack => exact .error ⟨hspace, hstack, hfuel, hcalls⟩
  | excused he => exact .excused he

/-- A host function sees the same context, so it does the same. -/
theorem tracks_runHost (hr : C.refs .context) (f : HostFunc) (args : List Value) :
    C.Tracks C.Stores Eq (runHost f args) (runHost f args) := by
  intro s t hs
  simp only [runHost, ← hs.space.context hr, ← hs.hostCalls]
  cases f.results (f.run s.space.hostContext args) with
  | ok values => exact .ok ⟨hs.space.mapMemory _, hs.stack, hs.fuel, rfl⟩ rfl
  | error e => exact .error ⟨hs.space.mapMemory _, hs.stack, hs.fuel, rfl⟩

theorem tracks_callHost (hr : C.refs .context) (f : HostFunc) :
    C.Tracks C.Stores Eq (callHost f) (callHost f) :=
  (tracks_storeStack (tracks_popMany _)).bind fun _ => (tracks_runHost hr f _).bind fun _ =>
    tracks_storeStack (tracks_pushAll _)

/-- A frame that is too large for the first limit may fit the second one; the trap is excused. -/
theorem tracks_enter (c : Code) :
    C.Tracks C.Stores Eq (enter C.left.config c) (enter C.right.config c) := by
  refine (tracks_storeStack (tracks_popMany _)).bind fun args => ?_
  by_cases hfull : C.left.config.maxStackHeight < args.size + c.localCount
  · rw [if_pos hfull]
    obtain hheight | ⟨hexcused, -⟩ := C.height
    · rw [if_pos (hheight ▸ hfull)]
      exact tracks_throw _
    · exact fun _ _ _ => .excused hexcused
  · rw [if_neg hfull, if_neg (C.height.not_lt hfull)]
    refine tracks_get_bind fun s t hs => ?_
    rw [hs.stack.size]
    exact tracks_pure rfl

/-- Returning goes to the same caller in both. -/
theorem matches_leave {m m' : Machine} (h : C.Machines m m') : C.Outcomes m.leave m'.leave := by
  obtain ⟨store, frame, callers⟩ := m
  obtain ⟨store', _, _⟩ := m'
  obtain ⟨hstore, rfl, rfl⟩ := h
  have hunwind := tracks_storeStack
    (tracks_unwind frame.base frame.code.type.results.length) store store' hstore
  simp only [Machine.leave]
  generalize Store.onStack (Stack.unwind frame.base frame.code.type.results.length) store = r
    at hunwind ⊢
  generalize Store.onStack (Stack.unwind frame.base frame.code.type.results.length) store' = r'
    at hunwind ⊢
  cases hunwind with
  | ok hs =>
    dsimp only
    cases callers.back? with
    | none => exact .returned hs
    | some caller => exact .running ⟨hs, rfl, rfl⟩
  | error hs => exact .trapped hs
  | excused he => exact .excused he

/-- A call looks its function up, and changes nothing by that. -/
theorem getFunc_eq (index : UInt32) (s : Store) :
    getFunc index s = (match s.space.func index with
      | .ok f => .ok f s
      | .error t => .error t s) := by
  simp only [getFunc, IndexSpace.func]
  cases s.space.funcs[index.toNat]? <;> rfl

/-- Calls of the same function, at indices that may differ, either both enter it or both fail. -/
theorem matches_call {m m' : Machine} (h : C.Machines m m')
    (hfunc : C.left.space.func i = C.right.space.func j)
    (hhost : ∀ f, C.left.space.func i = .ok (.host f) → C.refs .context) :
    C.Outcomes (m.call C.left.config i) (m'.call C.right.config j) := by
  obtain ⟨store, frame, callers⟩ := m
  obtain ⟨store', _, _⟩ := m'
  obtain ⟨hstore, rfl, rfl⟩ := h
  simp only [Machine.call, getFunc_eq, (hstore.space.func i).1, (hstore.space.func j).2, ← hfunc]
  cases hf : C.left.space.func i with
  | error t => exact .trapped hstore
  | ok func =>
    cases func with
    | host f =>
      have hcall := tracks_callHost (hhost f hf) f store store' hstore
      dsimp only
      generalize callHost f store = r at hcall ⊢
      generalize callHost f store' = r' at hcall ⊢
      cases hcall with
      | ok hs => exact .running ⟨hs, rfl, rfl⟩
      | error hs => exact .trapped hs
      | excused he => exact .excused he
    | code c =>
      dsimp only
      by_cases hdeep : C.left.config.maxCallDepth < callers.size + 2
      · rw [if_pos hdeep]
        obtain hdepth | ⟨hexcused, -⟩ := C.depth
        · rw [if_pos (hdepth ▸ hdeep)]
          exact .trapped hstore
        · exact .excused hexcused
      · rw [if_neg hdeep, if_neg (C.depth.not_lt hdeep)]
        have henter := tracks_enter c store store' hstore
        generalize enter C.left.config c store = r at henter ⊢
        generalize enter C.right.config c store' = r' at henter ⊢
        cases henter with
        | ok hs hv =>
          subst hv
          exact .running ⟨hs, rfl, rfl⟩
        | error hs => exact .trapped hs
        | excused he => exact .excused he

/-- A host function that is called sees all of its context. -/
theorem context_mem_refs {m : Machine} (hcallee : m.callee? = some (.host f)) :
    .context ∈ m.refs := by
  simp [Machine.refs, hcallee]

/-- The machine refers to what its frame refers to. -/
theorem activation_refs_subset (m : Machine) : m.activation.refs ⊆ m.refs := by
  unfold Machine.refs
  split
  · exact List.subset_cons_self _ _
  · exact List.Subset.refl _

/-- A step does the same in both executions if they have the same where it refers to. -/
theorem matches_step {m m' : Machine} (h : C.Machines m m') (hrefs : ∀ r ∈ m.refs, C.refs r) :
    C.Outcomes (m.step C.left.config) (m'.step C.right.config) := by
  obtain ⟨⟨space, stack, fuel, hostCalls⟩, frame, callers⟩ := m
  obtain ⟨⟨space', stack', _, _⟩, _, _⟩ := m'
  obtain ⟨⟨hspace, hstack, rfl, rfl⟩, rfl, rfl⟩ := h
  have hab : C.Activations ⟨space, stack, frame⟩ ⟨space', stack', frame⟩ := ⟨hspace, hstack, rfl⟩
  have hstep := matches_controlStep hab fun r hr => hrefs r (activation_refs_subset _ hr)
  -- Both pay for the instruction or neither does; this is the case where both do.
  have hpaid : ∀ fuel', payFuel ⟨space, stack, fuel, hostCalls⟩ =
        .ok () ⟨space, stack, fuel', hostCalls⟩ →
      payFuel ⟨space', stack', fuel, hostCalls⟩ = .ok () ⟨space', stack', fuel', hostCalls⟩ →
      C.Outcomes (Machine.step C.left.config ⟨⟨space, stack, fuel, hostCalls⟩, frame, callers⟩)
        (Machine.step C.right.config ⟨⟨space', stack', fuel, hostCalls⟩, frame, callers⟩) := by
    intro fuel' hpay hpay'
    simp only [Machine.step, hpay, hpay']
    generalize hleft : Control.step ⟨space, stack, frame⟩ = r at hstep ⊢
    generalize Control.step ⟨space', stack', frame⟩ = r' at hstep ⊢
    cases hstep with
    | error ha => exact .trapped ⟨ha.space, ha.stack, rfl, rfl⟩
    | excused he => exact .excused he
    | @ok a b flow flow' ha hflow =>
      have hm : C.Machines ⟨⟨a.space, a.stack, fuel', hostCalls⟩, a.frame, callers⟩
          ⟨⟨b.space, b.stack, fuel', hostCalls⟩, b.frame, callers⟩ :=
        ⟨⟨ha.space, ha.stack, rfl, rfl⟩, ha.frame, rfl⟩
      cases hflow with
      | next => exact .running hm
      | ret => exact matches_leave hm
      | @call i j hfunc =>
        refine matches_call hm hfunc fun f hf => hrefs _ (context_mem_refs (f := f) ?_)
        have hcallee : a.space.func i = .ok (.host f) := (ha.space.func i).1.trans hf
        simp only [Machine.callee?, Machine.activation, hleft]
        exact IndexSpace.func_eq_ok.mp hcallee
  cases fuel with
  | none => exact hpaid none rfl rfl
  | some n =>
    cases n with
    | zero => exact .trapped ⟨hspace, hstack, rfl, rfl⟩
    | succ n => exact hpaid (some n) rfl rfl

/-! ## Executions -/

/-- The functions at two indices can be executed side by side: they are the same, and so is what
they see if they are functions of the host. -/
structure Entries (C : Comparison) (i j : UInt32) : Prop where
  func : C.left.space.func i = C.right.space.func j
  host : ∀ f, C.left.space.func i = .ok (.host f) → C.refs .context

/-- A call from outside, before its first step. -/
theorem matches_invoke {s t : Store} (hs : C.Stores s t) (h : C.Entries i j) :
    C.Outcomes (s.invoke C.left.config 0 i) (t.invoke C.right.config 0 j) := by
  simp only [Store.invoke, getFunc_eq, (hs.space.func i).1, (hs.space.func j).2, ← h.func]
  cases hf : C.left.space.func i with
  | error t => exact .trapped hs
  | ok func =>
    cases func with
    | host f =>
      have hcall := tracks_callHost (h.host f hf) f s t hs
      dsimp only
      generalize callHost f s = r at hcall ⊢
      generalize callHost f t = r' at hcall ⊢
      cases hcall with
      | ok hs => exact .returned hs
      | error hs => exact .trapped hs
      | excused he => exact .excused he
    | code c =>
      have henter := tracks_enter c s t hs
      dsimp only
      generalize enter C.left.config c s = r at henter ⊢
      generalize enter C.right.config c t = r' at henter ⊢
      cases henter with
      | ok hs hv =>
        subst hv
        exact .running ⟨hs, rfl, rfl⟩
      | error hs => exact .trapped hs
      | excused he => exact .excused he

end Calls

variable (C)

/-- Before the call, the stacks have the same cells, and there is the same fuel. -/
structure Starts : Prop where
  cells : C.left.stack.cells = C.right.stack.cells
  fuel : C.left.fuel = C.right.fuel

variable {C}

/-- The stores that two calls start with can be compared. -/
theorem Starts.stores (h : C.Starts) :
    C.Stores ⟨C.left.space, C.left.stack, C.left.fuel, #[]⟩
      ⟨C.right.space, C.right.stack, C.right.fuel, #[]⟩ :=
  ⟨spaces_start, ⟨h.cells, rfl, rfl⟩, h.fuel, rfl⟩

/-- Executions go side by side as long as both instances have the same where the first one refers
to.
-/
theorem matches_execute (hstart : C.Starts) (h : C.Entries i j)
    (hrefs : ∀ k < n, ∀ m, C.left.execute k i args = .running m → ∀ r ∈ m.refs, C.refs r) :
    C.Outcomes (C.left.execute n i args) (C.right.execute n j args) := by
  induction n with
  | zero =>
    have hpush := tracks_storeStack (tracks_pushAll (args.map Value.cell)) _ _ hstart.stores
    simp only [Instance.execute]
    generalize Store.onStack (Stack.pushAll (args.map Value.cell))
      ⟨C.left.space, C.left.stack, C.left.fuel, #[]⟩ = r at hpush ⊢
    generalize Store.onStack (Stack.pushAll (args.map Value.cell))
      ⟨C.right.space, C.right.stack, C.right.fuel, #[]⟩ = r' at hpush ⊢
    cases hpush with
    | ok hs => exact matches_invoke hs h
    | error hs => exact .trapped hs
    | excused he => exact .excused he
  | succ n ih =>
    have hn := ih fun k hk => hrefs k (Nat.lt_succ_of_lt hk)
    rw [Instance.execute_succ, Instance.execute_succ]
    generalize hleft : C.left.execute n i args = o at hn ⊢
    generalize C.right.execute n j args = o' at hn ⊢
    cases hn with
    | @running m m' hm => exact matches_step hm (hrefs n (Nat.lt_succ_self n) m hleft)
    | returned hs => exact .returned hs
    | trapped hs => exact .trapped hs
    | excused ht => exact .excused ht

variable (C)

/-- What comes of two calls differs only as the states that they leave may. -/
inductive Results : Option CallResult → Option CallResult → Prop where
  | pending : Results none none
  | ended (hs : C.Stores s t) :
      Results (some ⟨outcome, C.left.resume s, s.hostCalls⟩)
        (some ⟨outcome, C.right.resume t, t.hostCalls⟩)
  | excused (ht : C.excused t) : Results (some ⟨.error t, after, hostCalls⟩) r

variable {C}

/-- What a call makes of an outcome depends on what both outcomes share. -/
theorem matches_finish (type : FuncType) (h : C.Outcomes o o') :
    C.Results (C.left.finish type o) (C.right.finish type o') := by
  cases h with
  | running => exact .pending
  | @trapped s s' t hs =>
    have hclear : C.Stores { s with stack := s.stack.clear } { s' with stack := s'.stack.clear } :=
      ⟨hs.space, ⟨rfl, hs.stack.limit, hs.stack.limit'⟩, hs.fuel, hs.hostCalls⟩
    exact .ended hclear
  | excused ht => exact .excused ht
  | @returned s s' hs =>
    have hpop := tracks_storeStack (tracks_popMany type.results.length) s s' hs
    simp only [Instance.finish]
    generalize Store.onStack (Stack.popMany type.results.length) s = r at hpop ⊢
    generalize Store.onStack (Stack.popMany type.results.length) s' = r' at hpop ⊢
    cases hpop with
    | ok hs hv =>
      subst hv
      exact .ended hs
    | error hs => exact .ended hs
    | excused he => exact .excused he

/-- Calls come to the same end if both instances have the same where the first one refers to. -/
theorem matches_results (hstart : C.Starts) (h : C.Entries i j)
    (hrefs : ∀ k < n, ∀ m, C.left.execute k i args = .running m → ∀ r ∈ m.refs, C.refs r) :
    C.Results (C.left.call n i args) (C.right.call n j args) := by
  have hfunc := h.func
  simp only [IndexSpace.func] at hfunc
  simp only [Instance.call]
  cases hleft : C.left.space.funcs[i.toNat]? with
  | none =>
    cases hright : C.right.space.funcs[j.toNat]? with
    | none =>
      simp only [hleft, hright, Except.error.injEq] at hfunc
      simp only [hfunc]
      exact .ended hstart.stores
    | some f' => simp [hleft, hright] at hfunc
  | some f =>
    cases hright : C.right.space.funcs[j.toNat]? with
    | none => simp [hleft, hright] at hfunc
    | some f' =>
      obtain rfl : f = f' := by simpa [hleft, hright] using hfunc
      dsimp only
      split
      · exact matches_finish f.type (matches_execute hstart h hrefs)
      · exact .ended hstart.stores

end Comparison

end Wasm
