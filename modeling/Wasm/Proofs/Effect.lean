import Wasm.Proofs.Blame
import Wasm.Proofs.Evolution
import Wasm.Proofs.Typing

/-!
# Wasm.Proofs.Effect

What instructions do with the cells on top of the stack, and which indices they use.

* `Exec.Takes n k x`: whatever lies below, `x` takes `n` cells from the top and leaves `k` there.
  `PlainInstr.takes_exec` says this of plain instructions, whose numbers are `PlainInstr.arity`.
* `Exec.pop_bind`, `Exec.push_of_lt`, `Exec.numeric_binary` and their like say what an effect does
  with operands that are known.
* `IndexSpace.Fits`: the index space has what a module says it has. `Exec.Intact` says of an effect
  that it then finds everything its indices refer to; `PlainInstr.Typed.intact` that a typed
  instruction does.
-/

namespace Wasm

namespace Exec

/-! ## Cells on top of the stack -/

/-- Whatever lies below, the effect takes `n` cells from the top of the stack and leaves `k` there.
It does not fail for want of cells. -/
def Takes (n k : Nat) (x : Exec α) : Prop :=
  ∀ (s : Scope) (below top : Array UInt64), s.stack.cells = below ++ top → top.size = n →
    match x s with
    | .ok _ s' => ∃ top' : Array UInt64, s'.stack.cells = below ++ top' ∧ top'.size = k
    | .error t _ => t ≠ .stackUnderflow

/-- The effect has nothing to do with the stack. -/
def Aside (x : Exec α) : Prop :=
  ∀ s, match x s with
    | .ok _ s' => s'.stack = s.stack
    | .error t _ => t ≠ .stackUnderflow

/-- What leaves the stack alone leaves any number of cells on top of it. -/
theorem Aside.takes {x : Exec α} (hx : Aside x) (n : Nat) : Takes n n x := by
  intro s below top hcells hsize
  have hs := hx s
  cases h : x s with
  | ok a s' =>
    rw [h] at hs
    exact ⟨top, by rw [hs, hcells], hsize⟩
  | error t s' =>
    rw [h] at hs
    exact hs

/-- Another trap than that for want of cells may be raised at any height. -/
theorem takes_throw {t : Trap} (h : t ≠ .stackUnderflow) (n k : Nat) :
    Takes n k (throw t : Exec α) :=
  fun _ _ _ _ _ => h

theorem aside_pure (a : α) : Aside (pure a : Exec α) := fun _ => rfl

/-- The cells that the first effect leaves are those that the second one takes. -/
theorem Takes.bind {x : Exec α} {f : α → Exec β} (hx : Takes n k x)
    (hf : ∀ a, Takes k l (f a)) : Takes n l (x >>= f) := by
  intro s below top hcells hsize
  have hs := hx s below top hcells hsize
  simp only [Bind.bind, EStateM.bind]
  cases h : x s with
  | ok a s₁ =>
    rw [h] at hs
    obtain ⟨top₁, hcells₁, hsize₁⟩ := hs
    exact hf a s₁ below top₁ hcells₁ hsize₁
  | error t s₁ =>
    rw [h] at hs
    exact hs

/-- The height of the stack after an effect is known from the height before it. -/
theorem Takes.size_eq {x : Exec α} (hx : Takes n k x) (h : x s = .ok a s')
    (hn : n ≤ s.stack.size) : s'.stack.size = s.stack.size - n + k := by
  obtain ⟨below, top, hcells, hsize⟩ := s.stack.exists_append hn
  have hs := hx s below top hcells hsize
  rw [h] at hs
  obtain ⟨top', hcells', hsize'⟩ := hs
  simp only [Stack.size, hcells, hcells', Array.size_append]
  omega

/-- On a stack that is high enough, the effect does not run out of cells. -/
theorem Takes.ne_stackUnderflow {x : Exec α} (hx : Takes n k x) (h : x s = .error t s')
    (hn : n ≤ s.stack.size) : t ≠ .stackUnderflow := by
  obtain ⟨below, top, hcells, hsize⟩ := s.stack.exists_append hn
  have hs := hx s below top hcells hsize
  rwa [h] at hs

/-- A full stack is another matter than one without cells. -/
theorem takes_push (n : Nat) (c : UInt64) : Takes n (n + 1) (push c) := by
  intro s below top hcells hsize
  simp only [push, onStack]
  cases h : Stack.push c s.stack with
  | ok _ stack =>
    refine ⟨top.push c, ?_, by rw [Array.size_push, hsize]⟩
    simp only [Stack.push_eq_ok h, hcells, Array.push_append]
  | error t stack =>
    simp only [(Stack.push_eq_error h).1]
    simp

/-- A stack with cells to take has a top one. -/
theorem exists_top {s : Scope} {below top : Array UInt64} (hcells : s.stack.cells = below ++ top)
    (hsize : top.size = n + 1) : ∃ (rest : Array UInt64) (c : UInt64), rest.size = n ∧
      top = rest.push c ∧ s.stack = ⟨(below ++ rest).push c, s.stack.limit⟩ := by
  obtain ⟨rest, c, rfl⟩ : ∃ (rest : Array UInt64) (c : UInt64), top = rest.push c :=
    Stack.exists_push ⟨top, 0⟩ (by simp only [Stack.size]; omega)
  rw [Array.size_push] at hsize
  refine ⟨rest, c, Nat.succ.inj hsize, rfl, ?_⟩
  rw [← Array.append_push, ← hcells]

theorem takes_pop (n : Nat) : Takes (n + 1) n pop := by
  intro s below top hcells hsize
  obtain ⟨rest, c, hrest, -, hstack⟩ := exists_top hcells hsize
  simp only [pop, onStack]
  rw [hstack, Stack.pop_push]
  exact ⟨rest, rfl, hrest⟩

theorem takes_pop32 (n : Nat) : Takes (n + 1) n pop32 :=
  (takes_pop n).bind fun _ => (aside_pure _).takes n

/-- The cell on top is looked at and stays. -/
theorem takes_peek (n : Nat) : Takes (n + 1) (n + 1) peek := by
  intro s below top hcells hsize
  obtain ⟨rest, c, -, rfl, hstack⟩ := exists_top hcells hsize
  simp only [peek, onStack, Stack.peek]
  rw [hstack, Array.back?_push]
  exact ⟨rest.push c, Array.append_push.symm, hsize⟩

/-! ## Beside the stack -/

/-- Locals do not lie on the stack. -/
theorem aside_getLocal (index : UInt32) : Aside (onLocals (Locals.get index)) := by
  intro s
  simp only [onLocals, Locals.get]
  cases s.locals[index.toNat]? with
  | none => simp
  | some c => rfl

theorem aside_setLocal (index : UInt32) (c : UInt64) : Aside (onLocals (Locals.set index c)) := by
  intro s
  simp only [onLocals, Locals.set]
  by_cases h : index.toNat < s.locals.size
  · simp only [if_pos h]
  · simp only [if_neg h]
    simp

theorem aside_getGlobal (index : UInt32) : Aside (getGlobal index) := by
  intro s
  unfold getGlobal
  cases s.space.globals[index.toNat]? with
  | none => simp
  | some g => rfl

theorem aside_setGlobal (index : UInt32) (c : UInt64) : Aside (setGlobal index c) := by
  intro s
  unfold setGlobal
  cases s.space.globals[index.toNat]? with
  | none => simp
  | some g =>
    dsimp only
    by_cases h : g.type.mutable
    · simp only [if_pos h]
    · simp only [if_neg h]
      simp

/-- An access that fails does so for reasons of its own. -/
theorem aside_readMemory {f : Memory → Except Trap α}
    (hf : ∀ m t, f m = .error t → t ≠ .stackUnderflow) : Aside (readMemory f) := by
  intro s
  unfold readMemory
  cases s.space.memory with
  | none => simp
  | some m =>
    dsimp only
    cases h : f m with
    | error t => exact hf m t h
    | ok a => rfl

theorem aside_writeMemory (address offset : UInt32) (bytes : List UInt8) :
    Aside (writeMemory address offset bytes) := by
  intro s
  simp only [writeMemory]
  cases s.space.memory.map (·.covers (Memory.effective address offset) bytes.length) with
  | none => simp
  | some covered =>
    cases covered with
    | false => simp
    | true => rfl

theorem aside_growMemory (delta : Nat) : Aside (growMemory delta) := fun _ => rfl

theorem aside_ofExcept {x : Except Trap α} (hx : ∀ t, x = .error t → t ≠ .stackUnderflow) :
    Aside (ofExcept x) := by
  intro s
  unfold ofExcept
  cases x with
  | error t => exact hx t rfl
  | ok a => rfl

end Exec

/-! ## Known operands -/

/-- The scope with other operands. -/
def Scope.withCells (s : Scope) (cells : Array UInt64) : Scope :=
  { s with stack := { s.stack with cells } }

namespace Exec

variable {s : Scope}

/-- The cell on top is taken, and the rest goes on below it. -/
theorem pop_bind (hcells : s.stack.cells = below.push c) (k : UInt64 → Exec α) :
    (pop >>= k) s = k c (s.withCells below) := by
  obtain ⟨space, ⟨cells, limit⟩, locals⟩ := s
  obtain rfl : cells = below.push c := hcells
  simp only [pop, onStack, Bind.bind, EStateM.bind, Stack.pop_push, Scope.withCells]

/-- Of the cell on top, the low half is taken. -/
theorem pop32_bind (hcells : s.stack.cells = below.push c) (k : UInt32 → Exec α) :
    (pop32 >>= k) s = k c.toUInt32 (s.withCells below) := by
  rw [pop32, bind_assoc, pop_bind hcells, pure_bind]

/-- A cell is pushed if there is room. -/
theorem push_of_lt (h : s.stack.cells.size < s.stack.limit) (c : UInt64) :
    push c s = .ok () (s.withCells (s.stack.cells.push c)) := by
  obtain ⟨space, ⟨cells, limit⟩, locals⟩ := s
  simp only [push, onStack, Stack.push, if_neg (Nat.not_le.mpr h), Scope.withCells]

/-- An access to the memory that succeeds hands its result on. -/
theorem readMemory_bind_of_ok {f : Memory → Except Trap α} (hm : s.space.memory = some m)
    (hf : f m = .ok a) (k : α → Exec β) : (readMemory f >>= k) s = k a s := by
  simp only [readMemory, Bind.bind, EStateM.bind, hm, hf]

/-- One that fails ends the instruction, with everything as it was. -/
theorem readMemory_bind_of_error {f : Memory → Except Trap α} (hm : s.space.memory = some m)
    (hf : f m = .error t) (k : α → Exec β) : (readMemory f >>= k) s = .error t s := by
  simp only [readMemory, Bind.bind, EStateM.bind, hm, hf]

/-- Put the result of a partial operation on top of other cells, or stop with its trap. -/
def replaceWith (s : Scope) (below : Array UInt64) :
    Except Trap UInt64 → EStateM.Result Trap Scope Unit
  | .ok c => .ok () (s.withCells (below.push c))
  | .error t => .error t (s.withCells below)

/-- The operands are replaced by a result exactly if there is one. -/
theorem replaceWith_eq_ok {x : Except Trap UInt64} :
    replaceWith s below x = .ok () (s.withCells (below.push c)) ↔ x = .ok c := by
  cases x with
  | ok c' => simp [replaceWith, Scope.withCells, Array.push_eq_push]
  | error t => simp [replaceWith]

/-- A computation that may trap, on operands that have been taken, replaces them by its result. -/
theorem ofExcept_bind_push (h : below.size < s.stack.limit) (x : Except Trap UInt64) :
    (ofExcept x >>= push) (s.withCells below) = replaceWith s below x := by
  cases x with
  | ok c =>
    have hpush := push_of_lt (s := s.withCells below) h c
    simp only [ofExcept, Bind.bind, EStateM.bind, hpush]
    rfl
  | error t => rfl

/-- A unary instruction replaces its operand. -/
theorem numeric_unary (hcells : s.stack.cells = below.push a) (h : below.size < s.stack.limit)
    (op : UnaryOp) : numeric (.unary op) s = replaceWith s below (op.eval a) := by
  rw [numeric, pop_bind hcells]
  exact ofExcept_bind_push h _

/-- A binary instruction replaces its operands; the second one lies on top. -/
theorem numeric_binary {below : Array UInt64} (hcells : s.stack.cells = (below.push a).push b)
    (h : below.size < s.stack.limit) (op : BinaryOp) :
    numeric (.binary op) s = replaceWith s below (op.eval a b) := by
  rw [numeric, pop_bind hcells, pop_bind (s := s.withCells (below.push a)) rfl]
  exact ofExcept_bind_push h _

end Exec

/-- A load fails only if it is out of bounds. -/
theorem Memory.load_eq_error {m : Memory} (h : m.load address offset length = .error t) :
    ∃ start, t = .memoryOutOfBounds start length := by
  simp only [load] at h
  split at h
  · contradiction
  · cases h
    exact ⟨_, rfl⟩

theorem Trap.IsNumeric.ne_stackUnderflow {t : Trap} (h : t.IsNumeric) : t ≠ .stackUnderflow := by
  rintro rfl
  exact h

/-! ## Plain instructions -/

/-- How many operands a plain instruction takes, and how many it leaves. -/
def PlainInstr.arity : PlainInstr → Arity
  | .unreachable | .nop => ⟨0, 0⟩
  | .drop | .localSet _ | .globalSet _ => ⟨1, 0⟩
  | .select => ⟨3, 1⟩
  | .localGet _ | .globalGet _ | .memorySize | .const _ => ⟨0, 1⟩
  | .localTee _ | .load _ _ | .memoryGrow | .numeric (.unary _) => ⟨1, 1⟩
  | .store _ _ => ⟨2, 0⟩
  | .numeric (.binary _) => ⟨2, 1⟩

open Exec in
/-- A plain instruction takes and leaves as many cells as its arity says. -/
theorem PlainInstr.takes_exec (op : PlainInstr) :
    Takes op.arity.params op.arity.results op.exec := by
  cases op with
  | unreachable => exact takes_throw (t := .unreachable) (by simp) 0 0
  | nop => exact (aside_pure ()).takes 0
  | drop => exact (takes_pop 0).bind fun _ => (aside_pure ()).takes 0
  | select =>
    exact (takes_pop32 2).bind fun _ => (takes_pop 1).bind fun _ => (takes_pop 0).bind fun _ =>
      takes_push 0 _
  | localGet index => exact ((aside_getLocal index).takes 0).bind fun _ => takes_push 0 _
  | localSet index => exact (takes_pop 0).bind fun c => (aside_setLocal index c).takes 0
  | localTee index => exact (takes_peek 0).bind fun c => (aside_setLocal index c).takes 1
  | globalGet index => exact ((aside_getGlobal index).takes 0).bind fun _ => takes_push 0 _
  | globalSet index => exact (takes_pop 0).bind fun c => (aside_setGlobal index c).takes 0
  | load op offset =>
    refine (takes_pop32 0).bind fun address =>
      ((aside_readMemory fun m t h => ?_).takes 0).bind fun _ => takes_push 0 _
    obtain ⟨start, rfl⟩ := Memory.load_eq_error h
    simp
  | store op offset =>
    exact (takes_pop 1).bind fun c => (takes_pop32 0).bind fun address =>
      (aside_writeMemory address offset _).takes 0
  | memorySize =>
    exact ((aside_readMemory fun m t h => by contradiction).takes 0).bind fun _ => takes_push 0 _
  | memoryGrow =>
    refine (takes_pop32 0).bind fun delta =>
      ((aside_readMemory fun m t h => by contradiction).takes 0).bind fun previous => ?_
    cases previous with
    | none => exact takes_push 0 _
    | some pages => exact ((aside_growMemory _).takes 0).bind fun _ => takes_push 0 _
  | const v => exact takes_push 0 _
  | numeric op =>
    cases op with
    | unary op =>
      exact (takes_pop 0).bind fun a =>
        ((aside_ofExcept fun t h => (op.isNumeric h).ne_stackUnderflow).takes 0).bind fun _ =>
          takes_push 0 _
    | binary op =>
      exact (takes_pop 1).bind fun b => (takes_pop 0).bind fun a =>
        ((aside_ofExcept fun t h => (op.isNumeric h).ne_stackUnderflow).takes 0).bind fun _ =>
          takes_push 0 _

/-- The arity of a typed instruction is how many types it has. -/
theorem PlainInstr.Typed.arity_eq (h : Typed C op ts us) (hop : op ≠ .unreachable) :
    ts.length = op.arity.params ∧ us.length = op.arity.results := by
  cases h with
  | unreachable => contradiction
  | numeric op =>
    obtain op | op := op
    · obtain w | ⟨w, op⟩ | ⟨w, op⟩ | op := op
      · exact ⟨rfl, rfl⟩
      · exact ⟨rfl, rfl⟩
      · exact ⟨rfl, rfl⟩
      · cases op <;> exact ⟨rfl, rfl⟩
    · cases op <;> exact ⟨rfl, rfl⟩
  | _ => exact ⟨rfl, rfl⟩

/-! ## Indices -/

/-- The trap says that an index refers to nothing, or to what cannot be set. -/
def Trap.IsDangling : Trap → Prop
  | .functionIndexOutOfRange _ _ => True
  | .localIndexOutOfRange _ => True
  | .globalIndexOutOfRange _ => True
  | .typeIndexOutOfRange _ => True
  | .tableIndexOutOfRange _ => True
  | .missingMemory => True
  | .immutableGlobal _ => True
  | _ => False

theorem Trap.IsNumeric.not_isDangling {t : Trap} (h : t.IsNumeric) : ¬ t.IsDangling := by
  cases t <;> first | exact id | exact h.elim

/-- The index space has what the module says it has. -/
structure IndexSpace.Fits (m : Module) (s : IndexSpace) : Prop where
  funcs : ∀ k, (s.funcs[k]?).map Func.type = m.signature? k
  tables : s.table.toList.length = m.count .table
  slots : ∀ t, s.table = some t → t.RefersBelow s.funcs.size
  memories : s.memory.toList.length = m.count .memory
  globals : s.globals.toList.map Global.type = m.globalTypes

namespace IndexSpace.Fits

variable {m : Module} {s s' : IndexSpace}

/-- Execution does not change what indices of the module can refer to. -/
theorem evolves (h : s.Fits m) (hs : s.Evolves s') : s'.Fits m where
  funcs := by rw [hs.funcs]; exact h.funcs
  tables := by rw [hs.table]; exact h.tables
  slots := by rw [hs.table, hs.funcs]; exact h.slots
  memories := (optionRel_length hs.memory).trans h.memories
  globals := by rw [← Array.toList_map, hs.globalTypes, Array.toList_map, h.globals]

/-- A global that the module has the type of is there, and has that type. -/
theorem exists_global {k : Nat} {type : GlobalType} (h : s.Fits m)
    (hk : m.globalTypes[k]? = some type) :
    ∃ g, s.globals[k]? = some g ∧ g.type = type := by
  rw [← h.globals, List.getElem?_map, Array.getElem?_toList] at hk
  exact Option.map_eq_some_iff.mp hk

/-- A memory that the module has, its own or an imported one, is there. -/
theorem exists_memory (h : s.Fits m) (hm : 0 < m.count .memory) :
    ∃ memory, s.memory = some memory := by
  rw [← h.memories, List.length_pos_iff_exists_mem] at hm
  obtain ⟨memory, hmemory⟩ := hm
  exact ⟨memory, Option.mem_toList.mp hmemory⟩

end IndexSpace.Fits

namespace Exec

/-- In an index space that fits, and with `n` locals, the effect finds what its indices refer to. -/
def Intact (m : Module) (n : Nat) (x : Exec α) : Prop :=
  ∀ s : Scope, s.space.Fits m → s.locals.size = n →
    match x s with
    | .ok _ s' => s'.space.Fits m ∧ s'.locals.size = n
    | .error t _ => ¬ t.IsDangling

variable {m : Module}

theorem intact_pure (a : α) : Intact m n (pure a : Exec α) := fun _ hs hn => ⟨hs, hn⟩

theorem intact_throw (h : ¬ t.IsDangling) : Intact m n (throw t : Exec α) := fun _ _ _ => h

/-- Effects keep what the next ones need to find. -/
theorem Intact.bind {x : Exec α} {f : α → Exec β} (hx : Intact m n x)
    (hf : ∀ a, Intact m n (f a)) : Intact m n (x >>= f) := by
  intro s hs hn
  have hfirst := hx s hs hn
  simp only [Bind.bind, EStateM.bind]
  cases h : x s with
  | ok a s₁ =>
    rw [h] at hfirst
    exact hf a s₁ hfirst.1 hfirst.2
  | error t s₁ =>
    rw [h] at hfirst
    exact hfirst

theorem intact_push (c : UInt64) : Intact m n (push c) := by
  intro s hs hn
  simp only [push, onStack]
  cases h : Stack.push c s.stack with
  | ok _ stack => exact ⟨hs, hn⟩
  | error t stack =>
    simp only [(Stack.push_eq_error h).1]
    exact id

theorem intact_pop : Intact m n pop := by
  intro s hs hn
  simp only [pop, onStack, Stack.pop]
  cases s.stack.cells.back? with
  | none => exact id
  | some c => exact ⟨hs, hn⟩

theorem intact_pop32 : Intact m n pop32 :=
  intact_pop.bind fun _ => intact_pure _

theorem intact_peek : Intact m n peek := by
  intro s hs hn
  simp only [peek, onStack, Stack.peek]
  cases s.stack.cells.back? with
  | none => exact id
  | some c => exact ⟨hs, hn⟩

/-- An index below the number of locals has a local. -/
theorem intact_getLocal (h : index.toNat < n) : Intact m n (onLocals (Locals.get index)) := by
  intro s hs hn
  rw [← hn] at h
  simp only [onLocals, Locals.get, Array.getElem?_eq_getElem h]
  exact ⟨hs, hn⟩

/-- Setting a local does not change how many there are. -/
theorem intact_setLocal (h : index.toNat < n) (c : UInt64) :
    Intact m n (onLocals (Locals.set index c)) := by
  intro s hs hn
  rw [← hn] at h
  simp only [onLocals, Locals.set, if_pos h]
  exact ⟨hs, by rw [Array.size_setIfInBounds, hn]⟩

/-- An index of the module has a global. -/
theorem intact_getGlobal (h : m.globalTypes[index.toNat]? = some type) :
    Intact m n (getGlobal index) := by
  intro s hs hn
  obtain ⟨g, hg, -⟩ := hs.exists_global h
  simp only [getGlobal, hg]
  exact ⟨hs, hn⟩

/-- A global that is declared mutable is mutable in the index space, so that it may be set. -/
theorem intact_setGlobal (h : m.globalTypes[index.toNat]? = some type) (hmutable : type.mutable)
    (c : UInt64) : Intact m n (setGlobal index c) := by
  intro s hs hn
  obtain ⟨g, hg, rfl⟩ := hs.exists_global h
  simp only [setGlobal, hg, if_pos hmutable]
  exact ⟨hs.evolves (IndexSpace.evolves_setGlobal hg hmutable c), hn⟩

/-- Where the module has a memory, only the access itself can fail. -/
theorem intact_readMemory {f : Memory → Except Trap α} (h : 0 < m.count .memory)
    (hf : ∀ memory t, f memory = .error t → ¬ t.IsDangling) : Intact m n (readMemory f) := by
  intro s hs hn
  obtain ⟨memory, hmemory⟩ := hs.exists_memory h
  simp only [readMemory, hmemory]
  cases hread : f memory with
  | error t => exact hf memory t hread
  | ok a => exact ⟨hs, hn⟩

/-- A store finds the memory, and leaves it there. -/
theorem intact_writeMemory (h : 0 < m.count .memory) (address offset : UInt32)
    (bytes : List UInt8) : Intact m n (writeMemory address offset bytes) := by
  intro s hs hn
  obtain ⟨memory, hmemory⟩ := hs.exists_memory h
  simp only [writeMemory, hmemory, Option.map_some]
  cases memory.covers (Memory.effective address offset) bytes.length with
  | false => exact id
  | true =>
    exact ⟨hs.evolves (IndexSpace.evolves_mapMemory (fun m => m.evolves_write _ bytes) _), hn⟩

theorem intact_growMemory (delta : Nat) : Intact m n (growMemory delta) :=
  fun s hs hn => ⟨hs.evolves (evolves_growMemory delta s).shared.space, hn⟩

theorem intact_ofExcept {x : Except Trap α} (hx : ∀ t, x = .error t → ¬ t.IsDangling) :
    Intact m n (ofExcept x) := by
  intro s hs hn
  unfold ofExcept
  cases x with
  | error t => exact hx t rfl
  | ok a => exact ⟨hs, hn⟩

end Exec

open Exec in
/-- A typed instruction finds what its indices refer to. -/
theorem PlainInstr.Typed.intact {m : Module} (h : Typed (m.context locals results) op ts us) :
    Intact m locals.length op.exec := by
  cases h with
  | unreachable => exact intact_throw id
  | nop => exact intact_pure ()
  | drop => exact intact_pop.bind fun _ => intact_pure ()
  | select =>
    exact intact_pop32.bind fun _ => intact_pop.bind fun _ => intact_pop.bind fun _ => intact_push _
  | localGet h =>
    exact (intact_getLocal (List.getElem?_eq_some_iff.mp h).1).bind fun _ => intact_push _
  | localSet h =>
    exact intact_pop.bind fun c => intact_setLocal (List.getElem?_eq_some_iff.mp h).1 c
  | localTee h =>
    exact intact_peek.bind fun c => intact_setLocal (List.getElem?_eq_some_iff.mp h).1 c
  | globalGet h => exact (intact_getGlobal h).bind fun _ => intact_push _
  | globalSet h hmutable => exact intact_pop.bind fun c => intact_setGlobal h hmutable c
  | load h =>
    refine intact_pop32.bind fun address =>
      (intact_readMemory h fun memory t ht => ?_).bind fun _ => intact_push _
    obtain ⟨start, rfl⟩ := Memory.load_eq_error ht
    exact id
  | store h =>
    exact intact_pop.bind fun c => intact_pop32.bind fun address => intact_writeMemory h address _ _
  | memorySize h =>
    exact (intact_readMemory h fun memory t ht => by contradiction).bind fun _ => intact_push _
  | memoryGrow h =>
    refine intact_pop32.bind fun delta =>
      (intact_readMemory h fun memory t ht => by contradiction).bind fun previous => ?_
    cases previous with
    | none => exact intact_push _
    | some pages => exact (intact_growMemory _).bind fun _ => intact_push _
  | const v => exact intact_push _
  | numeric op =>
    cases op with
    | unary op =>
      exact intact_pop.bind fun a =>
        (intact_ofExcept fun t ht => (op.isNumeric ht).not_isDangling).bind fun _ => intact_push _
    | binary op =>
      exact intact_pop.bind fun b => intact_pop.bind fun a =>
        (intact_ofExcept fun t ht => (op.isNumeric ht).not_isDangling).bind fun _ => intact_push _

/-! ## Indirect calls -/

namespace Exec

/-- A cell that was taken has been on top. -/
theorem pop32_eq_ok {s s' : Scope} (h : pop32 s = .ok c s') :
    ∃ cell, s = { s' with stack := ⟨s'.stack.cells.push cell, s'.stack.limit⟩ } := by
  simp only [pop32, pop, onStack, Bind.bind, EStateM.bind] at h
  cases hpop : Stack.pop s.stack with
  | error t stack =>
    simp only [hpop] at h
    contradiction
  | ok cell stack =>
    simp only [hpop] at h
    cases h
    refine ⟨cell, ?_⟩
    rw [← Stack.pop_eq_ok hpop]

/-- An indirect call takes the index of a slot and calls a function of the type that it names. -/
theorem indirect_eq_ok {s s' : Scope} (h : indirect types type table s = .ok func s') :
    ∃ cell f, s = { s' with stack := ⟨s'.stack.cells.push cell, s'.stack.limit⟩ } ∧
      s.space.funcs[func.toNat]? = some f ∧ types[type.toNat]? = some f.type := by
  obtain ⟨element, s₁, hpop, hrest⟩ := bind_eq_ok.mp h
  obtain ⟨cell, rfl⟩ := pop32_eq_ok hpop
  rw [get_bind] at hrest
  cases htbl : s₁.space.table.toList[table.toNat]? with
  | none =>
    simp only [htbl] at hrest
    contradiction
  | some tbl =>
    cases hget : tbl.get element with
    | error trap =>
      simp only [htbl, hget] at hrest
      contradiction
    | ok func' =>
      cases htype : types[type.toNat]? with
      | none =>
        simp only [htbl, hget, htype] at hrest
        contradiction
      | some expected =>
        cases hf : s₁.space.funcs[func'.toNat]? with
        | none =>
          simp only [htbl, hget, htype, hf] at hrest
          contradiction
        | some f =>
          simp only [htbl, hget, htype, hf] at hrest
          split at hrest
          · next hexpected =>
            cases hrest
            exact ⟨cell, f, rfl, hf, congrArg some hexpected.symm⟩
          · contradiction

/-- A typed indirect call finds its table, its type and its function. -/
theorem indirect_eq_error {m : Module} {s s' : Scope} (hs : s.space.Fits m)
    (htable : table.toNat < m.count .table) (htype : types[type.toNat]? = some t)
    (hsize : 0 < s.stack.size) (h : indirect types type table s = .error trap s') :
    trap ≠ .stackUnderflow ∧ ¬ trap.IsDangling := by
  obtain ⟨cells, cell, hcells⟩ := s.stack.exists_push hsize
  have hpop : pop32 s = .ok cell.toUInt32 { s with stack := ⟨cells, s.stack.limit⟩ } := by
    obtain ⟨space, ⟨_, limit⟩, locals⟩ := s
    obtain rfl := hcells
    simp only [pop32, pop, onStack, Bind.bind, EStateM.bind, Stack.pop_push]
    rfl
  obtain ⟨tbl, htbl⟩ : ∃ tbl, s.space.table.toList[table.toNat]? = some tbl :=
    ⟨_, List.getElem?_eq_getElem (hs.tables ▸ htable)⟩
  rw [indirect, bind_of_ok _ hpop, get_bind] at h
  simp only [htbl, htype] at h
  cases hget : tbl.get cell.toUInt32 with
  | error trap' =>
    simp only [hget] at h
    cases h
    unfold Table.get at hget
    split at hget
    · contradiction
    · cases hget
      exact ⟨by simp, id⟩
    · cases hget
      exact ⟨by simp, id⟩
  | ok func =>
    -- Slots refer to functions of the instance, so that what was found there exists.
    have hfunc : func.toNat < s.space.funcs.size := by
      have htbl := Option.mem_toList.mp (List.mem_of_getElem? htbl)
      refine hs.slots tbl htbl func ?_
      unfold Table.get at hget
      split at hget
      · next hslot =>
        cases hget
        exact Array.mem_of_getElem? hslot
      · contradiction
      · contradiction
    simp only [hget, Array.getElem?_eq_getElem hfunc] at h
    split at h
    · contradiction
    · cases h
      exact ⟨by simp, id⟩

end Exec

end Wasm
