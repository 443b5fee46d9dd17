import Wasm.Proofs.Transition

/-!
# Wasm.Proofs.Evolution

What execution can change of an instance, whatever the code: the bytes of the memory, which may
grow, and the cells of mutable globals. The stack stays within its limit, and a frame keeps the
number of its locals.

* `IndexSpace.Evolves` says what stays. It is reflexive and transitive.
* `Respects R x`: the effect `x` leads from a state only to states that are related to it, also when
  it traps.
* `Control.evolves_step`, `Machine.Transition.evolves`, `Instance.Execution.evolves`: execution
  leads only to where an instance can evolve.
-/

namespace Wasm

/-! ## What stays -/

/-- What execution can make of a memory. -/
structure Memory.Evolves (m m' : Memory) : Prop where
  limits : m'.limits = m.limits
  size : m.size ≤ m'.size

/-- What execution can make of a global. -/
structure Global.Evolves (g g' : Global) : Prop where
  type : g'.type = g.type
  cell : g.type.mutable = false → g'.cell = g.cell

/-- What execution can make of an index space. -/
structure IndexSpace.Evolves (s s' : IndexSpace) : Prop where
  funcs : s'.funcs = s.funcs
  table : s'.table = s.table
  memory : Option.Rel Memory.Evolves s.memory s'.memory
  globals : ∀ i : Nat, Option.Rel Global.Evolves s.globals[i]? s'.globals[i]?

theorem Memory.Evolves.refl (m : Memory) : m.Evolves m := ⟨rfl, Nat.le_refl _⟩

/-- Whatever is done after the first change keeps the limits again and takes no byte away. -/
theorem Memory.Evolves.trans {m m' m'' : Memory} (h : m.Evolves m') (h' : m'.Evolves m'') :
    m.Evolves m'' :=
  ⟨h'.limits.trans h.limits, Nat.le_trans h.size h'.size⟩

theorem Global.Evolves.refl (g : Global) : g.Evolves g := ⟨rfl, fun _ => rfl⟩

/-- An immutable global stays immutable, so that its cell is kept by both changes. -/
theorem Global.Evolves.trans {g g' g'' : Global} (h : g.Evolves g') (h' : g'.Evolves g'') :
    g.Evolves g'' := by
  refine ⟨h'.type.trans h.type, fun himmutable => ?_⟩
  rw [h'.cell (h.type ▸ himmutable), h.cell himmutable]

theorem optionRel_refl {R : α → α → Prop} (hR : ∀ a, R a a) (o : Option α) : Option.Rel R o o := by
  cases o with
  | none => exact .none
  | some a => exact .some (hR a)

theorem optionRel_trans {R : α → α → Prop} (hR : ∀ {a b c}, R a b → R b c → R a c)
    (h : Option.Rel R o o') (h' : Option.Rel R o' o'') : Option.Rel R o o'' := by
  cases h with
  | none => exact h'
  | some hab =>
    cases h' with
    | some hbc => exact .some (hR hab hbc)

/-- Related options are both there or both absent. -/
theorem optionRel_isSome {R : α → β → Prop} (h : Option.Rel R o o') : o.isSome = o'.isSome := by
  cases h <;> rfl

/-- A weaker relation holds of whatever a stronger one holds of. -/
theorem optionRel_mono {R S : α → β → Prop} (hRS : ∀ {a b}, R a b → S a b)
    (h : Option.Rel R o o') : Option.Rel S o o' := by
  cases h with
  | none => exact .none
  | some hab => exact .some (hRS hab)

/-- What related values have in common, related options have in common. -/
theorem optionRel_map {R : α → α → Prop} {f : α → β} (hf : ∀ {a b}, R a b → f b = f a)
    (h : Option.Rel R o o') : o'.map f = o.map f := by
  cases h with
  | none => rfl
  | some hab => exact congrArg some (hf hab)

/-- A related option stands for as many things. -/
theorem optionRel_length {R : α → β → Prop} (h : Option.Rel R o o') :
    o'.toList.length = o.toList.length := by
  cases h <;> rfl

namespace IndexSpace.Evolves

theorem refl (s : IndexSpace) : s.Evolves s where
  funcs := rfl
  table := rfl
  memory := optionRel_refl Memory.Evolves.refl s.memory
  globals := fun i => optionRel_refl Global.Evolves.refl s.globals[i]?

theorem trans {s s' s'' : IndexSpace} (h : s.Evolves s') (h' : s'.Evolves s'') :
    s.Evolves s'' where
  funcs := h'.funcs.trans h.funcs
  table := h'.table.trans h.table
  memory := optionRel_trans Memory.Evolves.trans h.memory h'.memory
  globals := fun i => optionRel_trans Global.Evolves.trans (h.globals i) (h'.globals i)

/-- No global is added or taken away: the same indices have one. -/
theorem globals_size {s s' : IndexSpace} (h : s.Evolves s') :
    s'.globals.size = s.globals.size := by
  have hsome : ∀ i, i < s.globals.size ↔ i < s'.globals.size := by
    intro i
    rw [← isSome_getElem? s.globals i, ← isSome_getElem? s'.globals i,
      optionRel_isSome (h.globals i)]
  have hle := hsome s.globals.size
  have hge := hsome s'.globals.size
  omega

/-- Every global keeps its type. -/
theorem globalTypes {s s' : IndexSpace} (h : s.Evolves s') :
    s'.globals.map Global.type = s.globals.map Global.type := by
  apply Array.ext_getElem?
  intro k
  rw [Array.getElem?_map, Array.getElem?_map]
  exact optionRel_map (fun hg => hg.type) (h.globals k)

/-- A global that is not mutable stays as it is, with its cell. -/
theorem immutable {s s' : IndexSpace} {k : Nat} {g : Global} (h : s.Evolves s')
    (hg : s.globals[k]? = some g) (hmutable : g.type.mutable = false) :
    s'.globals[k]? = some g := by
  have hk := h.globals k
  rw [hg] at hk
  cases hg' : s'.globals[k]? with
  | none =>
    rw [hg'] at hk
    contradiction
  | some g' =>
    rw [hg'] at hk
    cases hk with
    | some hevolves =>
      obtain ⟨type', cell'⟩ := g'
      obtain rfl : type' = g.type := hevolves.type
      obtain rfl : cell' = g.cell := hevolves.cell hmutable
      rfl

end IndexSpace.Evolves

/-! ## Memories -/

/-- A byte that is put past the end is lost, so the size stays in any case. -/
theorem size_putByte (data : ByteArray) (i : Nat) (b : UInt8) :
    (putByte data i b).size = data.size := by
  unfold putByte
  split
  · exact Array.size_set _
  · rfl

theorem size_putBytes (data : ByteArray) (i : Nat) (bs : List UInt8) :
    (putBytes data i bs).size = data.size := by
  induction bs generalizing data i with
  | nil => rfl
  | cons b bs ih => rw [putBytes, ih, size_putByte]

/-- Pages are only ever added. -/
theorem size_le_addPages (data : ByteArray) (n : Nat) : data.size ≤ (addPages data n).size := by
  induction n generalizing data with
  | zero => exact Nat.le_refl _
  | succ n ih =>
    refine Nat.le_trans ?_ (ih (data ++ zeroPage))
    rw [ByteArray.size_append]
    exact Nat.le_add_right _ _

namespace Memory

/-- A write stays inside the memory. -/
theorem evolves_write (m : Memory) (address : Nat) (bytes : List UInt8) :
    m.Evolves (m.write address bytes) :=
  ⟨rfl, Nat.le_of_eq (size_putBytes m.data address bytes).symm⟩

/-- So does one that is checked first. -/
theorem evolves_of_write? {m m' : Memory} (h : m.write? address bytes = some m') :
    m.Evolves m' := by
  unfold write? at h
  split at h
  · cases h
    exact m.evolves_write address bytes
  · contradiction

/-- Growth that is refused leaves the memory as it is. -/
theorem evolves_grow (m : Memory) (delta : Nat) : m.Evolves ((m.grow? delta).getD m) := by
  unfold grow?
  split
  · exact ⟨rfl, size_le_addPages m.data _⟩
  · exact .refl m

/-- Of the writes of a host function, those that do not fit are left out. -/
theorem evolves_writeAll (m : Memory) (writes : List (Nat × List UInt8)) :
    m.Evolves (m.writeAll writes) := by
  induction writes generalizing m with
  | nil => exact .refl m
  | cons w writes ih =>
    have hfirst : m.Evolves ((m.write? w.1 w.2).getD m) := by
      cases hwrite : m.write? w.1 w.2 with
      | none => exact .refl m
      | some m' => exact evolves_of_write? hwrite
    exact hfirst.trans (ih _)

end Memory

namespace IndexSpace

/-- What keeps the limits of the memory and all its bytes in place keeps the index space in shape.
-/
theorem evolves_mapMemory {f : Memory → Memory} (hf : ∀ m : Memory, m.Evolves (f m))
    (s : IndexSpace) :
    s.Evolves (s.mapMemory f) := by
  obtain ⟨funcs, table, memory, globals⟩ := s
  cases memory with
  | none => exact .refl _
  | some m => exact { Evolves.refl _ with memory := .some (hf m) }

/-- Only the cell of a mutable global is ever replaced. -/
theorem evolves_setGlobal {s : IndexSpace} (h : s.globals[i]? = some g) (hg : g.type.mutable)
    (c : UInt64) : s.Evolves (s.setGlobal i c) := by
  refine { Evolves.refl s with globals := fun j => ?_ }
  simp only [setGlobal, Array.getElem?_modify]
  split
  · next heq =>
    subst heq
    rw [h]
    exact .some ⟨rfl, fun himmutable => by simp [hg] at himmutable⟩
  · exact optionRel_refl Global.Evolves.refl _

end IndexSpace

/-! ## Effects -/

/-- The state that a result leaves behind. -/
def finalState : EStateM.Result ε σ α → σ
  | .ok _ s => s
  | .error _ s => s

/-- The effect leads from a state only to states that are related to it. -/
def Respects (R : σ → σ → Prop) (x : EStateM ε σ α) : Prop :=
  ∀ s, R s (finalState (x s))

namespace Respects

variable {R : σ → σ → Prop}

/-- The relation holds of the state after an effect that succeeds. -/
theorem of_ok {x : EStateM ε σ α} (hx : Respects R x) (h : x s = .ok a s') : R s s' := by
  have hs := hx s
  rwa [h] at hs

/-- It holds as well of the state after one that fails. -/
theorem of_error {x : EStateM ε σ α} (hx : Respects R x) (h : x s = .error e s') : R s s' := by
  have hs := hx s
  rwa [h] at hs

theorem pure (hR : ∀ s, R s s) (a : α) : Respects R (Pure.pure a : EStateM ε σ α) := hR

theorem throw (hR : ∀ s, R s s) (e : ε) :
    Respects R (MonadExcept.throw e : EStateM ε σ α) := hR

/-- A relation that can be chained is respected by a sequence if both parts respect it. -/
theorem bind {x : EStateM ε σ α} {f : α → EStateM ε σ β}
    (hR : ∀ {a b c}, R a b → R b c → R a c) (hx : Respects R x) (hf : ∀ a, Respects R (f a)) :
    Respects R (x >>= f) := by
  intro s
  simp only [Bind.bind, EStateM.bind]
  cases hs : x s with
  | ok a s' => exact hR (hx.of_ok hs) (hf a s')
  | error e s' => exact hx.of_error hs

/-- Reading the state changes nothing. -/
theorem get_bind {f : σ → EStateM ε σ β} (hf : ∀ a, Respects R (f a)) :
    Respects R (get >>= f) :=
  fun s => hf s s

end Respects

/-! ## The operand stack -/

/-- What operations can make of a stack: its limit stays, and a stack within its limit stays there.
-/
structure Stack.Evolves (s s' : Stack) : Prop where
  limit : s'.limit = s.limit
  within : s.size ≤ s.limit → s'.size ≤ s'.limit

namespace Stack

theorem Evolves.refl (s : Stack) : s.Evolves s := ⟨rfl, id⟩

theorem Evolves.trans {s s' s'' : Stack} (h : s.Evolves s') (h' : s'.Evolves s'') :
    s.Evolves s'' :=
  ⟨h'.limit.trans h.limit, fun hs => h'.within (h.within hs)⟩

/-- A stack that gets no higher evolves. -/
theorem Evolves.of_size_le {s s' : Stack} (hlimit : s'.limit = s.limit) (hsize : s'.size ≤ s.size) :
    s.Evolves s' :=
  ⟨hlimit, fun hs => hlimit ▸ Nat.le_trans hsize hs⟩

/-- A full stack refuses the cell, so that the limit is never passed. -/
theorem evolves_push (c : UInt64) : Respects Evolves (push c) := by
  intro s
  unfold push
  split
  · exact .refl s
  · next hlimit =>
    refine ⟨rfl, fun _ => ?_⟩
    simp only [finalState, size, Array.size_push]
    omega

theorem evolves_pop : Respects Evolves pop := by
  intro s
  unfold pop
  split
  · exact .of_size_le rfl (by simp [finalState, size])
  · exact .refl s

theorem evolves_peek : Respects Evolves peek := by
  intro s
  unfold peek
  split <;> exact .refl s

/-- Taking cells makes the stack lower, or it fails. -/
theorem evolves_popMany (n : Nat) : Respects Evolves (popMany n) := by
  intro s
  unfold popMany
  split
  · exact .refl s
  · exact .of_size_le rfl (by simp [finalState, size])

/-- The cells that are kept and those below them are no more than there were. -/
theorem evolves_unwind (height arity : Nat) : Respects Evolves (unwind height arity) := by
  intro s
  unfold unwind
  split
  · exact .refl s
  · refine .of_size_le rfl ?_
    simp only [finalState, size, Array.size_append, Array.size_shrink, Array.size_extract]
    omega

/-- Cells are pushed one by one, each of them within the limit. -/
theorem evolves_pushAll (cs : List UInt64) : Respects Evolves (pushAll cs) := by
  induction cs with
  | nil => exact .refl
  | cons c cs ih => exact .bind Evolves.trans (evolves_push c) fun _ => ih

end Stack

/-! ## Locals -/

/-- No operation on locals changes their number. -/
def Locals.SameSize (l l' : Locals) : Prop := l'.size = l.size

/-- Reading a local leaves all of them. -/
theorem Locals.sameSize_get (index : UInt32) : Respects SameSize (get index) := by
  intro l
  unfold get
  split <;> rfl

/-- A local is replaced in place, or there is none with that index. -/
theorem Locals.sameSize_set (index : UInt32) (c : UInt64) : Respects SameSize (set index c) := by
  intro l
  unfold set
  split
  · exact Array.size_setIfInBounds
  · rfl

/-! ## Plain instructions -/

/-- What execution can make of an index space and of the stack beside it. -/
structure Evolves (space : IndexSpace) (stack : Stack) (space' : IndexSpace) (stack' : Stack) :
    Prop where
  space : space.Evolves space'
  stack : stack.Evolves stack'

theorem Evolves.refl (space : IndexSpace) (stack : Stack) : Evolves space stack space stack :=
  ⟨.refl space, .refl stack⟩

/-- Spaces and stacks are compared separately. -/
theorem Evolves.trans {a b c : IndexSpace} {s t u : Stack} (h : Evolves a s b t)
    (h' : Evolves b t c u) : Evolves a s c u :=
  ⟨h.space.trans h'.space, h.stack.trans h'.stack⟩

/-- What plain instructions can make of what they reach. -/
structure Scope.Evolves (s s' : Scope) : Prop where
  shared : Wasm.Evolves s.space s.stack s'.space s'.stack
  locals : s.locals.SameSize s'.locals

theorem Scope.Evolves.refl (s : Scope) : s.Evolves s := ⟨.refl _ _, rfl⟩

theorem Scope.Evolves.trans {s s' s'' : Scope} (h : s.Evolves s') (h' : s'.Evolves s'') :
    s.Evolves s'' :=
  ⟨h.shared.trans h'.shared, h'.locals.trans h.locals⟩

namespace Exec

theorem evolves_pure (a : α) : Respects Scope.Evolves (pure a : Exec α) :=
  .pure Scope.Evolves.refl a

theorem evolves_throw (t : Trap) : Respects Scope.Evolves (throw t : Exec α) :=
  .throw Scope.Evolves.refl t

/-- Sequences of plain instructions keep the shape if both parts do. -/
theorem evolves_bind {x : Exec α} {f : α → Exec β} (hx : Respects Scope.Evolves x)
    (hf : ∀ a, Respects Scope.Evolves (f a)) : Respects Scope.Evolves (x >>= f) :=
  .bind Scope.Evolves.trans hx hf

/-- Whatever is done to the stack alone leaves the index space and the locals. -/
theorem evolves_onStack {x : StackM α} (hx : Respects Stack.Evolves x) :
    Respects Scope.Evolves (onStack x) := by
  intro s
  simp only [onStack]
  cases hs : x s.stack with
  | ok a stack => exact ⟨⟨.refl _, hx.of_ok hs⟩, rfl⟩
  | error t stack => exact ⟨⟨.refl _, hx.of_error hs⟩, rfl⟩

theorem evolves_push (c : UInt64) : Respects Scope.Evolves (push c) :=
  evolves_onStack (Stack.evolves_push c)

theorem evolves_pop : Respects Scope.Evolves pop :=
  evolves_onStack Stack.evolves_pop

theorem evolves_pop32 : Respects Scope.Evolves pop32 :=
  evolves_bind evolves_pop fun _ => evolves_pure _

/-- Whatever is done to the locals alone leaves the index space and the stack. -/
theorem evolves_onLocals {x : LocalsM α} (hx : Respects Locals.SameSize x) :
    Respects Scope.Evolves (onLocals x) := by
  intro s
  simp only [onLocals]
  cases hs : x s.locals with
  | ok a locals => exact ⟨.refl _ _, hx.of_ok hs⟩
  | error t locals => exact ⟨.refl _ _, hx.of_error hs⟩

theorem evolves_getGlobal (index : UInt32) : Respects Scope.Evolves (getGlobal index) := by
  intro s
  unfold getGlobal
  split <;> exact .refl s

/-- The instruction checks that the global is mutable before it replaces the cell. -/
theorem evolves_setGlobal (index : UInt32) (c : UInt64) :
    Respects Scope.Evolves (setGlobal index c) := by
  intro s
  unfold setGlobal
  split
  · exact .refl s
  · next g hg =>
    split
    · next hmutable => exact ⟨⟨IndexSpace.evolves_setGlobal hg hmutable c, .refl _⟩, rfl⟩
    · exact .refl s

/-- Looking at the memory does not change it. -/
theorem evolves_readMemory (f : Memory → Except Trap α) :
    Respects Scope.Evolves (readMemory f) := by
  intro s
  unfold readMemory
  split
  · exact .refl s
  · split <;> exact .refl s

/-- A store that is out of bounds traps before it writes. -/
theorem evolves_writeMemory (address offset : UInt32) (bytes : List UInt8) :
    Respects Scope.Evolves (writeMemory address offset bytes) := by
  intro s
  simp only [writeMemory]
  split
  · exact .refl s
  · exact .refl s
  · exact ⟨⟨IndexSpace.evolves_mapMemory (fun m => m.evolves_write _ bytes) s.space, .refl _⟩, rfl⟩

theorem evolves_growMemory (delta : Nat) : Respects Scope.Evolves (growMemory delta) :=
  fun s => ⟨⟨IndexSpace.evolves_mapMemory (fun m => m.evolves_grow delta) s.space, .refl _⟩, rfl⟩

/-- Growth that is refused is answered on the stack; the memory stays. -/
theorem evolves_memoryGrow : Respects Scope.Evolves memoryGrow := by
  refine evolves_bind evolves_pop32 fun delta => evolves_bind (evolves_readMemory _) fun pages => ?_
  cases pages with
  | none => exact evolves_push _
  | some pages => exact evolves_bind (evolves_growMemory _) fun _ => evolves_push _

theorem evolves_ofExcept (x : Except Trap α) : Respects Scope.Evolves (ofExcept x) := by
  intro s
  unfold ofExcept
  split <;> exact .refl s

/-- Numbers are computed on the stack alone. -/
theorem evolves_numeric (op : NumericOp) : Respects Scope.Evolves (numeric op) := by
  cases op with
  | unary op =>
    exact evolves_bind evolves_pop fun _ => evolves_bind (evolves_ofExcept _) fun _ =>
      evolves_push _
  | binary op =>
    exact evolves_bind evolves_pop fun _ => evolves_bind evolves_pop fun _ =>
      evolves_bind (evolves_ofExcept _) fun _ => evolves_push _

/-- A function is looked up by its slot in the table, which is only read. -/
theorem evolves_indirect (types : Array FuncType) (type : UInt32) (table : UInt8) :
    Respects Scope.Evolves (indirect types type table) := by
  refine evolves_bind evolves_pop32 fun element => .get_bind fun s => ?_
  dsimp only
  split
  · exact evolves_throw _
  · split
    · exact evolves_throw _
    · split
      · exact evolves_throw _
      · split
        · exact evolves_throw _
        · split
          · exact evolves_pure _
          · exact evolves_throw _

end Exec

open Exec in
/-- Every plain instruction keeps the shape of what it reaches, whether it traps or not. -/
theorem PlainInstr.evolves_exec (op : PlainInstr) : Respects Scope.Evolves op.exec := by
  cases op with
  | unreachable => exact evolves_throw _
  | nop => exact evolves_pure ()
  | drop => exact evolves_bind evolves_pop fun _ => evolves_pure ()
  | select =>
    exact evolves_bind evolves_pop32 fun _ => evolves_bind evolves_pop fun _ =>
      evolves_bind evolves_pop fun _ => evolves_push _
  | localGet index =>
    exact evolves_bind (evolves_onLocals (Locals.sameSize_get index)) fun _ => evolves_push _
  | localSet index =>
    exact evolves_bind evolves_pop fun _ => evolves_onLocals (Locals.sameSize_set index _)
  | localTee index =>
    exact evolves_bind (evolves_onStack Stack.evolves_peek) fun _ =>
      evolves_onLocals (Locals.sameSize_set index _)
  | globalGet index => exact evolves_bind (evolves_getGlobal index) fun _ => evolves_push _
  | globalSet index => exact evolves_bind evolves_pop fun _ => evolves_setGlobal index _
  | load op offset =>
    exact evolves_bind evolves_pop32 fun _ => evolves_bind (evolves_readMemory _) fun _ =>
      evolves_push _
  | store op offset =>
    exact evolves_bind evolves_pop fun _ => evolves_bind evolves_pop32 fun _ =>
      evolves_writeMemory _ _ _
  | memorySize => exact evolves_bind (evolves_readMemory _) fun _ => evolves_push _
  | memoryGrow => exact evolves_memoryGrow
  | const v => exact evolves_push _
  | numeric op => exact evolves_numeric op

/-! ## Control instructions -/

/-- What instructions can make of an activation: its frame keeps its code, its base and the number
of its locals. -/
structure Activation.Evolves (a a' : Activation) : Prop where
  shared : Wasm.Evolves a.space a.stack a'.space a'.stack
  code : a'.frame.code = a.frame.code
  base : a'.frame.base = a.frame.base
  locals : a.frame.locals.SameSize a'.frame.locals

theorem Activation.Evolves.refl (a : Activation) : a.Evolves a := ⟨.refl _ _, rfl, rfl, rfl⟩

theorem Activation.Evolves.trans {a b c : Activation} (h : a.Evolves b) (h' : b.Evolves c) :
    a.Evolves c :=
  ⟨h.shared.trans h'.shared, h'.code.trans h.code, h'.base.trans h.base, h'.locals.trans h.locals⟩

namespace Control

theorem evolves_pure (b : α) : Respects Activation.Evolves (pure b : Control α) :=
  .pure Activation.Evolves.refl b

theorem evolves_throw (t : Trap) : Respects Activation.Evolves (throw t : Control α) :=
  .throw Activation.Evolves.refl t

theorem evolves_bind {x : Control α} {f : α → Control β} (hx : Respects Activation.Evolves x)
    (hf : ∀ b, Respects Activation.Evolves (f b)) : Respects Activation.Evolves (x >>= f) :=
  .bind Activation.Evolves.trans hx hf

theorem evolves_onStack {x : StackM α} (hx : Respects Stack.Evolves x) :
    Respects Activation.Evolves (onStack x) := by
  intro a
  simp only [onStack]
  cases hs : x a.stack with
  | ok b stack => exact ⟨⟨.refl _, hx.of_ok hs⟩, rfl, rfl, rfl⟩
  | error t stack => exact ⟨⟨.refl _, hx.of_error hs⟩, rfl, rfl, rfl⟩

/-- Plain instructions do not reach the code of the frame and its base. -/
theorem evolves_onScope {x : Exec α} (hx : Respects Scope.Evolves x) :
    Respects Activation.Evolves (onScope x) := by
  intro a
  simp only [onScope]
  cases hs : x ⟨a.space, a.stack, a.frame.locals⟩ with
  | ok b s =>
    have hscope := hx.of_ok hs
    exact ⟨hscope.shared, rfl, rfl, hscope.locals⟩
  | error t s =>
    have hscope := hx.of_error hs
    exact ⟨hscope.shared, rfl, rfl, hscope.locals⟩

/-- Moving about in a frame leaves everything else. -/
theorem evolves_modifyFrame {g : Frame → Frame}
    (hg : ∀ f, (g f).code = f.code ∧ (g f).base = f.base ∧ (g f).locals = f.locals) :
    Respects Activation.Evolves (modifyFrame g) := by
  intro a
  obtain ⟨hcode, hbase, hlocals⟩ := hg a.frame
  exact ⟨.refl _ _, hcode, hbase, congrArg Array.size hlocals⟩

/-- Reading an instruction moves the position and nothing else. -/
theorem evolves_fetch : Respects Activation.Evolves fetch := by
  intro a
  simp only [fetch, Frame.fetch, Frame.read]
  cases Instr.read.runAt a.frame.code.body a.frame.pc <;> exact ⟨.refl _ _, rfl, rfl, rfl⟩

theorem evolves_pop32 : Respects Activation.Evolves pop32 :=
  evolves_bind (evolves_onStack Stack.evolves_pop) fun _ => evolves_pure _

/-- A branch unwinds the stack and moves to the continuation of its label. -/
theorem evolves_branch (depth : UInt32) : Respects Activation.Evolves (branch depth) := by
  refine .get_bind fun a => ?_
  dsimp only
  split
  · exact evolves_bind (evolves_onStack (Stack.evolves_unwind _ _)) fun _ =>
      evolves_bind (evolves_modifyFrame fun _ => ⟨rfl, rfl, rfl⟩) fun _ => evolves_pure _
  · split
    · exact evolves_pure _
    · exact evolves_throw _

/-- Entering a block adds a label, or skips the block. -/
theorem evolves_enterBlock (b : Block) (taken : Bool) :
    Respects Activation.Evolves (enterBlock b taken) := by
  refine .get_bind fun a => ?_
  dsimp only
  split
  · exact evolves_throw _
  · exact evolves_bind (evolves_modifyFrame fun _ => ⟨rfl, rfl, rfl⟩) fun _ => evolves_pure _

theorem evolves_openBlock (start : Nat) (kind : BlockKind) :
    Respects Activation.Evolves (openBlock start kind) := by
  refine .get_bind fun a => ?_
  split
  · exact evolves_throw _
  · cases kind with
    | block | loop => exact evolves_enterBlock _ _
    | cond => exact evolves_bind evolves_pop32 fun _ => evolves_enterBlock _ _

/-- Leaving a block takes a label away. -/
theorem evolves_closeBlock : Respects Activation.Evolves closeBlock := by
  refine .get_bind fun a => ?_
  split
  · exact evolves_bind (evolves_modifyFrame fun _ => ⟨rfl, rfl, rfl⟩) fun _ => evolves_pure _
  · exact evolves_pure _

end Control

open Control in
/-- Every instruction keeps the shape of what its frame reaches. -/
theorem Instr.evolves_exec (instr : Instr) (start : Nat) :
    Respects Activation.Evolves (instr.exec start) := by
  cases instr with
  | plain op => exact evolves_bind (evolves_onScope op.evolves_exec) fun _ => evolves_pure _
  | opener kind => exact evolves_openBlock start kind
  | elseArm => exact evolves_branch 0
  | blockEnd => exact evolves_closeBlock
  | br depth => exact evolves_branch depth
  | brIf depth =>
    refine evolves_bind evolves_pop32 fun c => ?_
    split
    · exact evolves_branch depth
    · exact evolves_pure _
  | brTable depths last => exact evolves_bind evolves_pop32 fun _ => evolves_branch _
  | ret => exact evolves_pure _
  | call func => exact evolves_pure _
  | callIndirect type table =>
    exact .get_bind fun a =>
      evolves_bind (evolves_onScope (Exec.evolves_indirect _ type table)) fun _ => evolves_pure _
  | illegal opcode => exact evolves_throw _

/-- So does a step of the frame, which reads an instruction and carries it out. -/
theorem Control.evolves_step : Respects Activation.Evolves Control.step :=
  .get_bind fun _ => evolves_bind evolves_fetch fun instr => instr.evolves_exec _

/-! ## Calls -/

/-- What calls can make of what the frames share. -/
def Store.Evolves (s s' : Store) : Prop := Wasm.Evolves s.space s.stack s'.space s'.stack

namespace Store

theorem evolves_pure (a : α) : Respects Store.Evolves (pure a : StoreM α) :=
  .pure (fun s => Evolves.refl s.space s.stack) a

theorem evolves_throw (t : Trap) : Respects Store.Evolves (throw t : StoreM α) :=
  .throw (fun s => Evolves.refl s.space s.stack) t

theorem evolves_bind {x : StoreM α} {f : α → StoreM β} (hx : Respects Store.Evolves x)
    (hf : ∀ a, Respects Store.Evolves (f a)) : Respects Store.Evolves (x >>= f) :=
  .bind Evolves.trans hx hf

/-- Whatever is done to the stack alone leaves the index space. -/
theorem evolves_onStack {x : StackM α} (hx : Respects Stack.Evolves x) :
    Respects Store.Evolves (onStack x) := by
  intro s
  simp only [onStack]
  cases hs : x s.stack with
  | ok a stack => exact ⟨.refl _, hx.of_ok hs⟩
  | error t stack => exact ⟨.refl _, hx.of_error hs⟩

/-- A host function changes memory by its writes and cannot do more. -/
theorem evolves_runHost (f : HostFunc) (args : List Value) :
    Respects Store.Evolves (runHost f args) := by
  intro s
  simp only [runHost]
  split <;> exact ⟨IndexSpace.evolves_mapMemory (fun m => m.evolves_writeAll _) s.space, .refl _⟩

/-- Arguments are taken from the stack, and results are pushed within the limit. -/
theorem evolves_callHost (f : HostFunc) : Respects Store.Evolves (callHost f) :=
  evolves_bind (evolves_onStack (Stack.evolves_popMany _)) fun _ =>
    evolves_bind (evolves_runHost f _) fun _ => evolves_onStack (Stack.evolves_pushAll _)

/-- Entering code takes its arguments from the stack. -/
theorem evolves_enter (config : EngineConfig) (c : Code) :
    Respects Store.Evolves (enter config c) := by
  refine evolves_bind (evolves_onStack (Stack.evolves_popMany _)) fun args => ?_
  split
  · exact evolves_throw _
  · exact .get_bind fun s => evolves_pure _

end Store

namespace Machine

/-- What all frames share, in the state that an outcome is in. -/
def Outcome.store : Outcome → Store
  | .running m => m.store
  | .returned s => s
  | .trapped _ s => s

/-- Returning from a frame unwinds the stack. -/
theorem Exit.evolves {m : Machine} (h : Exit m o) : m.store.Evolves o.store := by
  cases h with
  | failed => exact Evolves.refl _ _
  | finished h => exact ⟨.refl _, (Stack.evolves_unwind _ _).of_ok h⟩
  | back h => exact ⟨.refl _, (Stack.evolves_unwind _ _).of_ok h⟩

/-- A call enters a frame or runs a host function. -/
theorem Entry.evolves {m : Machine} (h : Entry config index m o) : m.store.Evolves o.store := by
  cases h with
  | missing => exact Evolves.refl _ _
  | hostFailed hf h => exact (Store.evolves_callHost _).of_error h
  | host hf h => exact (Store.evolves_callHost _).of_ok h
  | tooDeep => exact Evolves.refl _ _
  | failed hf h => exact (Store.evolves_enter _ _).of_error h
  | entered hf h => exact (Store.evolves_enter _ _).of_ok h

/-- A step of the machine, in each of its cases: inside the frame, into a call, or out of one. -/
theorem Transition.evolves {m : Machine} (h : Transition config m o) :
    m.store.Evolves o.store := by
  cases h with
  | unpaid => exact Evolves.refl _ _
  | trapped fuel h => exact (Control.evolves_step.of_error h).shared
  | next fuel h => exact (Control.evolves_step.of_ok h).shared
  | ret fuel h hexit => exact (Control.evolves_step.of_ok h).shared.trans hexit.evolves
  | call fuel h hentry => exact (Control.evolves_step.of_ok h).shared.trans hentry.evolves

/-- Any number of steps, by induction from a single one. -/
theorem evolves_run (config : EngineConfig) (n : Nat) (m : Machine) :
    m.store.Evolves (m.run config n).store :=
  run_induction (P := fun o => m.store.Evolves o.store) (fun _ _ hm h => hm.trans h.evolves)
    (Evolves.refl _ _) n

end Machine

/-- Arguments are only loaded if there is room for them. -/
theorem Instance.Loads.evolves {i : Instance} (h : i.Loads args) :
    i.stack.Evolves (i.loaded args).stack :=
  (Stack.evolves_pushAll _).of_ok h

/-- The execution of a function leads only to where the instance can evolve, also when it traps. -/
theorem Instance.Execution.evolves {i : Instance} (h : i.Execution steps index args o) :
    Evolves i.space i.stack o.store.space o.store.stack := by
  cases h with
  | overflow stack h => exact ⟨.refl _, (Stack.evolves_pushAll _).of_error h⟩
  | missing _ hload => exact ⟨.refl _, hload.evolves⟩
  | hostFailed _ h hload =>
    have hcall := (Store.evolves_callHost _).of_error h
    exact ⟨hcall.space, hload.evolves.trans hcall.stack⟩
  | host _ h hload =>
    have hcall := (Store.evolves_callHost _).of_ok h
    exact ⟨hcall.space, hload.evolves.trans hcall.stack⟩
  | failed _ h hload =>
    have henter := (Store.evolves_enter _ _).of_error h
    exact ⟨henter.space, hload.evolves.trans henter.stack⟩
  | @entered c f s _ _ h ho hload =>
    have henter := (Store.evolves_enter _ _).of_ok h
    have hrun := Machine.evolves_run i.config steps ⟨s, f, #[]⟩
    rw [ho] at hrun
    exact Evolves.trans ⟨henter.space, hload.evolves.trans henter.stack⟩ hrun

end Wasm
