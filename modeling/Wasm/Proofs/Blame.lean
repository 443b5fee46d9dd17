import Wasm.Proofs.Control

/-!
# Wasm.Proofs.Blame

Which instructions trap with the body to blame, as malformed or for an illegal opcode.

* `PlainInstr.blameless_exec`, `Exec.blameless_indirect`: no plain instruction and no indirect call
  does.
* `Instr.Spells.blame`: of the instructions outside the block structure, a branch past the outermost
  block does, and a byte that is no opcode.
-/

namespace Wasm

/-- The trap blames the body. -/
def Trap.BlamesBody : Trap → Prop
  | .malformed _ => True
  | .illegalOpcode _ _ => True
  | _ => False

/-- Something that does not trap with the body to blame. -/
def Blameless (x : EStateM Trap σ α) : Prop :=
  ∀ s t s', x s = .error t s' → ¬ t.BlamesBody

namespace Blameless

theorem pure (a : α) : Blameless (Pure.pure a : EStateM Trap σ α) := nofun

theorem get : Blameless (MonadState.get : EStateM Trap σ σ) := nofun

/-- A trap that is no fault of the body may be raised. -/
theorem throw (h : ¬ t.BlamesBody) : Blameless (MonadExcept.throw t : EStateM Trap σ α) := by
  intro s t' s' ht
  injection ht with ht
  exact ht ▸ h

/-- In a sequence each part answers for itself. -/
theorem bind {x : EStateM Trap σ α} {f : α → EStateM Trap σ β} (hx : Blameless x)
    (hf : ∀ a, Blameless (f a)) : Blameless (x >>= f) := by
  intro s t s' h
  obtain h | ⟨a, s₁, -, h⟩ := bind_eq_error.mp h
  · exact hx s t s' h
  · exact hf a s₁ t s' h

end Blameless

/-! ## Operands, locals and globals -/

/-- The stack overflows for want of room, which the body does not decide. -/
theorem Stack.blameless_push (c : UInt64) : Blameless (Stack.push c) := by
  intro s t s' h
  unfold Stack.push at h
  split at h
  · cases h
    exact id
  · contradiction

/-- Too few operands are not held against the bytes of the body. -/
theorem Stack.blameless_pop : Blameless Stack.pop := by
  intro s t s' h
  unfold Stack.pop at h
  split at h
  · contradiction
  · cases h
    exact id

theorem Stack.blameless_peek : Blameless Stack.peek := by
  intro s t s' h
  unfold Stack.peek at h
  split at h
  · contradiction
  · cases h
    exact id

theorem Stack.blameless_unwind (height arity : Nat) : Blameless (Stack.unwind height arity) := by
  intro s t s' h
  unfold Stack.unwind at h
  split at h
  · cases h
    exact id
  · contradiction

/-- An index without a local is a trap of its own. -/
theorem Locals.blameless_get (index : UInt32) : Blameless (Locals.get index) := by
  intro s t s' h
  unfold Locals.get at h
  split at h
  · contradiction
  · cases h
    exact id

theorem Locals.blameless_set (index : UInt32) (c : UInt64) : Blameless (Locals.set index c) := by
  intro s t s' h
  unfold Locals.set at h
  split at h
  · contradiction
  · cases h
    exact id

namespace Exec

/-- What happens on the stack alone is judged there. -/
theorem blameless_onStack {x : StackM α} (hx : Blameless x) : Blameless (onStack x) := by
  intro s t s' h
  simp only [onStack] at h
  split at h
  · contradiction
  · next ht =>
    cases h
    exact hx _ _ _ ht

/-- What happens in the locals alone is judged there. -/
theorem blameless_onLocals {x : LocalsM α} (hx : Blameless x) : Blameless (onLocals x) := by
  intro s t s' h
  simp only [onLocals] at h
  split at h
  · contradiction
  · next ht =>
    cases h
    exact hx _ _ _ ht

theorem blameless_push (c : UInt64) : Blameless (push c) :=
  blameless_onStack (Stack.blameless_push c)

theorem blameless_pop : Blameless pop :=
  blameless_onStack Stack.blameless_pop

theorem blameless_pop32 : Blameless pop32 :=
  blameless_pop.bind fun _ => .pure _

/-- An index without a global is a trap of its own. -/
theorem blameless_getGlobal (index : UInt32) : Blameless (getGlobal index) := by
  intro s t s' h
  unfold getGlobal at h
  split at h
  · contradiction
  · cases h
    exact id

/-- So is a global that may not be set. -/
theorem blameless_setGlobal (index : UInt32) (c : UInt64) : Blameless (setGlobal index c) := by
  intro s t s' h
  unfold setGlobal at h
  split at h
  · cases h
    exact id
  · split at h
    · contradiction
    · cases h
      exact id

/-! ## Memory and numbers -/

/-- Without a memory there is a trap of its own; otherwise the access decides. -/
theorem blameless_readMemory {f : Memory → Except Trap α}
    (hf : ∀ m t, f m = .error t → ¬ t.BlamesBody) : Blameless (readMemory f) := by
  intro s t s' h
  unfold readMemory at h
  split at h
  · cases h
    exact id
  · split at h
    · contradiction
    · next ht =>
      cases h
      exact hf _ _ ht

/-- A load can only be out of bounds. -/
theorem blameless_load (op : LoadOp) (offset : UInt32) : Blameless (load op offset) := by
  refine blameless_pop32.bind fun address =>
    (blameless_readMemory fun m t h => ?_).bind fun _ => blameless_push _
  simp only [Memory.load] at h
  split at h
  · contradiction
  · cases h
    exact id

/-- A store can only be out of bounds. -/
theorem blameless_writeMemory (address offset : UInt32) (bytes : List UInt8) :
    Blameless (writeMemory address offset bytes) := by
  intro s t s' h
  simp only [writeMemory] at h
  split at h
  · cases h
    exact id
  · cases h
    exact id
  · contradiction

/-- Growth that is refused is no trap at all. -/
theorem blameless_memoryGrow : Blameless memoryGrow := by
  refine blameless_pop32.bind fun delta =>
    (blameless_readMemory fun m t h => by contradiction).bind fun previous => ?_
  cases previous with
  | none => exact blameless_push _
  | some pages =>
    refine Blameless.bind (fun s t s' h => ?_) fun _ => blameless_push _
    unfold growMemory at h
    contradiction

theorem blameless_ofExcept {x : Except Trap α} (hx : ∀ t, x = .error t → ¬ t.BlamesBody) :
    Blameless (ofExcept x) := by
  intro s t s' h
  unfold ofExcept at h
  split at h
  · contradiction
  · cases h
    exact hx _ rfl

end Exec

/-- The trap is that of a numeric instruction. -/
def Trap.IsNumeric : Trap → Prop
  | .integerDivideByZero => True
  | .integerOverflow => True
  | .invalidConversionToInteger => True
  | _ => False

/-- Traps of numeric instructions are about operands, not about bytes. -/
theorem Trap.IsNumeric.not_blamesBody {t : Trap} (h : t.IsNumeric) : ¬ t.BlamesBody := by
  cases t <;> first | exact id | exact h.elim

/-- Integers trap on division by zero and on a quotient that does not fit. -/
theorem IntBinary.isNumeric (op : IntBinary) {a b : BitVec n} (h : op.eval a b = .error t) :
    t.IsNumeric := by
  cases op with
  | divS =>
    simp only [eval] at h
    split at h
    · cases h
      trivial
    · split at h
      · cases h
        trivial
      · contradiction
  | divU | remS | remU =>
    simp only [eval] at h
    split at h
    · cases h
      trivial
    · contradiction
  | _ => contradiction

/-- Truncation traps on a NaN and on a number out of range. -/
theorem FloatFormat.isNumeric_truncateBetween (fmt : FloatFormat)
    (h : fmt.truncateBetween low high x = .error t) : t.IsNumeric := by
  unfold truncateBetween at h
  split at h
  · cases h
    trivial
  · split at h
    · cases h
      trivial
    · contradiction

theorem FloatFormat.isNumeric (fmt : FloatFormat)
    (h : fmt.truncateTo target signed x = .error t) : t.IsNumeric := by
  unfold truncateTo at h
  split at h
  · split at h
    · contradiction
    · split at h
      · cases h
        trivial
      · cases h
        trivial
  · simp only [Bind.bind, Except.bind] at h
    split at h
    · next ht =>
      cases h
      exact fmt.isNumeric_truncateBetween ht
    · contradiction

theorem UnaryOp.isNumeric (op : UnaryOp) (h : op.eval a = .error t) : t.IsNumeric := by
  cases op with
  | eqz | int | float => contradiction
  | conversion op =>
    cases op with
    | truncate source target signed =>
      simp only [eval, Conversion.eval, Bind.bind, Except.bind] at h
      split at h
      · next ht =>
        cases h
        exact FloatFormat.binary64.isNumeric ht
      · contradiction
    | extend signed => cases signed <;> contradiction
    | _ => contradiction

theorem BinaryOp.isNumeric (op : BinaryOp) (h : op.eval a b = .error t) : t.IsNumeric := by
  cases op with
  | int w op =>
    simp only [eval, Bind.bind, Except.bind] at h
    split at h
    · next ht =>
      cases h
      exact op.isNumeric ht
    · contradiction
  | _ => contradiction

namespace Exec

/-- Whatever a numeric instruction computes, it does not blame the body. -/
theorem blameless_numeric (op : NumericOp) : Blameless (numeric op) := by
  cases op with
  | unary op =>
    exact blameless_pop.bind fun a =>
      (blameless_ofExcept fun t h => (op.isNumeric h).not_blamesBody).bind fun _ => blameless_push _
  | binary op =>
    exact blameless_pop.bind fun b => blameless_pop.bind fun a =>
      (blameless_ofExcept fun t h => (op.isNumeric h).not_blamesBody).bind fun _ => blameless_push _

/-- The table, the type and the function of an indirect call may be missing or unfit, and the body
is not to blame. -/
theorem blameless_indirect (types : Array FuncType) (type : UInt32) (table : UInt8) :
    Blameless (indirect types type table) := by
  refine blameless_pop32.bind fun element => Blameless.get.bind fun s => ?_
  dsimp only
  split
  · exact .throw id
  · next tbl _ =>
    split
    · next trap htrap =>
      refine .throw ?_
      unfold Table.get at htrap
      split at htrap
      · contradiction
      · cases htrap
        exact id
      · cases htrap
        exact id
    · split
      · exact .throw id
      · split
        · exact .throw id
        · split
          · exact .pure _
          · exact .throw id

end Exec

/-- Plain instructions do not blame the body. -/
theorem PlainInstr.blameless_exec (op : PlainInstr) : Blameless op.exec := by
  cases op with
  | unreachable => exact .throw id
  | nop => exact .pure ()
  | drop => exact Exec.blameless_pop.bind fun _ => .pure ()
  | select =>
    exact Exec.blameless_pop32.bind fun _ => Exec.blameless_pop.bind fun _ =>
      Exec.blameless_pop.bind fun _ => Exec.blameless_push _
  | localGet index =>
    exact (Exec.blameless_onLocals (Locals.blameless_get index)).bind fun _ => Exec.blameless_push _
  | localSet index =>
    exact Exec.blameless_pop.bind fun c => Exec.blameless_onLocals (Locals.blameless_set index c)
  | localTee index =>
    exact (Exec.blameless_onStack Stack.blameless_peek).bind fun c =>
      Exec.blameless_onLocals (Locals.blameless_set index c)
  | globalGet index => exact (Exec.blameless_getGlobal index).bind fun _ => Exec.blameless_push _
  | globalSet index => exact Exec.blameless_pop.bind fun c => Exec.blameless_setGlobal index c
  | load op offset => exact Exec.blameless_load op offset
  | store op offset =>
    exact Exec.blameless_pop.bind fun _ => Exec.blameless_pop32.bind fun _ =>
      Exec.blameless_writeMemory _ offset _
  | memorySize =>
    exact (Exec.blameless_readMemory fun m t h => by contradiction).bind fun _ =>
      Exec.blameless_push _
  | memoryGrow => exact Exec.blameless_memoryGrow
  | const v => exact Exec.blameless_push v.cell
  | numeric op => exact Exec.blameless_numeric op

/-! ## Control instructions -/

namespace Instr

open Control

/-- The depths to which an instruction may branch. -/
inductive BranchesTo : Instr → UInt32 → Prop where
  | br : BranchesTo (.br depth) depth
  | brIf : BranchesTo (.brIf depth) depth
  | entry (h : depth ∈ depths) : BranchesTo (.brTable depths last) depth
  | last : BranchesTo (.brTable depths last) last

/-- Whatever the index is, a branch table goes to one of its depths. -/
theorem branchesTo_getD (depths : Array UInt32) (last : UInt32) (index : Nat) :
    BranchesTo (.brTable depths last) ((depths[index]?).getD last) := by
  cases h : depths[index]? with
  | none => exact .last
  | some depth => exact .entry (Array.mem_of_getElem? h)

variable {space : IndexSpace} {stack : Stack} {f : Frame}

/-- A branch blames the body only if its depth lies past the labels, and then at its own position.
-/
theorem branch_blame (h : branch depth ⟨space, stack, f⟩ = .error t a) (ht : t.BlamesBody) :
    f.labels.length < depth.toNat ∧ t = .malformed f.pc := by
  cases hdrop : f.labels.drop depth.toNat with
  | nil =>
    have hle := List.drop_eq_nil_iff.mp hdrop
    rw [branch_no_label hle] at h
    split at h
    · contradiction
    · next hne =>
      cases h
      exact ⟨Nat.lt_of_le_of_ne hle (Ne.symm hne), rfl⟩
  | cons label outer =>
    rw [branch_label hdrop] at h
    split at h
    · contradiction
    · next hunwind =>
      cases h
      exact absurd ht (Stack.blameless_unwind _ _ _ _ _ hunwind)

/-- An instruction outside the block structure that blames the body branches past the outermost
block, or is none. -/
theorem Spells.blame (hs : Spells instr bs) (h : instr.exec start ⟨space, stack, f⟩ = .error t a)
    (ht : t.BlamesBody) :
    (∃ depth, instr.BranchesTo depth ∧ f.labels.length < depth.toNat ∧ t = .malformed f.pc) ∨
      ∃ opcode, instr = .illegal opcode ∧ t = .illegalOpcode opcode start := by
  cases instr with
  | plain op =>
    rw [exec_plain] at h
    split at h
    · contradiction
    · next hexec =>
      cases h
      exact absurd ht (op.blameless_exec _ _ _ hexec)
  | opener => nomatch hs
  | elseArm => nomatch hs
  | blockEnd => nomatch hs
  | br depth => exact .inl ⟨depth, .br, branch_blame h ht⟩
  | brIf depth =>
    rw [exec_brIf] at h
    split at h
    · split at h
      · exact .inl ⟨depth, .brIf, branch_blame h ht⟩
      · contradiction
    · next hpop =>
      cases h
      exact absurd ht (Stack.blameless_pop _ _ _ hpop)
  | brTable depths last =>
    rw [exec_brTable] at h
    split at h
    · exact .inl ⟨_, branchesTo_getD depths last _, branch_blame h ht⟩
    · next hpop =>
      cases h
      exact absurd ht (Stack.blameless_pop _ _ _ hpop)
  | ret => contradiction
  | call func => contradiction
  | callIndirect type table =>
    rw [exec_callIndirect] at h
    split at h
    · contradiction
    · next hexec =>
      cases h
      exact absurd ht (Exec.blameless_indirect _ _ _ _ _ _ hexec)
  | illegal opcode =>
    cases h
    exact .inr ⟨opcode, rfl, rfl⟩

end Instr

end Wasm
