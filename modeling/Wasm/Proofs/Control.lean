import Wasm.Frame
import Wasm.Proofs.Spelling

/-!
# Wasm.Proofs.Control

What one instruction does to the frame it stands in.

* `Control.step_of_read` splits a step into its reading and its execution.
* `Control.branch_label` and `Control.branch_no_label` say what a branch does, by the labels that
  there are; `Control.openBlock_eq` and `Control.closeBlock_eq` what an opener and an `end` do.
* `Instr.Spells.leadsTo`: an instruction outside the block structure returns, goes on to the next
  one, or branches.
* `Control.KeepsCode.step`: no instruction changes the code of its frame.
-/

namespace Wasm

/-! ## Sequences -/

/-- A sequence succeeds if both parts do. -/
theorem bind_eq_ok {x : EStateM ε σ α} {f : α → EStateM ε σ β} :
    (x >>= f) s = .ok b s' ↔ ∃ a s₁, x s = .ok a s₁ ∧ f a s₁ = .ok b s' := by
  simp only [Bind.bind, EStateM.bind]
  cases x s <;> simp [and_assoc]

/-- A sequence fails in its first part or in its second one. -/
theorem bind_eq_error {x : EStateM ε σ α} {f : α → EStateM ε σ β} :
    (x >>= f) s = .error e s' ↔
      x s = .error e s' ∨ ∃ a s₁, x s = .ok a s₁ ∧ f a s₁ = .error e s' := by
  simp only [Bind.bind, EStateM.bind]
  cases x s <;> simp [and_assoc]

/-- After a first part that succeeds, the second one goes on from its state. -/
theorem bind_of_ok {x : EStateM ε σ α} (f : α → EStateM ε σ β) (h : x s = .ok a s₁) :
    (x >>= f) s = f a s₁ := by
  simp only [Bind.bind, EStateM.bind, h]

theorem get_bind (f : σ → EStateM ε σ β) (s : σ) : (get >>= f) s = f s s := rfl

namespace Control

variable {space space' : IndexSpace} {stack stack' : Stack} {f f' : Frame}

/-! ## Reading -/

/-- A step carries out the instruction that is read at the position of the frame. -/
theorem step_of_read (h : Instr.read.runAt f.code.body f.pc = .ok instr pc) :
    Control.step ⟨space, stack, f⟩ = instr.exec f.pc ⟨space, stack, { f with pc }⟩ := by
  have hfetch : fetch ⟨space, stack, f⟩ = .ok instr ⟨space, stack, { f with pc }⟩ := by
    simp only [fetch, Frame.fetch, Frame.read, h]
  rw [step]
  exact bind_of_ok _ hfetch

/-- Bytes that cannot be read as an instruction end the frame where it stands. -/
theorem step_of_read_error (h : Instr.read.runAt f.code.body f.pc = .error e pc) :
    Control.step ⟨space, stack, f⟩ = .error e.trap ⟨space, stack, f⟩ := by
  have hfetch : fetch ⟨space, stack, f⟩ = .error e.trap ⟨space, stack, f⟩ := by
    simp only [fetch, Frame.fetch, Frame.read, h]
  rw [step, get_bind]
  exact bind_eq_error.mpr (.inl hfetch)

/-! ## Branches -/

/-- An operation on the stack, and what comes after it. -/
theorem onStack_bind (x : StackM α) (k : α → Control β) :
    (onStack x >>= k) ⟨space, stack, f⟩ = (match x stack with
      | .ok a stack => k a ⟨space, stack, f⟩
      | .error t stack => .error t ⟨space, stack, f⟩) := by
  simp only [Bind.bind, EStateM.bind, onStack]
  cases x stack <;> rfl

/-- A branch unwinds to its label. -/
theorem branch_label (h : f.labels.drop depth.toNat = label :: outer) :
    branch depth ⟨space, stack, f⟩ = (match Stack.unwind label.height label.arity stack with
      | .ok _ stack =>
        .ok .next ⟨space, stack, { f with pc := label.continuation, labels := outer }⟩
      | .error t stack => .error t ⟨space, stack, f⟩) := by
  rw [branch, get_bind]
  simp only [h]
  rw [onStack_bind]
  cases Stack.unwind label.height label.arity stack <;> rfl

/-- One level past the outermost block is the function; farther out there is nothing. -/
theorem branch_no_label (h : f.labels.length ≤ depth.toNat) :
    branch depth ⟨space, stack, f⟩ =
      if depth.toNat = f.labels.length then .ok .ret ⟨space, stack, f⟩
      else .error (.malformed f.pc) ⟨space, stack, f⟩ := by
  rw [branch, get_bind]
  simp only [List.drop_eq_nil_of_le h]
  split <;> rfl

/-! ## Openers and `end` -/

/-- Entering a block takes its parameters for granted, so it fails if they are not on the stack. -/
theorem enterBlock_eq (b : Block) (taken : Bool) :
    enterBlock b taken ⟨space, stack, f⟩ =
      if stack.size < b.arity.params then .error .stackUnderflow ⟨space, stack, f⟩
      else .ok .next ⟨space, stack,
        { f with
          pc := entry b taken
          labels := labelOf b (stack.size - b.arity.params) :: f.labels }⟩ := by
  rw [enterBlock, get_bind]
  split <;> rfl

/-- The low half of the top operand, and what comes after it. -/
theorem pop32_bind (k : UInt32 → Control β) :
    (pop32 >>= k) ⟨space, stack, f⟩ = (match Stack.pop stack with
      | .ok c stack => k c.toUInt32 ⟨space, stack, f⟩
      | .error t stack => .error t ⟨space, stack, f⟩) := by
  rw [pop32, bind_assoc, onStack_bind]
  cases Stack.pop stack <;> rfl

/-- An opener enters its block; one with a condition takes it from the stack first. -/
theorem openBlock_eq (h : f.code.blocks[start]? = some b) (kind : BlockKind) :
    openBlock start kind ⟨space, stack, f⟩ = (match kind with
      | .block | .loop => enterBlock b true ⟨space, stack, f⟩
      | .cond => (match Stack.pop stack with
        | .ok c stack => enterBlock b (c.toUInt32 ≠ 0) ⟨space, stack, f⟩
        | .error t stack => .error t ⟨space, stack, f⟩)) := by
  rw [openBlock, get_bind]
  simp only [h]
  cases kind with
  | block | loop => rfl
  | cond => exact pop32_bind _

/-- An `end` closes the innermost block, or, outside all of them, returns from the frame. -/
theorem closeBlock_eq :
    closeBlock ⟨space, stack, f⟩ = (match f.labels with
      | _ :: outer => .ok .next ⟨space, stack, { f with labels := outer }⟩
      | [] => .ok .ret ⟨space, stack, f⟩) := by
  rw [closeBlock, get_bind]
  cases f.labels <;> rfl

/-! ## Other instructions -/

/-- An effect on what plain instructions reach, and what comes after it. -/
theorem onScope_bind (x : Exec α) (k : α → Control β) :
    (onScope x >>= k) ⟨space, stack, f⟩ = (match x ⟨space, stack, f.locals⟩ with
      | .ok a s => k a ⟨s.space, s.stack, { f with locals := s.locals }⟩
      | .error t s => .error t ⟨s.space, s.stack, { f with locals := s.locals }⟩) := by
  simp only [Bind.bind, EStateM.bind, onScope]
  cases x ⟨space, stack, f.locals⟩ <;> rfl

end Control

namespace Instr

open Control

variable {space space' : IndexSpace} {stack stack' : Stack} {f f' : Frame}

/-- A plain instruction is carried out on the locals of the frame. -/
theorem exec_plain (op : PlainInstr) (start : Nat) :
    (plain op).exec start ⟨space, stack, f⟩ = (match op.exec ⟨space, stack, f.locals⟩ with
      | .ok _ s => .ok .next ⟨s.space, s.stack, { f with locals := s.locals }⟩
      | .error t s => .error t ⟨s.space, s.stack, { f with locals := s.locals }⟩) := by
  rw [exec, onScope_bind]
  cases op.exec ⟨space, stack, f.locals⟩ <;> rfl

/-- An indirect call names the function that it has found. -/
theorem exec_callIndirect (type : UInt32) (table : UInt8) (start : Nat) :
    (callIndirect type table).exec start ⟨space, stack, f⟩ =
      (match Exec.indirect f.code.types type table ⟨space, stack, f.locals⟩ with
      | .ok func s => .ok (.call func) ⟨s.space, s.stack, { f with locals := s.locals }⟩
      | .error t s => .error t ⟨s.space, s.stack, { f with locals := s.locals }⟩) := by
  rw [exec, indirect, get_bind, onScope_bind]
  cases Exec.indirect f.code.types type table ⟨space, stack, f.locals⟩ <;> rfl

/-- A conditional branch takes its condition from the stack. -/
theorem exec_brIf (depth : UInt32) (start : Nat) :
    (brIf depth).exec start ⟨space, stack, f⟩ = (match Stack.pop stack with
      | .ok c stack =>
        if c.toUInt32 ≠ 0 then branch depth ⟨space, stack, f⟩ else .ok .next ⟨space, stack, f⟩
      | .error t stack => .error t ⟨space, stack, f⟩) := by
  rw [exec, pop32_bind]
  cases Stack.pop stack with
  | ok c stack => dsimp only; split <;> rfl
  | error => rfl

/-- A branch table takes its index from the stack; one past the table goes to the default. -/
theorem exec_brTable (depths : Array UInt32) (last : UInt32) (start : Nat) :
    (brTable depths last).exec start ⟨space, stack, f⟩ = (match Stack.pop stack with
      | .ok c stack =>
        branch ((depths[c.toUInt32.toNat]?).getD last) ⟨space, stack, f⟩
      | .error t stack => .error t ⟨space, stack, f⟩) :=
  pop32_bind _

/-! ## Where instructions lead -/

/-- How an instruction outside the block structure leaves its frame `f`, unless the frame
returns. -/
inductive LeadsTo (f : Frame) : Frame → Prop where
  | next (locals : Locals) : LeadsTo f { f with locals }
  | branch (depth : Nat) (h : f.labels.drop depth = label :: outer) :
      LeadsTo f { f with pc := label.continuation, labels := outer }

/-- An instruction that goes on has changed locals at most. -/
theorem leadsTo_of_next
    (h : (.ok flow ⟨space, stack, { f with locals }⟩ : EStateM.Result Trap Activation Flow) =
      .ok flow' ⟨space', stack', f'⟩) : LeadsTo f f' := by
  injection h with _ ha
  injection ha with _ _ hf
  subst hf
  exact .next locals

/-- A branch that does not return goes to one of the labels. -/
theorem leadsTo_of_branch
    (h : branch depth ⟨space, stack, f⟩ = .ok flow ⟨space', stack', f'⟩) (hflow : flow ≠ .ret) :
    LeadsTo f f' := by
  cases hdrop : f.labels.drop depth.toNat with
  | nil =>
    rw [branch_no_label (List.drop_eq_nil_iff.mp hdrop)] at h
    split at h
    · injection h with hret
      exact absurd hret.symm hflow
    · contradiction
  | cons label outer =>
    rw [branch_label hdrop] at h
    split at h
    · injection h with _ ha
      injection ha with _ _ hf
      subst hf
      exact .branch depth.toNat hdrop
    · contradiction

/-- An instruction outside the block structure returns, goes on to the next one, or branches. -/
theorem Spells.leadsTo (hs : Spells instr bs)
    (h : instr.exec start ⟨space, stack, f⟩ = .ok flow ⟨space', stack', f'⟩)
    (hflow : flow ≠ .ret) : LeadsTo f f' := by
  cases instr with
  | plain op =>
    rw [exec_plain] at h
    split at h
    · exact leadsTo_of_next h
    · contradiction
  | opener => nomatch hs
  | elseArm => nomatch hs
  | blockEnd => nomatch hs
  | br depth => exact leadsTo_of_branch h hflow
  | brIf depth =>
    rw [exec_brIf] at h
    split at h
    · split at h
      · exact leadsTo_of_branch h hflow
      · exact leadsTo_of_next h
    · contradiction
  | brTable depths last =>
    rw [exec_brTable] at h
    split at h
    · exact leadsTo_of_branch h hflow
    · contradiction
  | ret =>
    injection h with hret
    exact absurd hret.symm hflow
  | call func =>
    exact leadsTo_of_next h
  | callIndirect type table =>
    rw [exec_callIndirect] at h
    split at h
    · exact leadsTo_of_next h
    · contradiction
  | illegal opcode => contradiction

end Instr

namespace Control

/-! ## Frames keep their code -/

/-- Something that leaves a frame its code. -/
def KeepsCode (x : Control α) : Prop :=
  ∀ a b a', x a = .ok b a' → a'.frame.code = a.frame.code

namespace KeepsCode

theorem pure (b : α) : KeepsCode (Pure.pure b) := by
  intro a b a' h
  cases h
  rfl

/-- A sequence leaves the frame its code if both parts do. -/
theorem bind {x : Control α} {k : α → Control β} (hx : KeepsCode x) (hk : ∀ b, KeepsCode (k b)) :
    KeepsCode (x >>= k) := by
  intro a c a' h
  obtain ⟨b, a₁, hb, hc⟩ := bind_eq_ok.mp h
  exact (hk b a₁ c a' hc).trans (hx a b a₁ hb)

theorem get_bind {k : Activation → Control β} (hk : ∀ b, KeepsCode (k b)) :
    KeepsCode (get >>= k) :=
  fun a b a' h => hk a a b a' h

theorem throw (t : Trap) : KeepsCode (MonadExcept.throw t : Control α) := nofun

theorem onStack (x : StackM α) : KeepsCode (onStack x) := by
  intro a b a' h
  simp only [Control.onStack] at h
  split at h
  · cases h
    rfl
  · contradiction

theorem onScope (x : Exec α) : KeepsCode (onScope x) := by
  intro a b a' h
  simp only [Control.onScope] at h
  split at h
  · cases h
    rfl
  · contradiction

/-- Moving about in a frame leaves its code. -/
theorem modifyFrame {g : Frame → Frame} (hg : ∀ f, (g f).code = f.code) :
    KeepsCode (modifyFrame g) := by
  intro a b a' h
  cases h
  exact hg a.frame

theorem fetch : KeepsCode fetch := by
  intro a b a' h
  simp only [Control.fetch, Frame.fetch, Frame.read] at h
  cases hread : Instr.read.runAt a.frame.code.body a.frame.pc with
  | ok instr pc =>
    rw [hread] at h
    cases h
    rfl
  | error e pc =>
    rw [hread] at h
    contradiction

theorem pop32 : KeepsCode pop32 :=
  (onStack _).bind fun _ => .pure _

/-- A branch moves inside the same code. -/
theorem branch (depth : UInt32) : KeepsCode (branch depth) := by
  refine get_bind fun a => ?_
  dsimp only
  split
  · exact (onStack _).bind fun _ => bind (modifyFrame (by intro f; rfl)) fun _ => .pure _
  · split
    · exact .pure _
    · exact .throw _

theorem enterBlock (b : Block) (taken : Bool) : KeepsCode (enterBlock b taken) := by
  refine get_bind fun a => ?_
  dsimp only
  split
  · exact .throw _
  · exact bind (modifyFrame (by intro f; rfl)) fun _ => .pure _

theorem openBlock (start : Nat) (kind : BlockKind) : KeepsCode (openBlock start kind) := by
  refine get_bind fun a => ?_
  split
  · exact .throw _
  · cases kind with
    | block | loop => exact enterBlock _ _
    | cond => exact pop32.bind fun _ => enterBlock _ _

theorem closeBlock : KeepsCode closeBlock := by
  refine get_bind fun a => ?_
  split
  · exact bind (modifyFrame (by intro f; rfl)) fun _ => .pure _
  · exact .pure _

/-- Every instruction leaves the frame the code that it was read from. -/
theorem exec (instr : Instr) (start : Nat) : KeepsCode (instr.exec start) := by
  cases instr with
  | plain op => exact (onScope _).bind fun _ => .pure _
  | opener kind => exact openBlock start kind
  | elseArm => exact branch 0
  | blockEnd => exact closeBlock
  | br depth => exact branch depth
  | brIf depth =>
    refine pop32.bind fun c => ?_
    split
    · exact branch depth
    · exact .pure _
  | brTable depths last => exact pop32.bind fun _ => branch _
  | ret => exact .pure _
  | call func => exact .pure _
  | callIndirect type table => exact get_bind fun a => (onScope _).bind fun _ => .pure _
  | illegal opcode => exact .throw _

/-- No instruction changes the code of its frame. -/
theorem step : KeepsCode Control.step :=
  get_bind fun _ => fetch.bind fun _ => exec _ _

end KeepsCode

end Control

end Wasm
