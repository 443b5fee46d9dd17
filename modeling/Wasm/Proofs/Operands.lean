import Wasm.Proofs.Metering
import Wasm.Proofs.Soundness

/-!
# Wasm.Proofs.Operands

What a call leaves of the operands of its caller. All frames share one stack, and nothing keeps code
from taking operands that are not its own.

* `Activation.floor` is the height below which the next instruction leaves the stack alone;
  `Machine.Transition.agrees` says that it does.
* `Frame.Ready.base_le_floor`: typed code stays above the base of its frame.
* `Machine.Calls` is a call of code with its return, and `call_keeps_operands` says what is on the
  stack then.
-/

namespace Wasm

/-! ## Stacks with the same cells at the bottom -/

/-- Two stacks have the same cells below a height. -/
def Stack.Agrees (n : Nat) (s s' : Stack) : Prop :=
  ∀ k < n, s'.cells[k]? = s.cells[k]?

namespace Stack

variable {s s' s'' : Stack}

theorem Agrees.refl (n : Nat) (s : Stack) : s.Agrees n s := fun _ _ => rfl

theorem Agrees.trans (h : s.Agrees n s') (h' : s'.Agrees n s'') : s.Agrees n s'' :=
  fun k hk => (h' k hk).trans (h k hk)

theorem Agrees.mono (h : s.Agrees n s') (hn : k ≤ n) : s.Agrees k s' :=
  fun j hj => h j (Nat.lt_of_lt_of_le hj hn)

/-- Stacks with a common lower part agree up to it. -/
theorem agrees_of_append {xs ys ys' : Array UInt64} (h : s.cells = xs ++ ys)
    (h' : s'.cells = xs ++ ys') : s.Agrees xs.size s' := by
  intro k hk
  rw [h, h', Array.getElem?_append_left hk, Array.getElem?_append_left hk]

/-- Taking or replacing the top cell leaves those below. -/
theorem agrees_of_push (h : s = ⟨s'.cells.push c, s'.limit⟩) : s.Agrees (s.size - 1) s' := by
  intro k hk
  rw [h, size, Array.size_push] at hk
  rw [h, Array.getElem?_push, if_neg (by omega)]

theorem agrees_pop (h : pop s = .ok c s') : s.Agrees (s.size - 1) s' :=
  agrees_of_push (pop_eq_ok h)

/-- The top cell, as a condition or an index. -/
def top (s : Stack) : UInt32 := ((s.cells.back?).getD 0).toUInt32

/-- The top that is spoken of is the operand that is taken. -/
theorem top_of_pop (h : pop s = .ok c s') : s.top = c.toUInt32 := by
  rw [pop_eq_ok h, top, Array.back?_push, Option.getD_some]

/-- Unwinding leaves what lies below the height. -/
theorem agrees_unwind (h : unwind height arity s = .ok a s') : s.Agrees height s' := by
  obtain ⟨xs, ys, zs, hs, rfl, -, hcells⟩ := unwind_eq_ok h
  rw [Array.append_assoc] at hs
  exact agrees_of_append (congrArg cells hs) hcells

end Stack

/-- An effect that takes `n` cells leaves those below alone. -/
theorem Exec.Takes.agrees {x : Exec α} (hx : Takes n k x) (h : x s = .ok a s') :
    s.stack.Agrees (s.stack.size - n) s'.stack := by
  by_cases hn : n ≤ s.stack.size
  · obtain ⟨below, top, hcells, htop⟩ := s.stack.exists_append hn
    have hs := hx s below top hcells htop
    rw [h] at hs
    obtain ⟨top', hcells', -⟩ := hs
    have hbelow : s.stack.size - n = below.size := by
      rw [Stack.size, hcells, Array.size_append, htop, Nat.add_sub_cancel]
    rw [hbelow]
    exact Stack.agrees_of_append hcells hcells'
  · intro k hk
    omega

/-! ## How deep an instruction reaches -/

/-- The height of the stack at which a branch goes on, without what it carries. -/
def Frame.targetHeight (f : Frame) (depth : UInt32) : Nat :=
  match f.labels.drop depth.toNat with
  | label :: _ => label.height
  | [] => f.base

/-- The height below which an instruction leaves the stack alone. It takes its operands from above,
and a branch or a return drops what is above. -/
def Instr.floor (a : Activation) : Instr → Nat
  | .plain op => a.stack.size - op.arity.params
  | .opener .block | .opener .loop => a.stack.size
  | .opener .cond => a.stack.size - 1
  | .elseArm => a.frame.targetHeight 0
  | .blockEnd => if a.frame.labels.isEmpty then a.frame.base else a.stack.size
  | .br depth => a.frame.targetHeight depth
  | .brIf depth =>
    if a.stack.top = 0 then a.stack.size - 1
    else min (a.stack.size - 1) (a.frame.targetHeight depth)
  | .brTable depths last =>
    min (a.stack.size - 1) (a.frame.targetHeight ((depths[a.stack.top.toNat]?).getD last))
  | .ret => a.frame.base
  | .call func => a.stack.size - ((a.space.funcs[func.toNat]?).elim 0 (·.type.params.length))
  | .callIndirect type _ =>
    a.stack.size - 1 - ((a.frame.code.types[type.toNat]?).elim 0 (·.params.length))
  | .illegal _ => a.stack.size

/-- The height below which the next instruction leaves the stack alone. -/
def Activation.floor (a : Activation) : Nat :=
  match Instr.read.runAt a.frame.code.body a.frame.pc with
  | .ok instr _ => instr.floor a
  | .error _ _ => a.stack.size

/-- What comes of an instruction leaves the stack alone below a height: a return goes back to the
base of the frame, and a call takes its operands. Before that a call has taken at most the index of
a slot.
-/
def Flow.Spares (n : Nat) (stack : Stack) (a : Activation) : Flow → Prop
  | .next => True
  | .ret => n ≤ a.frame.base
  | .call func =>
    (∃ slot : Array UInt64, slot.size ≤ 1 ∧ stack.cells = a.stack.cells ++ slot) ∧
      ∀ f, a.space.funcs[func.toNat]? = some f → n ≤ a.stack.size - f.type.params.length

section

open Control

variable {space : IndexSpace} {stack : Stack} {f : Frame}

/-- A branch leaves what lies below its target. -/
theorem Control.spares_branch (h : branch depth ⟨space, stack, f⟩ = .ok flow a) :
    stack.Agrees (f.targetHeight depth) a.stack ∧
      ∀ before, flow.Spares (f.targetHeight depth) before a := by
  cases hdrop : f.labels.drop depth.toNat with
  | cons label outer =>
    rw [branch_label hdrop] at h
    cases hunwind : Stack.unwind label.height label.arity stack with
    | error t stack' =>
      rw [hunwind] at h
      contradiction
    | ok _ stack' =>
      rw [hunwind] at h
      cases h
      rw [Frame.targetHeight, hdrop]
      exact ⟨Stack.agrees_unwind hunwind, fun _ => trivial⟩
  | nil =>
    rw [branch_no_label (List.drop_eq_nil_iff.mp hdrop)] at h
    split at h
    · cases h
      rw [Frame.targetHeight, hdrop]
      exact ⟨.refl _ _, fun _ => Nat.le_refl _⟩
    · contradiction

theorem Control.pop32_bind_eq_ok {k : UInt32 → Control α}
    (h : (pop32 >>= k) ⟨space, stack, f⟩ = .ok b a) :
    ∃ c stack', Stack.pop stack = .ok c stack' ∧ k c.toUInt32 ⟨space, stack', f⟩ = .ok b a := by
  rw [pop32_bind] at h
  cases hpop : Stack.pop stack with
  | ok c stack' =>
    rw [hpop] at h
    exact ⟨c, stack', rfl, h⟩
  | error t stack' =>
    rw [hpop] at h
    contradiction

/-- Entering a block leaves the stack. -/
theorem Control.enterBlock_eq_ok {b : Block} {taken : Bool}
    (h : enterBlock b taken ⟨space, stack, f⟩ = .ok flow a) : flow = .next ∧ a.stack = stack := by
  rw [enterBlock_eq] at h
  split at h
  · contradiction
  · cases h
    exact ⟨rfl, rfl⟩

/-- An opener takes its condition, if it has one. -/
theorem Control.spares_openBlock (h : openBlock start kind ⟨space, stack, f⟩ = .ok flow a) :
    flow = .next ∧ stack.Agrees ((Instr.opener kind).floor ⟨space, stack, f⟩) a.stack := by
  rw [openBlock, get_bind] at h
  cases hb : f.code.blocks[start]? with
  | none =>
    simp only [hb] at h
    contradiction
  | some b =>
    simp only [hb] at h
    cases kind with
    | block | loop =>
      obtain ⟨rfl, hstack⟩ := enterBlock_eq_ok h
      rw [hstack]
      exact ⟨rfl, .refl _ _⟩
    | cond =>
      obtain ⟨c, stack', hpop, h⟩ := pop32_bind_eq_ok h
      obtain ⟨rfl, hstack⟩ := enterBlock_eq_ok h
      rw [hstack]
      exact ⟨rfl, Stack.agrees_pop hpop⟩

theorem Flow.Spares.mono {n k : Nat} (h : Spares n stack a flow) (hk : k ≤ n) :
    Spares k stack a flow := by
  cases flow with
  | next => trivial
  | ret => exact Nat.le_trans hk h
  | call func => exact ⟨h.1, fun f hf => Nat.le_trans hk (h.2 f hf)⟩

/-- A branch whose condition or index is on the stack takes that first. -/
theorem Control.spares_pop_branch (hpop : Stack.pop stack = .ok c stack')
    (h : branch depth ⟨space, stack', f⟩ = .ok flow a) :
    stack.Agrees (min (stack.size - 1) (f.targetHeight depth)) a.stack ∧
      flow.Spares (min (stack.size - 1) (f.targetHeight depth)) stack a := by
  obtain ⟨hbranch, hspares⟩ := spares_branch h
  have hagrees := (Stack.agrees_pop hpop).mono (Nat.min_le_left _ (f.targetHeight depth))
  exact ⟨hagrees.trans (hbranch.mono (Nat.min_le_right _ _)),
    (hspares stack).mono (Nat.min_le_right _ _)⟩

/-- An indirect call takes the index of its slot, and calls a function of the type that it names. -/
theorem Control.spares_indirect
    (h : (Instr.callIndirect type table).exec start ⟨space, stack, f⟩ = .ok flow a) :
    stack.Agrees ((Instr.callIndirect type table).floor ⟨space, stack, f⟩) a.stack ∧
      flow.Spares ((Instr.callIndirect type table).floor ⟨space, stack, f⟩) stack a := by
  rw [Instr.exec_callIndirect] at h
  cases hfunc : Exec.indirect f.code.types type table ⟨space, stack, f.locals⟩ with
  | error t s =>
    rw [hfunc] at h
    contradiction
  | ok func s =>
    rw [hfunc] at h
    cases h
    obtain ⟨cell, callee, hs, hcallee, htype⟩ := Exec.indirect_eq_ok hfunc
    injection hs with hspace hstack
    have hsize : stack.size - 1 = s.stack.size := by
      rw [hstack, Stack.size, Array.size_push, Nat.add_sub_cancel, Stack.size]
    simp only [Instr.floor, htype, Option.elim_some, hsize]
    constructor
    · rw [← hsize]
      exact (Stack.agrees_of_push hstack).mono (Nat.sub_le _ _)
    · refine ⟨⟨#[cell], Nat.le_refl _, congrArg Stack.cells hstack⟩, fun callee' hcallee' => ?_⟩
      dsimp only at hcallee hcallee'
      rw [← hspace, hcallee] at hcallee'
      cases hcallee'
      exact Nat.le_refl _

/-- No instruction touches cells below its floor. -/
theorem Instr.spares_exec {instr : Instr}
    (h : instr.exec start ⟨space, stack, f⟩ = .ok flow a) :
    stack.Agrees (instr.floor ⟨space, stack, f⟩) a.stack ∧
      flow.Spares (instr.floor ⟨space, stack, f⟩) stack a := by
  cases instr with
  | plain op =>
    rw [exec_plain] at h
    cases hop : op.exec ⟨space, stack, f.locals⟩ with
    | error t s =>
      rw [hop] at h
      contradiction
    | ok _ s =>
      rw [hop] at h
      cases h
      exact ⟨op.takes_exec.agrees hop, trivial⟩
  | opener kind =>
    obtain ⟨rfl, hagrees⟩ := spares_openBlock h
    exact ⟨hagrees, trivial⟩
  | elseArm => exact (spares_branch h).imp_right (· stack)
  -- An `end` moves no operands; only without a label does the frame return.
  | blockEnd =>
    rw [exec, closeBlock_eq] at h
    rw [floor]
    cases hlabels : f.labels with
    | nil =>
      rw [hlabels] at h
      cases h
      exact ⟨.refl _ _, Nat.le_refl _⟩
    | cons label outer =>
      rw [hlabels] at h
      cases h
      exact ⟨.refl _ _, trivial⟩
  | br depth => exact (spares_branch h).imp_right (· stack)
  | brIf depth =>
    obtain ⟨c, stack', hpop, h⟩ := pop32_bind_eq_ok h
    rw [floor, Stack.top_of_pop hpop]
    by_cases hc : c.toUInt32 = 0
    · rw [if_neg (not_not_intro hc)] at h
      rw [if_pos hc]
      cases h
      exact ⟨Stack.agrees_pop hpop, trivial⟩
    · rw [if_pos hc] at h
      rw [if_neg hc]
      exact spares_pop_branch hpop h
  | brTable depths last =>
    obtain ⟨c, stack', hpop, h⟩ := pop32_bind_eq_ok h
    rw [floor, Stack.top_of_pop hpop]
    exact spares_pop_branch hpop h
  | ret =>
    cases h
    exact ⟨.refl _ _, Nat.le_refl _⟩
  | call func =>
    cases h
    refine ⟨.refl _ _, ⟨#[], Nat.zero_le _, by simp⟩, fun callee hcallee => ?_⟩
    dsimp only at hcallee
    rw [floor, hcallee]
    exact Nat.le_refl _
  | callIndirect type table => exact spares_indirect h
  | illegal opcode => contradiction

end

/-- The floor of a frame is that of its next instruction. -/
theorem Activation.floor_of_read {space : IndexSpace} {stack : Stack} {f : Frame}
    (h : Instr.read.runAt f.code.body f.pc = .ok instr pc) :
    floor ⟨space, stack, f⟩ = instr.floor ⟨space, stack, f⟩ := by
  rw [floor, h]

/-- The next instruction leaves the stack alone below its floor. -/
theorem Control.spares_step {a a' : Activation} (h : Control.step a = .ok flow a') :
    a.stack.Agrees a.floor a'.stack ∧ flow.Spares a.floor a.stack a' := by
  obtain ⟨space, stack, f⟩ := a
  cases hread : Instr.read.runAt f.code.body f.pc with
  | error e pc =>
    rw [step, get_bind] at h
    obtain ⟨instr, a₁, hfetch, -⟩ := bind_eq_ok.mp h
    simp only [fetch, Frame.fetch, Frame.read, hread] at hfetch
    contradiction
  | ok instr pc =>
    rw [step_of_read hread] at h
    rw [Activation.floor_of_read hread]
    have hpc : instr.floor ⟨space, stack, { f with pc }⟩ = instr.floor ⟨space, stack, f⟩ := by
      cases instr with
      | opener kind => cases kind <;> rfl
      | _ => rfl
    rw [← hpc]
    exact Instr.spares_exec h

namespace Machine

/-- The height below which the next step leaves the stack alone. -/
def floor (m : Machine) : Nat := m.activation.floor

/-- Returning leaves what lies below the base of the frame. -/
theorem Exit.agrees {m m' : Machine} (h : Exit m (.running m')) :
    m.store.stack.Agrees m.frame.base m'.store.stack := by
  cases h with
  | back h => exact Stack.agrees_unwind h

/-- A call leaves what lies below its arguments. -/
theorem Entry.agrees {m m' : Machine} (h : Entry config index m (.running m'))
    (hn : ∀ f, m.store.space.funcs[index.toNat]? = some f →
      n ≤ m.store.stack.size - f.type.params.length) :
    m.store.stack.Agrees n m'.store.stack := by
  cases h with
  | @host f s hf h =>
    have hn := hn _ hf
    obtain ⟨below, cells, values, hcells, hparams, -, hstack⟩ := Store.callHost_eq_ok h
    rw [Stack.size, hcells, Array.size_append, hparams, Func.type, Nat.add_sub_cancel] at hn
    exact (Stack.agrees_of_append hcells hstack).mono hn
  | @entered c callee s hf h =>
    have hn := hn _ hf
    obtain ⟨args, hargs, hstore, -⟩ := Store.enter_eq_ok h
    have hcells : m.store.stack.cells = s.stack.cells ++ args := by rw [hstore]
    rw [Stack.size, hcells, Array.size_append, hargs, Func.type, Nat.add_sub_cancel] at hn
    exact (Stack.agrees_of_append hcells Array.append_empty.symm).mono hn

/-- A step leaves the stack alone below its floor. -/
theorem Transition.agrees {m m' : Machine} (h : Transition config m (.running m')) :
    m.store.stack.Agrees m.floor m'.store.stack := by
  cases h with
  | next fuel h => exact (Control.spares_step h).1
  | ret fuel h hexit =>
    obtain ⟨hagrees, hspares⟩ := Control.spares_step h
    exact hagrees.trans (hexit.agrees.mono hspares)
  | call fuel h hentry =>
    obtain ⟨hagrees, -, hspares⟩ := Control.spares_step h
    exact hagrees.trans (hentry.agrees hspares)

end Machine

/-! ## Code of a valid module -/

/-- A branch goes on above the base of the frame. -/
theorem Code.Within.base_le_targetHeight {f : Frame}
    (h : f.code.Within C f.base f.labels carried stop height)
    (hdepth : carried[depth.toNat]? = some ts) : f.base ≤ f.targetHeight depth := by
  rw [Frame.targetHeight]
  obtain ⟨label, outer, hdrop, -, hbase, -⟩ | ⟨hlast, -⟩ := h.target hdepth
  · rw [hdrop]
    exact hbase
  · rw [List.drop_eq_nil_of_le (Nat.le_of_eq hlast.symm)]

/-- The floor of an instruction that is typed does not lie below the base of its frame. This is
where typing keeps a frame from the operands of its callers. -/
theorem Instr.Typed.base_le_floor {m : Module} {space : IndexSpace} {stack : Stack} {f : Frame}
    {instr : Instr} (h : instr.Typed f.code.types (f.context m locals) carried ts us)
    (hs : space.Fits m)
    (hwithin : f.code.Within (f.context m locals) f.base f.labels carried stop height)
    (hsize : stack.size = height + (vs ++ ts).length) :
    f.base ≤ instr.floor ⟨space, stack, f⟩ := by
  have hbase := hwithin.base_le
  rw [List.length_append] at hsize
  cases h with
  | @plain op _ _ hop =>
    rw [floor]
    dsimp only
    by_cases hunreachable : op = .unreachable
    · simp only [hunreachable, PlainInstr.arity]
      omega
    · rw [← (hop.arity_eq hunreachable).1]
      omega
  | br hdepth => exact hwithin.base_le_targetHeight hdepth
  | brIf hdepth =>
    have htarget := hwithin.base_le_targetHeight hdepth
    simp only [List.length_append, List.length_singleton] at hsize
    rw [floor]
    dsimp only
    split <;> omega
  | @brTable depths ts last hdepths hlast vs' us =>
    have htarget : f.base ≤ f.targetHeight ((depths[stack.top.toNat]?).getD last) := by
      cases hdepth : depths[stack.top.toNat]? with
      | none => exact hwithin.base_le_targetHeight hlast
      | some depth =>
        exact hwithin.base_le_targetHeight (hdepths depth (Array.mem_of_getElem? hdepth))
    simp only [List.length_append, List.length_singleton] at hsize
    rw [floor]
    dsimp only
    omega
  | ret => exact Nat.le_refl _
  | @call func type hfunc =>
    have htype : (space.funcs[func.toNat]?).map Func.type = some type := (hs.funcs _).trans hfunc
    obtain ⟨callee, hcallee, rfl⟩ := Option.map_eq_some_iff.mp htype
    rw [floor, hcallee, Option.elim_some]
    dsimp only
    omega
  | callIndirect htable htype =>
    simp only [List.length_append, List.length_singleton] at hsize
    rw [floor, htype, Option.elim_some]
    dsimp only
    omega

/-- An opener takes its condition at most. -/
theorem Activation.le_floor_of_opener {space : IndexSpace} {stack : Stack} {f : Frame}
    {kind : BlockKind} (hopener : StandsAt f.code.body f.pc [kind.opcode])
    (hsize : n + (if kind = .cond then 1 else 0) ≤ stack.size) : n ≤ floor ⟨space, stack, f⟩ := by
  rw [floor_of_read (reads_opener kind _ _ hopener)]
  cases kind with
  | block | loop => exact hsize
  | cond => exact Nat.le_sub_of_add_le hsize

/-- In a frame that is ready, the next instruction stays above the base. -/
theorem Frame.Ready.base_le_floor {m : Module} {a : Activation}
    (h : a.frame.Ready m a.stack.size) (hs : a.space.Fits m) : a.frame.base ≤ a.floor := by
  obtain ⟨space, stack, f⟩ := a
  obtain ⟨locals, hlocals, carried, stop, height, ts, hwithin, ⟨b, htyped, hstands⟩, hsize⟩ := h
  dsimp only at hwithin htyped hstands hsize hs
  have hbase := hwithin.base_le
  cases htyped with
  | nil =>
    have hbyteAt : StandsAt f.code.body f.pc [stop.byte] := hstands.bytes
    obtain hbyte | hbyte := hwithin.isDelimiter
    · have hcarried := hwithin.carried_of_else hbyte
      rw [hbyte] at hbyteAt
      rw [Activation.floor_of_read (reads_else _ _ hbyteAt)]
      exact hwithin.base_le_targetHeight hcarried
    · rw [hbyte] at hbyteAt
      rw [Activation.floor_of_read (reads_end _ _ hbyteAt), Instr.floor]
      split
      · exact Nat.le_refl _
      · dsimp only
        omega
  | leaf vs hl hrest =>
    obtain ⟨hleaf, -⟩ := hstands.leaf
    rw [Activation.floor_of_read ((Leaf.spelled _).read _ _ hleaf)]
    exact hl.base_le_floor hs hwithin hsize
  | block vs hhead hbody hrest =>
    obtain ⟨endAt, hopener, -⟩ := hstands.nest
    exact Activation.le_floor_of_opener hopener (by simp; omega)
  | loop vs hhead hbody hrest =>
    obtain ⟨endAt, hopener, -⟩ := hstands.nest
    exact Activation.le_floor_of_opener hopener (by simp; omega)
  | cond vs hhead hskip hbody hrest =>
    obtain ⟨endAt, hopener, -⟩ := hstands.nest
    exact Activation.le_floor_of_opener hopener (by simp at hsize ⊢; omega)
  | ifElse vs hhead hthen helse hrest =>
    obtain ⟨elseAt, endAt, hopener, -⟩ := hstands.ifElse
    exact Activation.le_floor_of_opener hopener (by simp at hsize ⊢; omega)

/-! ## Inside a call -/

namespace Machine

/-- A frame runs inside a call of code that has a base and these callers: it is the callee's, or
that of something that the callee has called. -/
inductive Inside (callers : Array Frame) (base : Nat) (c : Code) : Frame → Array Frame → Prop where
  | here (hbase : f.base = base) (hcode : f.code = c) : Inside callers base c f callers
  | deeper (h : Inside callers base c caller outer) : Inside callers base c f (outer.push caller)

variable {callers : Array Frame} {base : Nat} {c : Code}

/-- Frames inside a call lie above its callers. -/
theorem Inside.size_le (h : Inside callers base c f outer) : callers.size ≤ outer.size := by
  induction h with
  | here => exact Nat.le_refl _
  | deeper _ ih =>
    rw [Array.size_push]
    exact Nat.le_succ_of_le ih

/-- What keeps base and code of a frame keeps it inside. -/
theorem Inside.evolves {f f' : Frame} (h : Inside callers base c f outer) (hbase : f'.base = f.base)
    (hcode : f'.code = f.code) : Inside callers base c f' outer := by
  cases h with
  | here hbase' hcode' => exact .here (hbase.trans hbase') (hcode.trans hcode')
  | deeper h => exact .deeper h

/-- Returning from a frame inside a call leads to the frame of the call itself, or stays inside. -/
theorem Inside.of_push (h : Inside callers base c f (outer.push caller)) :
    (callers = outer.push caller ∧ f.base = base ∧ f.code = c) ∨
      Inside callers base c caller outer := by
  generalize hpush : outer.push caller = all at h
  cases h with
  | here hbase hcode => exact .inl ⟨rfl, hbase, hcode⟩
  | deeper h =>
    obtain ⟨rfl, rfl⟩ := Array.push_eq_push.mp hpush
    exact .inr h

/-- The return from a call of code: its results stay on the stack, above its base. -/
structure Returns (callers : Array Frame) (base : Nat) (c : Code) (m m' : Machine)
    (a : Activation) : Prop where
  ret : Control.step m.activation = .ok .ret a
  unwound : Stack.unwind base c.type.results.length a.stack = .ok () m'.store.stack
  callers : callers = m'.callers.push m'.frame

/-- A step inside a call stays inside, or returns from it. -/
theorem Transition.inside {m m' : Machine} (h : Transition config m (.running m'))
    (hm : Inside callers base c m.frame m.callers) :
    Inside callers base c m'.frame m'.callers ∨ ∃ a, Returns callers base c m m' a := by
  cases h with
  | next fuel h =>
    have ha := Control.evolves_step.of_ok h
    exact .inl (hm.evolves ha.base ha.code)
  | @ret a _ fuel h hexit =>
    have ha := Control.evolves_step.of_ok h
    have hm := hm.evolves ha.base ha.code
    cases hexit with
    | back hunwind hcallers =>
      have hcallers : m.callers = _ := hcallers
      rw [hcallers] at hm
      obtain ⟨hback, hbase, hcode⟩ | hm := hm.of_push
      · rw [← hbase, ← hcode]
        exact .inr ⟨a, h, hunwind, hback⟩
      · exact .inl hm
  | call fuel h hentry =>
    have ha := Control.evolves_step.of_ok h
    have hm := hm.evolves ha.base ha.code
    cases hentry with
    | host => exact .inl hm
    | entered => exact .inl (.deeper hm)

/-- Inside a call no frame of a sound machine has a lower base than the callee. -/
theorem Inside.base_le {m : Module} (h : Inside callers base c f outer)
    (hawaited : Awaited m f.base f.code.type.results.length outer) : base ≤ f.base := by
  induction h with
  | here hbase => exact Nat.le_of_eq hbase.symm
  | deeper _ ih =>
    obtain ⟨-, hbase, houter⟩ := hawaited.of_push
    exact Nat.le_trans (ih houter) hbase

/-! ## Calls and returns -/

/-- A call of code and its return: a step enters the callee, and after `n` more in which it or
something that it has called runs, the next one leads back to the caller. -/
structure Calls (config : EngineConfig) (m callee back : Machine) (n : Nat) : Prop where
  enters : m.step config = .running callee
  deeper : callee.callers.size = m.callers.size + 1
  within : ∀ k ≤ n, ∀ m', callee.run config k = .running m' → m.callers.size < m'.callers.size
  runs : callee.run config (n + 1) = .running back
  returns : back.callers.size = m.callers.size

/-- None of the first `n + 1` instructions of a run reaches below a height. -/
def StaysAbove (config : EngineConfig) (n height : Nat) (m : Machine) : Prop :=
  ∀ k ≤ n, ∀ m', m.run config k = .running m' → height ≤ m'.floor

/-- A run goes on from where it was one step before. -/
theorem exists_run_of_succ {m m' : Machine} (h : m.run config (n + 1) = .running m') :
    ∃ m₁, m.run config n = .running m₁ ∧ Transition config m₁ (.running m') := by
  rw [run_succ] at h
  cases hrun : m.run config n with
  | running m₁ =>
    rw [hrun] at h
    exact ⟨m₁, rfl, h ▸ m₁.step_cases config⟩
  | returned s =>
    rw [hrun] at h
    contradiction
  | trapped t s =>
    rw [hrun] at h
    contradiction

/-- A run leaves the stack alone below what it reaches. -/
theorem StaysAbove.agrees {m m' : Machine} (h : m.StaysAbove config n height)
    (hk : k ≤ n + 1) (hrun : m.run config k = .running m') :
    m.store.stack.Agrees height m'.store.stack := by
  induction k generalizing m' with
  | zero =>
    cases hrun
    exact .refl _ _
  | succ k ih =>
    obtain ⟨m₁, hrun₁, htransition⟩ := exists_run_of_succ hrun
    have hfloor := h k (by omega) m₁ hrun₁
    exact (ih (by omega) hrun₁).trans (htransition.agrees.mono hfloor)

namespace Calls

variable {m callee back : Machine}

/-- The callee finds its parameters and leaves the rest of the stack below its base. -/
theorem entry (h : m.Calls config callee back n) :
    callee.frame.base = callee.store.stack.size ∧
      ∃ args slot : Array UInt64, args.size = callee.frame.code.type.params.length ∧
        slot.size ≤ 1 ∧ m.store.stack.cells = callee.store.stack.cells ++ args ++ slot := by
  have htransition := m.step_cases config
  have hdeeper := h.deeper
  rw [h.enters] at htransition
  cases htransition with
  | next =>
    simp only [after] at hdeeper
    omega
  | ret fuel h hexit =>
    cases hexit with
    | back _ hcallers =>
      simp only [after] at hcallers hdeeper
      rw [hcallers, Array.size_push] at hdeeper
      omega
  | @call func a _ fuel hstep hentry =>
    obtain ⟨-, ⟨slot, hslot, hcells⟩, -⟩ := Control.spares_step hstep
    cases hentry with
    | host =>
      simp only [after] at hdeeper
      omega
    | @entered c f s hf henter =>
      obtain ⟨args, hargs, hstore, rfl⟩ := Store.enter_eq_ok henter
      have hstack : a.stack.cells = s.stack.cells ++ args := congrArg (·.stack.cells) hstore
      exact ⟨rfl, args, slot, hargs, hslot, hcells.trans (by rw [hstack])⟩

/-- Until it returns, the run stays inside the call. -/
theorem inside (h : m.Calls config callee back n) (hk : k ≤ n)
    (hrun : callee.run config k = .running m') :
    Inside callee.callers callee.frame.base callee.frame.code m'.frame m'.callers := by
  induction k generalizing m' with
  | zero =>
    cases hrun
    exact .here rfl rfl
  | succ k ih =>
    obtain ⟨m₁, hrun₁, htransition⟩ := exists_run_of_succ hrun
    obtain hinside | ⟨a, hreturns⟩ := htransition.inside (ih (by omega) hrun₁)
    · exact hinside
    · have hwithin := h.within (k + 1) hk m' hrun
      have hdeeper := h.deeper
      rw [hreturns.callers, Array.size_push] at hdeeper
      omega

/-- A call that returns does so in a last step, from the frame that it has entered. -/
theorem exists_returns (h : m.Calls config callee back n) :
    ∃ last a, callee.run config n = .running last ∧
      Returns callee.callers callee.frame.base callee.frame.code last back a := by
  obtain ⟨last, hlast, htransition⟩ := exists_run_of_succ h.runs
  obtain hinside | ⟨a, hreturns⟩ := htransition.inside (h.inside (Nat.le_refl n) hlast)
  · have hsize := hinside.size_le
    have hdeeper := h.deeper
    have hback := h.returns
    omega
  · exact ⟨last, a, hlast, hreturns⟩

/-- Code of a valid module stays above its base. -/
theorem staysAbove {mod : Module} (h : m.Calls config callee back n) (hm : m.Sound mod) :
    callee.StaysAbove config n callee.frame.base := by
  intro k hk m' hrun
  have hcallee : callee.Sound mod := by
    have hstep := (m.step_cases config).sound hm
    rwa [h.enters] at hstep
  have hsound : m'.Sound mod := by
    have hk := sound_run config k hcallee
    rwa [hrun] at hk
  have hinside := (h.inside hk hrun).base_le hsound.callers
  exact Nat.le_trans hinside (hsound.frame.base_le_floor (a := m'.activation) hsound.space.fits)

end Calls

end Machine

/-- After a call of code the caller goes on, with the results of the callee on the stack and as many
cells below them as before, without the parameters. Those of them that no instruction of the call
reaches are what they were; so if none reaches below the base of the callee, the stack is what it
was with the parameters replaced by the results. In an instance of a valid module, that imports no
table and no functions but the host's, this is always so. Before an indirect call there is also the
index of a slot on the stack. -/
theorem call_keeps_operands {m callee back : Machine} (h : m.Calls config callee back n) :
    callee.frame.base = callee.store.stack.size ∧
    (∃ args slot : Array UInt64, args.size = callee.frame.code.type.params.length ∧
      slot.size ≤ 1 ∧ m.store.stack.cells = callee.store.stack.cells ++ args ++ slot) ∧
    callee.callers = back.callers.push back.frame ∧
    ∃ (last : Machine) (a : Activation) (kept dropped results : Array UInt64),
      callee.run config n = .running last ∧ Control.step last.activation = .ok .ret a ∧
      a.stack.cells = kept ++ dropped ++ results ∧ back.store.stack.cells = kept ++ results ∧
      kept.size = callee.frame.base ∧ results.size = callee.frame.code.type.results.length ∧
      (∀ height ≤ callee.frame.base, callee.StaysAbove config n height →
        ∀ k < height, kept[k]? = callee.store.stack.cells[k]?) ∧
      (callee.StaysAbove config n callee.frame.base → kept = callee.store.stack.cells) ∧
      ∀ (mod : Module) (imports : Imports) (i j : Instance) steps hostCalls k index func args,
        mod.Valid → mod.importCount .table = 0 →
        (∀ i ∈ mod.imports, i.desc.kind = .func →
          ∃ f, Link.lookup imports i = .ok (.func (.host f))) →
        mod.instantiate imports config steps = some ⟨.ok i, hostCalls⟩ → i.History j →
        j.space.funcs[index.toNat]? = some func → args.map Value.type = func.type.params →
        j.execute k index args = .running m → kept = callee.store.stack.cells := by
  obtain ⟨hbase, hentry⟩ := h.entry
  obtain ⟨last, a, hlast, hreturns⟩ := h.exists_returns
  obtain ⟨kept, dropped, results, hstack, hkept, hresults, hcells⟩ :=
    Stack.unwind_eq_ok hreturns.unwound
  -- What lies below a height that the call stays above has been kept cell by cell.
  have hagrees : ∀ height ≤ callee.frame.base, callee.StaysAbove config n height →
      ∀ k < height, kept[k]? = callee.store.stack.cells[k]? := by
    intro height hheight habove k hk
    have hsame := habove.agrees (Nat.le_refl _) h.runs k hk
    rwa [hcells, Array.getElem?_append_left (by omega)] at hsame
  have hexact : callee.StaysAbove config n callee.frame.base →
      kept = callee.store.stack.cells := by
    intro habove
    refine Array.ext_getElem? fun k => ?_
    by_cases hk : k < callee.frame.base
    · exact hagrees _ (Nat.le_refl _) habove k hk
    · rw [Array.getElem?_eq_none (by omega), Array.getElem?_eq_none]
      rw [Stack.size] at hbase
      omega
  refine ⟨hbase, hentry, hreturns.callers, last, a, kept, dropped, results, hlast, hreturns.ret,
    congrArg Stack.cells hstack, hcells, hkept, hresults, hagrees, hexact, ?_⟩
  intro mod imports i j steps hostCalls k index func args hmod htable hhost hi hj hfunc hargs hrun
  have hsound := (j.execute_cases k index args).sound (hj.sound hmod htable hhost hi).2 hfunc hargs
  rw [hrun] at hsound
  exact hexact (h.staysAbove hsound)

/-- A function that adds one to its parameter, and one that adds seven to what it returns. -/
def adding : Module where
  types := #[⟨[.i32], [.i32]⟩, ⟨[], [.i32]⟩]
  funcs := #[0, 1]
  codes := #[⟨#[], #[0x20, 0x00, 0x41, 0x01, 0x6A, 0x0B]⟩,
    ⟨#[], #[0x41, 0x07, 0x41, 0x05, 0x10, 0x00, 0x6A, 0x0B]⟩]

set_option maxRecDepth 4000 in
/-- The seven is below the parameter and stays. -/
theorem call_keeps_operands_adding :
    ∃ i m callee back, adding.instantiate ∅ {} 20 = some ⟨.ok i, #[]⟩ ∧
      i.execute 2 1 [] = .running m ∧ m.Calls {} callee back 3 ∧ m.store.stack.cells = #[7, 5] ∧
      ∃ results : Array UInt64, results.size = 1 ∧ back.store.stack.cells = #[7] ++ results := by
  obtain ⟨i, m, callee, back, hi, hm, hcalls, habove, hbefore, hcallee, hresults⟩ :
      ∃ i m callee back, adding.instantiate ∅ {} 20 = some ⟨.ok i, #[]⟩ ∧
        i.execute 2 1 [] = .running m ∧ m.Calls {} callee back 3 ∧
        callee.StaysAbove {} 3 callee.frame.base ∧ m.store.stack.cells = #[7, 5] ∧
        callee.store.stack.cells = #[7] ∧ callee.frame.code.type.results.length = 1 := by
    refine ⟨?i, ?m, ?callee, ?back, ?created, ?reached,
      ⟨?enters, ?deeper, ?within, ?runs, ?returns⟩, ?above, ?before, ?entered, ?results⟩
    case created =>
      cbv
      rfl
    case reached =>
      cbv
      rfl
    case enters =>
      cbv
      rfl
    case runs =>
      cbv
      rfl
    case deeper => rfl
    case within =>
      intro k hk m' hrun
      obtain rfl | rfl | rfl | rfl : k = 0 ∨ k = 1 ∨ k = 2 ∨ k = 3 := by omega
      all_goals
        cbv at hrun
        cases hrun
        decide
    case returns => rfl
    case above =>
      intro k hk m' hrun
      obtain rfl | rfl | rfl | rfl : k = 0 ∨ k = 1 ∨ k = 2 ∨ k = 3 := by omega
      all_goals
        cbv at hrun
        cases hrun
        decide
    case before => rfl
    case entered => rfl
    case results => rfl
  obtain ⟨-, -, -, -, -, kept, -, results, -, -, -, hback, -, hsize, -, hkept, -⟩ :=
    call_keeps_operands hcalls
  rw [hkept habove, hcallee] at hback
  exact ⟨i, m, callee, back, hi, hm, hcalls, hbefore, results, hsize.trans hresults, hback⟩

/-- A module with two functions. The first one, of no parameters and no results, drops a cell and
puts another one there; the second one calls it with a cell on the stack. -/
def meddling : Module where
  types := #[⟨[], []⟩, ⟨[], [.i32]⟩]
  funcs := #[0, 1]
  codes := #[⟨#[], #[0x1A, 0x41, 0x09, 0x0B]⟩, ⟨#[], #[0x41, 0x07, 0x10, 0x00, 0x0B]⟩]

/-- Code that is not valid can take its caller's operand and leave another one in its place. -/
theorem meddling_changes_operand :
    ∃ i m callee back, meddling.instantiate ∅ {} 20 = some ⟨.ok i, #[]⟩ ∧
      i.execute 1 1 [] = .running m ∧ m.Calls {} callee back 2 ∧
      callee.frame.code.type = ⟨[], []⟩ ∧ callee.frame.base = 1 ∧
      m.store.stack.cells = #[7] ∧ back.store.stack.cells = #[9] ∧
      (i.call 20 1 []).map CallResult.outcome = some (.ok [.i32 9]) := by
  refine ⟨?i, ?m, ?callee, ?back, ?created, ?reached, ⟨?enters, ?deeper, ?within, ?runs, ?returns⟩,
    ?type, ?base, ?before, ?after, ?called⟩
  case created =>
    cbv
    rfl
  case reached =>
    cbv
    rfl
  case enters =>
    cbv
    rfl
  case runs =>
    cbv
    rfl
  case deeper => rfl
  case within =>
    intro k hk m' hrun
    obtain rfl | rfl | rfl : k = 0 ∨ k = 1 ∨ k = 2 := by omega
    all_goals
      cbv at hrun
      cases hrun
      decide
  case returns => rfl
  case type => rfl
  case base => rfl
  case before => rfl
  case after => rfl
  case called =>
    cbv

end Wasm
