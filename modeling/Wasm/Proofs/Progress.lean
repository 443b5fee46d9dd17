import Wasm.Proofs.Effect

/-!
# Wasm.Proofs.Progress

Typed instructions do not get stuck: they find their operands, their labels and whatever their
indices refer to.

* `Code.Row`: typed instructions lead from a position to a delimiter. `Code.Within` follows the
  labels of a frame outwards; at each of them a row goes on. `Code.Ready` puts the two together:
  execution can go on at a position, with a stack of the height that the types say.
* `Frame.Ready.step`: an instruction of a frame that is ready does not get stuck, and leaves the
  frame ready, or ready for the results of a call.
-/

namespace Wasm

open Reader hiding offset

/-- The trap is one that only code that breaks the rules ends in. -/
def Trap.Stuck : Trap → Prop
  | .stackUnderflow => True
  | .malformed _ => True
  | .illegalOpcode _ _ => True
  | .localIndexOutOfRange _ => True
  | .globalIndexOutOfRange _ => True
  | .typeIndexOutOfRange _ => True
  | .tableIndexOutOfRange _ => True
  | .functionIndexOutOfRange _ _ => True
  | .missingMemory => True
  | .immutableGlobal _ => True
  | _ => False

/-- The traps of a stuck machine fall into three groups, each excluded by an invariant of its own.
-/
theorem Trap.Stuck.cases {t : Trap} (h : t.Stuck) :
    t = .stackUnderflow ∨ t.BlamesBody ∨ t.IsDangling := by
  cases t <;> first
    | exact h.elim
    | exact .inl rfl
    | exact .inr (.inl trivial)
    | exact .inr (.inr trivial)

namespace Code

/-! ## Where execution can go on -/

/-- Where instructions in a row end: a position, the delimiter there, and the types of what they
leave on the stack. -/
structure Stop where
  pos : Nat
  byte : UInt8
  types : List ValType

/-- A tree stands at a position of the body, up to a delimiter, and its blocks are known. -/
structure Stands (c : Code) (pos : Nat) (b : Body c.types) (stop : Stop) : Prop where
  bytes : StandsAt c.body pos (b.bytes ++ [stop.byte])
  blocks : ∀ x ∈ b.blocks pos, c.blocks[x.start]? = some x
  ends : pos + b.bytes.length = stop.pos

/-- Typed instructions lead from a position, with operands of types `ts`, to a delimiter. -/
def Row (c : Code) (C : Context) (carried : List (List ValType)) (pos : Nat) (ts : List ValType)
    (stop : Stop) : Prop :=
  ∃ b : Body c.types, b.Typed C carried ts stop.types ∧ c.Stands pos b stop

/-- The blocks around a row of instructions, by their labels and what branches to them carry. Behind
the `end` of a block, and at its label, a row of the next block leads on. Operands of the row lie
above `floor`, and between two floors lie operands `vs` that the inner block leaves alone. -/
inductive Within (c : Code) (C : Context) (base : Nat) :
    List Label → List (List ValType) → Stop → (floor : Nat) → Prop where
  | body (pos : Nat) : Within c C base [] [C.results] ⟨pos, endOpcode, C.results⟩ base
  | block {label : Label} (vs : List ValType) (outer : Within c C base labels carried stop' floor)
      (harity : label.arity = ts.length) (hheight : label.height = floor + vs.length)
      (hbranch : c.Row C carried label.continuation (vs ++ ts) stop')
      (hbyte : IsDelimiter stop.byte)
      (hend : stop.byte = endOpcode → c.Row C carried (stop.pos + 1) (vs ++ stop.types) stop')
      (helse : stop.byte = elseOpcode → stop.types = ts) :
      Within c C base (label :: labels) (ts :: carried) stop (floor + vs.length)

/-- Execution can go on at a position, inside blocks with the given labels. -/
def Ready (c : Code) (C : Context) (base : Nat) (labels : List Label) (pos height : Nat) : Prop :=
  ∃ carried stop floor ts, c.Within C base labels carried stop floor ∧ c.Row C carried pos ts stop ∧
    height = floor + ts.length

variable {c : Code} {C : Context} {base : Nat}

/-- What lies below the base belongs to callers. -/
theorem Within.base_le (h : c.Within C base labels carried stop floor) : base ≤ floor := by
  induction h with
  | body => exact Nat.le_refl _
  | block vs _ _ _ _ _ _ _ ih => exact Nat.le_add_right_of_le ih

theorem Within.isDelimiter (h : c.Within C base labels carried stop floor) :
    IsDelimiter stop.byte := by
  cases h with
  | body => exact .inr rfl
  | block _ _ _ _ _ hbyte => exact hbyte

/-- What the first arm of a conditional leaves is what a branch to the conditional carries. -/
theorem Within.carried_of_else (h : c.Within C base labels carried stop floor)
    (hbyte : stop.byte = elseOpcode) : carried[0]? = some stop.types := by
  cases h with
  | body => exact absurd hbyte (show endOpcode ≠ elseOpcode by decide)
  | block _ _ _ _ _ _ _ helse => rw [helse hbyte, List.getElem?_cons_zero]

/-- A branch goes to a label where execution can go on, or it returns. -/
theorem Within.target (h : c.Within C base labels carried stop floor)
    (hdepth : carried[depth]? = some ts) :
    (∃ label outer, labels.drop depth = label :: outer ∧ label.arity = ts.length ∧
      base ≤ label.height ∧ label.height ≤ floor ∧
      c.Ready C base outer label.continuation (label.height + ts.length)) ∨
    depth = labels.length ∧ ts = C.results := by
  induction h generalizing depth with
  | body =>
    cases depth with
    | zero =>
      cases hdepth
      exact .inr ⟨rfl, rfl⟩
    | succ depth => simp at hdepth
  | @block labels carried stop' floor ts' stop label vs outer harity hheight hbranch _ _ _ ih =>
    cases depth with
    | zero =>
      cases hdepth
      have hbase := outer.base_le
      refine .inl ⟨label, labels, rfl, harity, by omega, by omega, carried, stop', floor, _, outer,
        hbranch, ?_⟩
      rw [hheight, List.length_append, Nat.add_assoc]
    | succ depth =>
      rw [List.getElem?_cons_succ] at hdepth
      obtain ⟨label', outer', hdrop, harity', hbase, hfloor, hready⟩ | ⟨hlast, hts⟩ := ih hdepth
      · exact .inl ⟨label', outer', hdrop, harity', hbase, by omega, hready⟩
      · exact .inr ⟨congrArg Nat.succ hlast, hts⟩

end Code

/-- What the instructions of a frame refer to, given the types of its locals. -/
abbrev Frame.context (m : Module) (f : Frame) (locals : List ValType) : Context :=
  m.context locals f.code.type.results

/-- Execution can go on in a frame, with a stack of a height. -/
def Frame.Ready (m : Module) (f : Frame) (height : Nat) : Prop :=
  ∃ locals : List ValType, f.locals.size = locals.length ∧
    f.code.Ready (f.context m locals) f.base f.labels f.pc height

/-- What may come of an instruction: a trap that valid code may end in; a frame that is ready; a
return with its results on the stack; or a call with its operands there, after which the frame is
ready for the results. -/
def Progress (m : Module) : EStateM.Result Trap Activation Flow → Prop
  | .error t _ => ¬ t.Stuck
  | .ok .next a => a.frame.Ready m a.stack.size
  | .ok .ret a => a.frame.base + a.frame.code.type.results.length ≤ a.stack.size
  | .ok (.call func) a => ∃ t, m.signature? func.toNat = some t ∧
      a.frame.base + t.params.length ≤ a.stack.size ∧
      a.frame.Ready m (a.stack.size - t.params.length + t.results.length)

section

open Control

variable {m : Module} {locals : List ValType} {space : IndexSpace} {stack : Stack} {f : Frame}
  {carried : List (List ValType)} {stop : Code.Stop} {floor : Nat} {vs ts us : List ValType}

/-! ## Branches -/

/-- A branch finds its label, and on the stack what the label carries. -/
theorem progress_branch (hlocals : f.locals.size = locals.length)
    (hwithin : f.code.Within (f.context m locals) f.base f.labels carried stop floor)
    (hdepth : carried[depth.toNat]? = some ts) (hsize : floor + ts.length ≤ stack.size) :
    Progress m (branch depth ⟨space, stack, f⟩) := by
  obtain ⟨label, outer, hdrop, harity, -, hfloor, hready⟩ | ⟨hlast, rfl⟩ := hwithin.target hdepth
  · rw [branch_label hdrop]
    cases hunwind : Stack.unwind label.height label.arity stack with
    | error t stack' =>
      obtain ⟨hshort, -⟩ := Stack.unwind_eq_error hunwind
      omega
    | ok _ stack' =>
      obtain ⟨xs, ys, zs, -, hxs, hzs, hcells⟩ := Stack.unwind_eq_ok hunwind
      have hsize' : stack'.size = label.height + ts.length := by
        rw [Stack.size, hcells, Array.size_append, hxs, hzs, harity]
      rw [← hsize'] at hready
      exact ⟨locals, hlocals, hready⟩
  · rw [branch_no_label (Nat.le_of_eq hlast.symm), if_pos hlast]
    have hbase := hwithin.base_le
    exact Nat.le_trans (Nat.add_le_add_right hbase _) hsize

/-! ## Instructions outside the block structure -/

/-- A plain instruction takes what its type says and leaves what its type says. -/
theorem progress_plain (hs : space.Fits m) (hlocals : f.locals.size = locals.length)
    (hwithin : f.code.Within (f.context m locals) f.base f.labels carried stop floor)
    (hrow : f.code.Row (f.context m locals) carried f.pc (vs ++ us) stop)
    (hop : op.Typed (f.context m locals) ts us)
    (hsize : stack.size = floor + (vs ++ ts).length) (start : Nat) :
    Progress m ((Instr.plain op).exec start ⟨space, stack, f⟩) := by
  have hintact := hop.intact ⟨space, stack, f.locals⟩ hs hlocals
  rw [List.length_append] at hsize
  rw [Instr.exec_plain]
  by_cases hunreachable : op = .unreachable
  · subst hunreachable
    exact id
  · obtain ⟨hparams, hresults⟩ := hop.arity_eq hunreachable
    have hn : op.arity.params ≤ stack.size := by omega
    cases hexec : op.exec ⟨space, stack, f.locals⟩ with
    | error t s =>
      rw [hexec] at hintact
      intro ht
      obtain ht | ht | ht := ht.cases
      · exact op.takes_exec.ne_stackUnderflow hexec hn ht
      · exact op.blameless_exec _ _ _ hexec ht
      · exact hintact ht
    | ok _ s =>
      rw [hexec] at hintact
      have hsize' := op.takes_exec.size_eq hexec hn
      refine ⟨locals, hintact.2, carried, stop, floor, vs ++ us, hwithin, hrow, ?_⟩
      simp only [List.length_append, hsize']
      omega

/-- An instruction outside the block structure, by its kind. -/
theorem progress_leaf {instr : Instr} (hs : space.Fits m) (hlocals : f.locals.size = locals.length)
    (hwithin : f.code.Within (f.context m locals) f.base f.labels carried stop floor)
    (hrow : f.code.Row (f.context m locals) carried f.pc (vs ++ us) stop)
    (hinstr : instr.Typed f.code.types (f.context m locals) carried ts us)
    (hsize : stack.size = floor + (vs ++ ts).length) (start : Nat) :
    Progress m (instr.exec start ⟨space, stack, f⟩) := by
  have hbase := hwithin.base_le
  have hresults : (f.context m locals).results.length = f.code.type.results.length := rfl
  cases hinstr with
  | plain hop => exact progress_plain hs hlocals hwithin hrow hop hsize start
  -- A branch does not fall through, so what it leaves below the carried operands is of any type.
  | @br depth ts hdepth vs' us =>
    refine progress_branch hlocals hwithin hdepth ?_
    simp only [List.length_append] at hsize
    omega
  | @brIf depth ts hdepth =>
    simp only [List.length_append, List.length_singleton] at hsize
    obtain ⟨c, stack', hpop, hsize'⟩ := stack.exists_pop (by omega)
    rw [Instr.exec_brIf, hpop]
    dsimp only
    split
    · exact progress_branch hlocals hwithin hdepth (by omega)
    · refine ⟨locals, hlocals, carried, stop, floor, _, hwithin, hrow, ?_⟩
      rw [List.length_append]
      show stack'.size = _
      omega
  | @brTable depths ts last hdepths hlast vs' us =>
    simp only [List.length_append, List.length_singleton] at hsize
    obtain ⟨c, stack', hpop, hsize'⟩ := stack.exists_pop (by omega)
    rw [Instr.exec_brTable, hpop]
    -- All depths of the table carry the same types, whichever one the index picks.
    have hdepth : carried[((depths[c.toUInt32.toNat]?).getD last).toNat]? = some ts := by
      cases hentry : depths[c.toUInt32.toNat]? with
      | none => exact hlast
      | some depth => exact hdepths depth (Array.mem_of_getElem? hentry)
    exact progress_branch hlocals hwithin hdepth (by omega)
  | ret vs' us =>
    simp only [List.length_append] at hsize
    show f.base + f.code.type.results.length ≤ stack.size
    omega
  | @call func t hfunc =>
    simp only [List.length_append] at hsize
    refine ⟨t, hfunc, ?_, locals, hlocals, carried, stop, floor, _, hwithin, hrow, ?_⟩
    · show f.base + t.params.length ≤ stack.size
      omega
    · show stack.size - t.params.length + t.results.length = _
      rw [List.length_append]
      omega
  | @callIndirect index table t htable htype =>
    simp only [List.length_append, List.length_singleton] at hsize
    rw [Instr.exec_callIndirect]
    cases hexec : Exec.indirect f.code.types index table ⟨space, stack, f.locals⟩ with
    | error trap s =>
      obtain ⟨hunderflow, hdangling⟩ :=
        Exec.indirect_eq_error hs htable htype (Nat.lt_of_lt_of_eq (by omega) hsize.symm) hexec
      intro ht
      obtain ht | ht | ht := ht.cases
      · exact hunderflow ht
      · exact Exec.blameless_indirect _ _ _ _ _ _ hexec ht
      · exact hdangling ht
    | ok func s =>
      -- The type was compared when the call was made, so it need not be known from the table.
      obtain ⟨cell, func', hscope, hfunc, htype'⟩ := Exec.indirect_eq_ok hexec
      obtain rfl := Option.some.inj (htype.symm.trans htype')
      have hsize' : stack.size = s.stack.size + 1 := by
        rw [show stack = _ from congrArg Scope.stack hscope, Stack.size, Array.size_push]
        rfl
      have hlocals' : s.locals.size = locals.length := by
        rw [← show f.locals = s.locals from congrArg Scope.locals hscope, hlocals]
      have htype' : m.signature? func.toNat = some func'.type := by
        rw [← hs.funcs, hfunc]
        rfl
      refine ⟨func'.type, htype', ?_, locals, hlocals', carried, stop, floor, _, hwithin, hrow, ?_⟩
      · show f.base + func'.type.params.length ≤ s.stack.size
        omega
      · show s.stack.size - func'.type.params.length + func'.type.results.length = _
        rw [List.length_append]
        omega

/-! ## The block structure -/

/-- An `end` leaves its block, or the function. -/
theorem progress_end (hlocals : f.locals.size = locals.length)
    (hwithin : f.code.Within (f.context m locals) f.base f.labels carried stop floor)
    (hbyte : stop.byte = endOpcode) (hpc : f.pc = stop.pos + 1)
    (hsize : stack.size = floor + stop.types.length) :
    Progress m (closeBlock ⟨space, stack, f⟩) := by
  rw [closeBlock_eq]
  obtain ⟨code, frameLocals, base, pc, labels⟩ := f
  cases hwithin with
  | body pos => exact Nat.le_of_eq hsize.symm
  | block vs outer _ _ _ _ hend _ =>
    have hrow := hend hbyte
    rw [← show pc = stop.pos + 1 from hpc] at hrow
    refine ⟨locals, hlocals, _, _, _, _, outer, hrow, ?_⟩
    rw [List.length_append, ← Nat.add_assoc]
    exact hsize

/-- An `else` leaves its block. -/
theorem progress_else (hlocals : f.locals.size = locals.length)
    (hwithin : f.code.Within (f.context m locals) f.base f.labels carried stop floor)
    (hbyte : stop.byte = elseOpcode) (hsize : stack.size = floor + stop.types.length) :
    Progress m (branch 0 ⟨space, stack, f⟩) := by
  have hcarried : carried[(0 : UInt32).toNat]? = some stop.types := hwithin.carried_of_else hbyte
  exact progress_branch hlocals hwithin hcarried (Nat.le_of_eq hsize.symm)

end

/-! ## Openers -/

namespace Code

variable {c : Code} {C : Context} {base : Nat} {stop : Stop} {head : BlockHead c.types}
  {body thenArm elseArm rest : Body c.types} {vs : List ValType} {t : FuncType}

/-- A body that begins with a leaf, in two parts. -/
theorem Stands.leaf (h : c.Stands pos (.leaf l rest) stop) :
    StandsAt c.body pos l.bytes ∧ c.Stands (pos + l.bytes.length) rest stop := by
  obtain ⟨hleaf, hrest⟩ := Body.standsAt_leaf h.bytes
  have hends := h.ends
  rw [Body.bytes, List.length_append, ← Nat.add_assoc] at hends
  exact ⟨hleaf, hrest, h.blocks, hends⟩

/-- The parts of a block. -/
theorem Stands.nest (h : c.Stands pos (.nest kind head body rest) stop) :
    ∃ endAt, StandsAt c.body pos [kind.opcode] ∧
      c.blocks[pos]? = some ⟨head.opened kind pos none, endAt⟩ ∧
      StandsAt c.body endAt [endOpcode] ∧
      (∀ us, c.Stands (pos + 1 + head.bytes.length) body ⟨endAt, endOpcode, us⟩) ∧
      c.Stands (endAt + 1) rest stop := by
  obtain ⟨hopener, -, hbody, hrest⟩ := Body.standsAt_nest h.bytes
  have hblocks := h.blocks
  have hends := h.ends
  simp only [Body.blocks, List.forall_mem_cons, List.forall_mem_append] at hblocks
  simp only [Body.bytes, List.length_cons, List.length_append] at hends
  exact ⟨_, hopener, hblocks.1, hbody.right, fun us => ⟨hbody, hblocks.2.1, rfl⟩, hrest,
    hblocks.2.2, by omega⟩

/-- The parts of a conditional with two arms. -/
theorem Stands.ifElse (h : c.Stands pos (.ifElse head thenArm elseArm rest) stop) :
    ∃ elseAt endAt, StandsAt c.body pos [BlockKind.cond.opcode] ∧
      c.blocks[pos]? = some ⟨head.opened .cond pos (some elseAt), endAt⟩ ∧
      (∀ us, c.Stands (pos + 1 + head.bytes.length) thenArm ⟨elseAt, elseOpcode, us⟩) ∧
      (∀ us, c.Stands (elseAt + 1) elseArm ⟨endAt, endOpcode, us⟩) ∧
      c.Stands (endAt + 1) rest stop := by
  obtain ⟨hopener, -, hthen, helse, hrest⟩ := Body.standsAt_ifElse h.bytes
  have hblocks := h.blocks
  have hends := h.ends
  simp only [Body.blocks, List.forall_mem_cons, List.forall_mem_append] at hblocks
  simp only [Body.bytes, List.length_cons, List.length_append] at hends
  exact ⟨_, _, hopener, hblocks.1, fun us => ⟨hthen, hblocks.2.1, rfl⟩,
    fun us => ⟨helse, hblocks.2.2.1, rfl⟩, hrest, hblocks.2.2.2, by omega⟩

/-- Inside a block that is closed by an `end`. -/
theorem Within.enter {label : Label} (h : c.Within C base labels carried stop floor)
    (vs : List ValType) (harity : label.arity = ts.length)
    (hheight : label.height = floor + vs.length)
    (hbranch : c.Row C carried label.continuation (vs ++ ts) stop)
    (hrest : c.Row C carried (endAt + 1) (vs ++ results) stop)
    (hinside : c.Row C (ts :: carried) pos params ⟨endAt, endOpcode, results⟩) :
    c.Ready C base (label :: labels) pos (label.height + params.length) := by
  have hwithin : c.Within C base (label :: labels) (ts :: carried) ⟨endAt, endOpcode, results⟩
      (floor + vs.length) :=
    .block vs h harity hheight hbranch (.inr rfl) (fun _ => hrest)
      fun hbyte => absurd hbyte (show endOpcode ≠ elseOpcode by decide)
  rw [hheight]
  exact ⟨_, _, _, params, hwithin, hinside, rfl⟩

/-- Inside the first arm of a conditional. -/
theorem Within.enterArm {label : Label} (h : c.Within C base labels carried stop floor)
    (vs : List ValType) (harity : label.arity = results.length)
    (hheight : label.height = floor + vs.length)
    (hbranch : c.Row C carried label.continuation (vs ++ results) stop)
    (hinside : c.Row C (results :: carried) pos params ⟨elseAt, elseOpcode, results⟩) :
    c.Ready C base (label :: labels) pos (label.height + params.length) := by
  have hwithin : c.Within C base (label :: labels) (results :: carried)
      ⟨elseAt, elseOpcode, results⟩ (floor + vs.length) :=
    .block vs h harity hheight hbranch (.inl rfl)
      (fun hbyte => absurd hbyte (show elseOpcode ≠ endOpcode by decide)) fun _ => rfl
  rw [hheight]
  exact ⟨_, _, _, params, hwithin, hinside, rfl⟩

/-- The block at a position can be entered at a height: as what it takes and leaves says, and where
its condition says, if it has one. -/
def Opens (c : Code) (C : Context) (base : Nat) (labels : List Label) (kind : BlockKind)
    (pos height : Nat) (t : FuncType) : Prop :=
  StandsAt c.body pos [kind.opcode] ∧ ∃ b, c.blocks[pos]? = some b ∧
    b.arity = ⟨t.params.length, t.results.length⟩ ∧
    ∀ taken, (kind = .cond ∨ taken = true) →
      c.Ready C base (Control.labelOf b height :: labels) (Control.entry b taken)
        (height + t.params.length)

/-- Inside a block, its body is typed against the results, and a branch to it carries them. -/
theorem Within.opens_block (h : c.Within C base labels carried stop floor)
    (hstands : c.Stands pos (.nest .block head body rest) stop)
    (hhead : head.type.funcType? c.types = some t)
    (hbody : body.Typed C (t.results :: carried) t.params t.results)
    (hrest : rest.Typed C carried (vs ++ t.results) stop.types) :
    c.Opens C base labels .block pos (floor + vs.length) t := by
  have harity := head.arity_eq hhead
  obtain ⟨endAt, hopener, hb, -, hinside, hafter⟩ := hstands.nest
  refine ⟨hopener, _, hb, harity, fun taken htaken => ?_⟩
  obtain rfl : taken = true := by simpa using htaken
  exact h.enter vs (congrArg Arity.results harity) rfl ⟨rest, hrest, hafter⟩ ⟨rest, hrest, hafter⟩
    ⟨body, hbody, hinside _⟩

/-- A branch to a loop goes to its opener, where the loop stands as before. -/
theorem Within.opens_loop (h : c.Within C base labels carried stop floor)
    (hstands : c.Stands pos (.nest .loop head body rest) stop)
    (hhead : head.type.funcType? c.types = some t)
    (hbody : body.Typed C (t.params :: carried) t.params t.results)
    (hrest : rest.Typed C carried (vs ++ t.results) stop.types) :
    c.Opens C base labels .loop pos (floor + vs.length) t := by
  have harity := head.arity_eq hhead
  obtain ⟨endAt, hopener, hb, -, hinside, hafter⟩ := hstands.nest
  refine ⟨hopener, _, hb, harity, fun taken htaken => ?_⟩
  obtain rfl : taken = true := by simpa using htaken
  exact h.enter vs (congrArg Arity.params harity) rfl
    ⟨_, .loop vs hhead hbody hrest, hstands⟩ ⟨rest, hrest, hafter⟩ ⟨body, hbody, hinside _⟩

/-- A conditional with one arm goes to its `end` when the arm is not taken. -/
theorem Within.opens_cond (h : c.Within C base labels carried stop floor)
    (hstands : c.Stands pos (.nest .cond head body rest) stop)
    (hhead : head.type.funcType? c.types = some t) (hskip : t.params = t.results)
    (hbody : body.Typed C (t.results :: carried) t.params t.results)
    (hrest : rest.Typed C carried (vs ++ t.results) stop.types) :
    c.Opens C base labels .cond pos (floor + vs.length) t := by
  have harity := head.arity_eq hhead
  obtain ⟨endAt, hopener, hb, hend, hinside, hafter⟩ := hstands.nest
  refine ⟨hopener, _, hb, harity, fun taken _ => ?_⟩
  have hsame : c.Row C (t.results :: carried) endAt t.params ⟨endAt, endOpcode, t.results⟩ :=
    ⟨.nil, hskip ▸ .nil t.params, hend, by simp [Body.blocks], rfl⟩
  cases taken with
  | true =>
    exact h.enter vs (congrArg Arity.results harity) rfl ⟨rest, hrest, hafter⟩
      ⟨rest, hrest, hafter⟩ ⟨body, hbody, hinside _⟩
  | false =>
    exact h.enter vs (congrArg Arity.results harity) rfl ⟨rest, hrest, hafter⟩
      ⟨rest, hrest, hafter⟩ hsame

/-- Inside the first arm, `else` follows. -/
theorem Within.opens_ifElse (h : c.Within C base labels carried stop floor)
    (hstands : c.Stands pos (.ifElse head thenArm elseArm rest) stop)
    (hhead : head.type.funcType? c.types = some t)
    (hthen : thenArm.Typed C (t.results :: carried) t.params t.results)
    (helse : elseArm.Typed C (t.results :: carried) t.params t.results)
    (hrest : rest.Typed C carried (vs ++ t.results) stop.types) :
    c.Opens C base labels .cond pos (floor + vs.length) t := by
  have harity := head.arity_eq hhead
  obtain ⟨elseAt, endAt, hopener, hb, hthenAt, helseAt, hafter⟩ := hstands.ifElse
  refine ⟨hopener, _, hb, harity, fun taken _ => ?_⟩
  cases taken with
  | true =>
    exact h.enterArm vs (congrArg Arity.results harity) rfl ⟨rest, hrest, hafter⟩
      ⟨thenArm, hthen, hthenAt _⟩
  | false =>
    exact h.enter vs (congrArg Arity.results harity) rfl ⟨rest, hrest, hafter⟩
      ⟨rest, hrest, hafter⟩ ⟨elseArm, helse, helseAt _⟩

end Code

/-! ## Steps of a frame -/

section

open Control

variable {m : Module} {locals : List ValType} {space : IndexSpace} {stack : Stack} {f : Frame}

/-- A block finds its parameters on the stack. -/
theorem progress_enterBlock {b : Block} {taken : Bool} (hlocals : f.locals.size = locals.length)
    (hsize : stack.size = height + b.arity.params)
    (hready : f.code.Ready (f.context m locals) f.base (labelOf b height :: f.labels)
      (entry b taken) stack.size) :
    Progress m (enterBlock b taken ⟨space, stack, f⟩) := by
  have hparams : ¬ stack.size < b.arity.params := by omega
  have hheight : stack.size - b.arity.params = height := by omega
  rw [enterBlock_eq, if_neg hparams, hheight]
  exact ⟨locals, hlocals, hready⟩

/-- An opener enters its block. If it has a condition, it takes that from the stack before. -/
theorem progress_opener (hlocals : f.locals.size = locals.length)
    (hopens : f.code.Opens (f.context m locals) f.base f.labels kind f.pc height t)
    (hsize : stack.size = height + t.params.length + if kind = .cond then 1 else 0) :
    Progress m (Control.step ⟨space, stack, f⟩) := by
  obtain ⟨hopener, b, hb, harity, hready⟩ := hopens
  have hparams : b.arity.params = t.params.length := by rw [harity]
  rw [step_of_read (reads_opener kind _ _ hopener), Instr.exec,
    openBlock_eq (f := { f with pc := f.pc + [kind.opcode].length }) hb]
  rw [← hparams] at hsize hready
  cases kind with
  | block | loop =>
    have hready := hready true (.inr rfl)
    rw [← show stack.size = height + b.arity.params from hsize] at hready
    exact progress_enterBlock hlocals hsize hready
  | cond =>
    simp only [if_true] at hsize
    obtain ⟨c, stack', hpop, hsize'⟩ := stack.exists_pop (by omega)
    rw [hpop]
    have hsize' : stack'.size = height + b.arity.params := by omega
    refine progress_enterBlock hlocals hsize' ?_
    rw [hsize']
    exact hready _ (.inl rfl)

/-- What ends a body closes a block, or returns from the frame. -/
theorem progress_delimiter (hlocals : f.locals.size = locals.length)
    (hwithin : f.code.Within (f.context m locals) f.base f.labels carried stop floor)
    (hstands : f.code.Stands f.pc .nil stop) (hsize : stack.size = floor + stop.types.length) :
    Progress m (Control.step ⟨space, stack, f⟩) := by
  have hbyteAt : StandsAt f.code.body f.pc [stop.byte] := hstands.bytes
  obtain hbyte | hbyte := hwithin.isDelimiter
  · rw [hbyte] at hbyteAt
    rw [step_of_read (reads_else _ _ hbyteAt)]
    exact progress_else hlocals hwithin hbyte hsize
  · rw [hbyte] at hbyteAt
    rw [step_of_read (reads_end _ _ hbyteAt)]
    exact progress_end hlocals hwithin hbyte (congrArg Nat.succ hstands.ends) hsize

end

/-- An instruction of a frame that is ready does not get stuck. -/
theorem Frame.Ready.step {m : Module} {a : Activation} (h : a.frame.Ready m a.stack.size)
    (hs : a.space.Fits m) : Progress m (Control.step a) := by
  obtain ⟨space, stack, f⟩ := a
  obtain ⟨locals, hlocals, carried, stop, floor, ts, hwithin, ⟨b, htyped, hstands⟩, hsize⟩ := h
  dsimp only at hlocals hwithin htyped hstands hsize hs
  cases htyped with
  | nil => exact progress_delimiter hlocals hwithin hstands hsize
  | leaf vs hl hrest =>
    obtain ⟨hleaf, hstands'⟩ := hstands.leaf
    rw [Control.step_of_read ((Leaf.spelled _).read _ _ hleaf)]
    exact progress_leaf (f := ⟨f.code, f.locals, f.base, f.pc + _, f.labels⟩) hs hlocals hwithin
      ⟨_, hrest, hstands'⟩ hl hsize _
  | block vs hhead hbody hrest =>
    exact progress_opener hlocals (hwithin.opens_block hstands hhead hbody hrest)
      (by simp at hsize ⊢; omega)
  | loop vs hhead hbody hrest =>
    exact progress_opener hlocals (hwithin.opens_loop hstands hhead hbody hrest)
      (by simp at hsize ⊢; omega)
  | cond vs hhead hskip hbody hrest =>
    exact progress_opener hlocals (hwithin.opens_cond hstands hhead hskip hbody hrest)
      (by simp at hsize ⊢; omega)
  | ifElse vs hhead hthen helse hrest =>
    exact progress_opener hlocals (hwithin.opens_ifElse hstands hhead hthen helse hrest)
      (by simp at hsize ⊢; omega)

end Wasm
