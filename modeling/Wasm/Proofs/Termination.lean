import Wasm.Proofs.Limits
import Wasm.Proofs.Lockstep

/-!
# Wasm.Proofs.Termination

Code without loops comes to an end, however its functions call each other.

* `Frame.InStep.lt_pc`: in code without loops, an instruction that does not return leaves its frame
  further on in its body.
* `Machine.cost`: how far the frames are from the ends of their bodies. A frame that calls goes on
  by at least one byte, and that outweighs the whole body that is called
  (`Machine.cost_lt_of_call`). So every step of a machine lowers its cost (`Machine.Runs.cost_lt`),
  and the cost of the machine that a call starts bounds the number of its steps.
* `Func.Arises`: functions are of the host, or they come from linking.
* `callBy_terminates` is the result.
-/

namespace Wasm

/-- No block of the code is a loop. -/
def Code.LoopFree (c : Code) : Prop :=
  ∀ (start : Nat) (b : Block), c.blocks[start]? = some b → b.kind ≠ .loop

theorem Code.loopFree_iff {c : Code} :
    c.LoopFree ↔ ∀ p ∈ c.blocks.toList, p.2.kind ≠ .loop := by
  constructor
  · intro h p hp
    exact h p.1 p.2 (Std.TreeMap.mem_toList_iff_getElem?_eq_some.mp hp)
  · intro h start b hb
    exact h (start, b) (Std.TreeMap.mem_toList_iff_getElem?_eq_some.mpr hb)

instance (c : Code) : Decidable c.LoopFree :=
  decidable_of_iff _ Code.loopFree_iff.symm

/-- The code is analyzed and has no loops, and its body has fewer than `base` bytes. -/
structure Code.Ends (base : Nat) (c : Code) : Prop where
  analyzed : c.Analyzed
  loopFree : c.LoopFree
  size : c.body.size < base

/-! ## One instruction -/

namespace Frame

variable {f f' : Frame} {space space' : IndexSpace} {stack stack' : Stack}

/-- Without loops, a branch leads behind the block that it leaves, so it goes forward. -/
theorem InStep.lt_continuation (h : f.InStep) (hc : f.code.Analyzed) (hloop : f.code.LoopFree)
    (hdrop : f.labels.drop depth = label :: outer) : f.pc < label.continuation := by
  obtain ⟨o, around, b, ⟨b', hb', -, hlabel⟩, -, hb, ho, -, hle⟩ := h.exists_opened hc hdrop
  obtain rfl : b = b' := Option.some.inj (hb.symm.trans hb')
  have hkind : b.kind = o.kind := congrArg (·.kind) ho
  cases hk : o.kind with
  | loop => exact absurd (hkind.trans hk) (hloop o.start b hb)
  | block | cond =>
    rw [hk] at hlabel
    rw [hlabel.1]
    exact Nat.lt_succ_of_le hle

theorem InStep.le_pc (h : f.InStep) (hc : f.code.Analyzed) (hloop : f.code.LoopFree)
    (hleads : Instr.LeadsTo f f') : f.pc ≤ f'.pc := by
  cases hleads with
  | next locals => exact Nat.le_refl f.pc
  | branch depth hdrop => exact Nat.le_of_lt (h.lt_continuation hc hloop hdrop)

/-- A block is entered behind its opener. -/
theorem lt_entry (h : Scan.Targets body types b outer) (taken : Bool) :
    b.start < Control.entry b taken := by
  cases taken with
  | true =>
    rw [Control.entry, if_pos rfl]
    omega
  | false =>
    rw [Control.entry, if_neg Bool.false_ne_true]
    split
    · next elseAt helse =>
      obtain ⟨blocks, hvisited⟩ := h.elseArm helse
      exact (hvisited.opened_from (List.suffix_refl _)).1
    · obtain ⟨blocks, hvisited⟩ := h.blockEnd
      exact (hvisited.opened_from (List.suffix_refl _)).1

/-- A boundary of an accepted body lies before its end: an instruction stands there. -/
theorem InStep.pc_lt_size (h : f.InStep) (hc : f.code.Analyzed) : f.pc < f.code.body.size := by
  obtain ⟨opened, ⟨blocks, hvisited⟩, -⟩ := h
  obtain ⟨o, hmove⟩ := hvisited.exists_move hc
  have hstands : ∃ b bs, StandsAt f.code.body f.pc (b :: bs) := by
    cases hmove with
    | leaf l hl =>
      obtain ⟨opcode, imm, hbytes, -⟩ := l.exists_opcode
      exact ⟨opcode, imm, hbytes ▸ hl⟩
    | opener kind head hhead => exact ⟨_, _, hhead⟩
    | elseArm helse => exact ⟨_, _, helse⟩
    | close hend => exact ⟨_, _, hend⟩
    | finish hend => exact ⟨_, _, hend⟩
  obtain ⟨b, bs, hbs⟩ := hstands
  have hle := hbs.le_size
  rw [List.length_cons] at hle
  omega

/-- In code without loops, an instruction moves its frame forward, unless the frame returns. -/
theorem InStep.lt_pc (h : f.InStep) (hc : f.code.Analyzed) (hloop : f.code.LoopFree)
    (hstep : Control.step ⟨space, stack, f⟩ = .ok flow ⟨space', stack', f'⟩)
    (hflow : flow ≠ .ret) : f.pc < f'.pc := by
  obtain ⟨opened, ⟨blocks, hvisited⟩, hlabels⟩ := h
  obtain ⟨o, hmove⟩ := hvisited.exists_move hc
  cases hmove with
  | leaf l hl =>
    rw [Control.step_of_read (l.spelled.read _ _ hl)] at hstep
    obtain ⟨opcode, imm, hbytes, -⟩ := l.exists_opcode
    have hnext : InStep { f with pc := f.pc + l.bytes.length } :=
      ⟨opened, (hvisited.move (.leaf l hl)).boundary, hlabels⟩
    have hle := hnext.le_pc hc hloop (l.spelled.leadsTo hstep hflow)
    simp only [hbytes, List.length_cons] at hle
    omega
  | opener kind head hhead =>
    rw [Control.step_of_read (reads_opener kind _ _ hhead.head)] at hstep
    obtain ⟨b, hb, ho, htargets⟩ := exists_opened_block (f := f) hc
      (hvisited.move (.opener kind head hhead))
    obtain ⟨taken, height, rfl⟩ := openBlock_frame (f := { f with pc := f.pc + 1 }) hb hstep
    have hstart : b.start = f.pc := congrArg (·.start) ho
    rw [← hstart]
    exact lt_entry htargets taken
  | elseArm helse hopened hkind hfirst =>
    rw [Control.step_of_read (reads_else _ _ helse)] at hstep
    have hnext : InStep f := ⟨opened, ⟨blocks, hvisited⟩, hlabels⟩
    -- The labels are those of the frame itself, so its branch leads behind the block.
    cases Instr.leadsTo_of_branch (f := { f with pc := f.pc + 1 }) hstep hflow with
    | next locals => exact Nat.lt_succ_self f.pc
    | branch depth hdrop => exact hnext.lt_continuation hc hloop hdrop
  | close hend | finish hend =>
    rw [Control.step_of_read (reads_end _ _ hend), Instr.exec, Control.closeBlock_eq] at hstep
    split at hstep
    · cases hstep
      exact Nat.lt_succ_self f.pc
    · cases hstep
      exact absurd rfl hflow

/-- How many bytes of its body a frame has before it. -/
def left (f : Frame) : Nat := f.code.body.size - f.pc

theorem left_lt (hcode : f'.code = f.code) (hpc : f.pc < f'.pc) (hsize : f.pc < f.code.body.size) :
    f'.left < f.left := by
  rw [left, left, hcode]
  omega

end Frame

namespace Machine

/-! ## The cost of a machine -/

/-- What frames have before them, the outermost one first. A byte of a frame weighs as much as
`base` bytes of the frame that it calls. -/
def framesCost (base : Nat) : (exponent : Nat) → List Frame → Nat
  | _, [] => 0
  | exponent, f :: inner => f.left * base ^ exponent + framesCost base (exponent - 1) inner

theorem framesCost_concat (base exponent : Nat) (fs : List Frame) (f : Frame) :
    framesCost base exponent (fs ++ [f]) =
      framesCost base exponent fs + f.left * base ^ (exponent - fs.length) := by
  induction fs generalizing exponent with
  | nil => simp [framesCost]
  | cons g fs ih =>
    have hexponent : exponent - 1 - fs.length = exponent - (g :: fs).length := by
      rw [List.length_cons]
      omega
    rw [List.cons_append, framesCost, framesCost, ih, hexponent, Nat.add_assoc]

/-- The cost of all frames of a machine that may have `depth` of them. -/
def cost (base depth : Nat) (m : Machine) : Nat :=
  framesCost base (depth - 1) (m.callers.toList ++ [m.frame])

variable {base depth : Nat} {m m' : Machine}

/-- The running frame goes on. -/
theorem cost_lt_of_next (hbase : 0 < base) (hcallers : m'.callers = m.callers)
    (hleft : m'.frame.left < m.frame.left) : m'.cost base depth < m.cost base depth := by
  rw [cost, cost, framesCost_concat, framesCost_concat, hcallers]
  exact Nat.add_lt_add_left (Nat.mul_lt_mul_of_pos_right hleft (Nat.pow_pos hbase)) _

/-- The running frame is left before its end. -/
theorem cost_lt_of_back (hbase : 0 < base) (hcallers : m.callers = m'.callers.push m'.frame)
    (hleft : 0 < m.frame.left) : m'.cost base depth < m.cost base depth := by
  rw [cost, cost, hcallers, Array.toList_push, framesCost_concat _ _ (_ ++ _)]
  exact Nat.lt_add_of_pos_right (Nat.mul_pos hleft (Nat.pow_pos hbase))

/-- The running frame goes on and calls: the body that is called costs less than the byte that the
frame has gone on. -/
theorem cost_lt_of_call (hcallers : m'.callers = m.callers.push f) (hleft : f.left < m.frame.left)
    (hcallee : m'.frame.left < base) (hdepth : m.callers.size + 2 ≤ depth) :
    m'.cost base depth < m.cost base depth := by
  obtain ⟨e, he⟩ : ∃ e, depth - 1 - m.callers.size = e + 1 :=
    ⟨depth - 1 - m.callers.size - 1, by omega⟩
  have hinner : depth - 1 - (m.callers.toList ++ [f]).length = e := by
    rw [List.length_append, List.length_singleton, Array.length_toList]
    omega
  rw [cost, cost, hcallers, Array.toList_push, framesCost_concat, framesCost_concat,
    framesCost_concat, hinner, Array.length_toList, he, Nat.add_assoc]
  refine Nat.add_lt_add_left ?_ _
  calc f.left * base ^ (e + 1) + m'.frame.left * base ^ e
      < f.left * base ^ (e + 1) + base * base ^ e :=
        Nat.add_lt_add_left (Nat.mul_lt_mul_of_pos_right hcallee (Nat.pow_pos (by omega))) _
    _ = (f.left + 1) * base ^ (e + 1) := by rw [Nat.add_mul, Nat.one_mul, Nat.pow_succ']
    _ ≤ m.frame.left * base ^ (e + 1) := Nat.mul_le_mul_right _ hleft

/-! ## Runs -/

/-- A machine that runs the functions `fs`, in step with the scan of their bodies. -/
structure Runs (config : EngineConfig) (fs : Array Func) (m : Machine) : Prop where
  funcs : m.store.space.funcs = fs
  code : ∀ f ∈ m.frame :: m.callers.toList, .code f.code ∈ fs
  inStep : m.InStep
  depth : m.callers.size < config.maxFrames

variable {config : EngineConfig} {fs : Array Func}

theorem Runs.step (h : m.Runs config fs) (hstep : m.step config = .running m') :
    m'.Runs config fs := by
  have ht : Transition config m (.running m') := hstep ▸ m.step_cases config
  have hfuncs : m'.store.space.funcs = fs := ht.evolves.space.funcs.trans h.funcs
  have hinStep : m'.InStep := h.inStep.step hstep
  obtain ⟨hframe, hcallers⟩ := List.forall_mem_cons.mp h.code
  cases ht with
  | next fuel hcontrol =>
    have hcode := (Control.evolves_step.of_ok hcontrol).code
    exact ⟨hfuncs, List.forall_mem_cons.mpr ⟨hcode ▸ hframe, hcallers⟩, hinStep, h.depth⟩
  | ret fuel hcontrol hexit =>
    cases hexit with
    | @back _ caller outer _ hback =>
      have hback : m.callers = outer.push caller := hback
      have hdepth := h.depth
      rw [hback, Array.toList_push, List.forall_mem_append, List.forall_mem_singleton] at hcallers
      rw [hback, Array.size_push] at hdepth
      exact ⟨hfuncs, List.forall_mem_cons.mpr ⟨hcallers.2, hcallers.1⟩, hinStep,
        Nat.lt_of_succ_lt hdepth⟩
  | call fuel hcontrol hentry =>
    have hcode := (Control.evolves_step.of_ok hcontrol).code
    cases hentry with
    | host =>
      exact ⟨hfuncs, List.forall_mem_cons.mpr ⟨hcode ▸ hframe, hcallers⟩, hinStep, h.depth⟩
    | @entered c callee s hf henter hdepth =>
      obtain ⟨args, -, hstore, rfl⟩ := Store.enter_eq_ok henter
      rw [hstore, hfuncs] at hf
      refine ⟨hfuncs, List.forall_mem_cons.mpr ⟨Array.mem_of_getElem? hf, ?_⟩, hinStep, ?_⟩
      · rw [Array.toList_push, List.forall_mem_append, List.forall_mem_singleton]
        exact ⟨hcallers, hcode ▸ hframe⟩
      · rw [Array.size_push]
        exact Nat.lt_of_lt_of_le hdepth (Nat.le_max_right 1 _)

/-- The running frame is in step with code that ends. -/
theorem Runs.frame (h : m.Runs config fs) (hends : ∀ c, .code c ∈ fs → c.Ends base) :
    m.frame.code.Ends base ∧ m.frame.InStep := by
  have hcode := hends _ (h.code m.frame List.mem_cons_self)
  exact ⟨hcode, h.inStep m.frame List.mem_cons_self hcode.analyzed⟩

/-- An instruction that does not return brings the running frame closer to the end of its body. -/
theorem Runs.left_lt (h : m.Runs config fs) (hends : ∀ c, .code c ∈ fs → c.Ends base)
    (hcontrol : Control.step m.activation = .ok flow a) (hflow : flow ≠ .ret) :
    a.frame.left < m.frame.left := by
  obtain ⟨⟨hanalyzed, hloop, -⟩, hinStep⟩ := h.frame hends
  exact Frame.left_lt (Control.evolves_step.of_ok hcontrol).code
    (hinStep.lt_pc hanalyzed hloop hcontrol hflow) (hinStep.pc_lt_size hanalyzed)

theorem Runs.left_pos (h : m.Runs config fs) (hends : ∀ c, .code c ∈ fs → c.Ends base) :
    0 < m.frame.left := by
  obtain ⟨hcode, hinStep⟩ := h.frame hends
  exact Nat.sub_pos_of_lt (hinStep.pc_lt_size hcode.analyzed)

theorem Runs.left_lt_base (h : m.Runs config fs) (hends : ∀ c, .code c ∈ fs → c.Ends base) :
    m.frame.left < base :=
  Nat.lt_of_le_of_lt (Nat.sub_le _ _) (h.frame hends).1.size

/-- Every step lowers the cost. -/
theorem Runs.cost_lt (h : m.Runs config fs) (hends : ∀ c, .code c ∈ fs → c.Ends base)
    (hbase : 0 < base) (hstep : m.step config = .running m') :
    m'.cost base config.maxFrames < m.cost base config.maxFrames := by
  have ht : Transition config m (.running m') := hstep ▸ m.step_cases config
  have hruns : m'.Runs config fs := h.step hstep
  cases ht with
  | next fuel hcontrol => exact cost_lt_of_next hbase rfl (h.left_lt hends hcontrol nofun)
  | ret fuel hcontrol hexit =>
    cases hexit with
    | back _ hback => exact cost_lt_of_back hbase hback (h.left_pos hends)
  | call fuel hcontrol hentry =>
    have hleft := h.left_lt hends hcontrol nofun
    cases hentry with
    | host => exact cost_lt_of_next hbase rfl hleft
    | entered _ _ hdepth =>
      refine cost_lt_of_call rfl hleft (hruns.left_lt_base hends) ?_
      exact Nat.le_trans hdepth (Nat.le_max_right 1 _)

/-- A machine does not run for more steps than its cost. -/
theorem Runs.cost_run (h : m.Runs config fs) (hends : ∀ c, .code c ∈ fs → c.Ends base)
    (hbase : 0 < base) (hrun : m.run config n = .running m') :
    m'.cost base config.maxFrames + n ≤ m.cost base config.maxFrames := by
  induction n generalizing m with
  | zero =>
    cases hrun
    exact Nat.le_refl _
  | succ n ih =>
    rw [Machine.run] at hrun
    split at hrun
    · next m₁ hstep =>
      have hlt := h.cost_lt hends hbase hstep
      have hle := ih (h.step hstep) hrun
      omega
    · next hne => exact absurd hrun (hne m')

theorem runs_entered (hc : .code c ∈ s.space.funcs)
    (henter : Store.enter config c s = .ok f s') :
    Runs config s.space.funcs ⟨s', f, #[]⟩ := by
  obtain ⟨hpc, hlabels⟩ := Store.enter_fresh henter
  obtain ⟨args, -, hstore, rfl⟩ := Store.enter_eq_ok henter
  refine ⟨by rw [hstore], List.forall_mem_singleton.mpr hc, ?_, ?_⟩
  · exact List.forall_mem_singleton.mpr fun _ => Frame.inStep_of_fresh hpc hlabels
  · exact Nat.lt_of_lt_of_le Nat.zero_lt_one (Nat.le_max_left 1 _)

/-- From its first instruction on, code runs for fewer steps than the bound. -/
theorem run_ne_running (hc : .code c ∈ s.space.funcs)
    (henter : Store.enter config c s = .ok f s')
    (hends : ∀ c, .code c ∈ s.space.funcs → c.Ends base)
    (hn : base ^ config.maxFrames ≤ n) : run config n ⟨s', f, #[]⟩ ≠ .running m := by
  intro hrun
  have hruns := runs_entered hc henter
  have hleft : f.left < base := hruns.left_lt_base hends
  have hbase : 0 < base := Nat.zero_lt_of_lt hleft
  obtain ⟨depth, hdepth⟩ : ∃ depth, config.maxFrames = depth + 1 :=
    Nat.exists_eq_add_one.mpr (Nat.lt_of_lt_of_le Nat.zero_lt_one (Nat.le_max_left 1 _))
  have hcost : cost base config.maxFrames ⟨s', f, #[]⟩ < base ^ config.maxFrames := by
    rw [cost, hdepth, Nat.add_sub_cancel, framesCost_concat, Nat.pow_succ']
    simpa [framesCost] using Nat.mul_lt_mul_of_pos_right hleft (Nat.pow_pos hbase)
  have hle := hruns.cost_run hends hbase hrun
  omega

end Machine

/-! ## Functions that come from linking -/

/-- A function of the host, or one of a module that was linked against such functions. -/
inductive Func.Arises : Func → Prop where
  | host (f : HostFunc) : Arises (.host f)
  | linked {m : Module} {imports : Imports}
      (himports : ∀ i g, Link.lookup imports i = .ok (.func g) → Arises g)
      (hlink : m.link imports = .ok s) (hf : f ∈ s.funcs) : Arises f

/-- Code is analyzed when it is linked. -/
theorem Func.Arises.analyzed (h : Func.Arises f) (hf : f = .code c) : c.Analyzed := by
  induction h with
  | host => contradiction
  | @linked s f m imports himports hlink hmem ih =>
    obtain ⟨k, hk⟩ := Array.getElem?_of_mem hmem
    have hlinked : m.Linked imports s := Module.linked_of_link hlink
    by_cases himported : k < m.importCount .func
    · obtain ⟨i, -, -, hlookup⟩ := hlinked.imported k f himported hk
      exact ih i f hlookup hf
    · obtain ⟨type, c', rfl, -, hdefines⟩ := hlinked.defined k f (Nat.le_of_not_lt himported) hk
      cases hf
      exact hdefines.blocks

/-- The functions of an instance, whatever has been called, arise if those that it imports do. -/
theorem Module.arises_of_instantiate {m : Module} {imports : Imports}
    (himports : ∀ i g, Link.lookup imports i = .ok (.func g) → g.Arises)
    (h : m.instantiate imports config steps = some ⟨.ok i, hostCalls⟩) :
    ∀ f ∈ i.space.funcs, f.Arises := by
  obtain ⟨space, exports, hlink, -, hhistory⟩ := history_of_instantiate h
  have hfuncs : i.space.funcs = space.funcs := (hhistory.evolves rfl).space.funcs
  intro f hf
  exact .linked himports hlink (hfuncs ▸ hf)

/-- The number of bytes in the body of a function. -/
def Func.length : Func → Nat
  | .code c => c.body.size
  | .host _ => 0

/-- The number of bytes in the longest body. -/
def IndexSpace.longest (s : IndexSpace) : Nat :=
  s.funcs.toList.foldr (fun f n => max f.length n) 0

theorem IndexSpace.length_le_longest {s : IndexSpace} (h : f ∈ s.funcs) : f.length ≤ s.longest := by
  rw [← Array.mem_toList_iff] at h
  unfold longest
  generalize s.funcs.toList = fs at h
  induction h with
  | head fs => exact Nat.le_max_left _ _
  | tail g _ ih => exact Nat.le_trans ih (Nat.le_max_right _ _)

namespace Instance

theorem execute_ne_running {i : Instance} (hends : ∀ c, .code c ∈ i.space.funcs → c.Ends base)
    (hn : base ^ i.config.maxFrames ≤ n) (index : UInt32) (args : List Value) (m : Machine) :
    i.execute n index args ≠ .running m := by
  intro hrunning
  have hexec := i.execute_cases n index args
  rw [hrunning] at hexec
  cases hexec with
  | entered hf henter ho =>
    exact Machine.run_ne_running (Array.mem_of_getElem? hf) henter hends hn ho

/-- A call whose execution is over by `n` steps has its result from then on. -/
theorem exists_call_of_execute {i : Instance}
    (h : ∀ m, i.execute n index args ≠ .running m) :
    ∃ r, ∀ steps, n ≤ steps → i.call steps index args = some r := by
  have hover : ∀ steps, n ≤ steps → i.execute steps index args = i.execute n index args :=
    fun steps hle => execute_of_le hle rfl h
  simp only [call]
  cases i.space.funcs[index.toNat]? with
  | none => exact ⟨_, fun _ _ => rfl⟩
  | some f =>
    by_cases htypes : args.map Value.type = f.type.params
    · simp only [if_pos htypes]
      cases hfinish : i.finish f.type (i.execute n index args) with
      | none =>
        obtain ⟨m, hm⟩ := (i.finish_eq_none_iff _ _).mp hfinish
        exact absurd hm (h m)
      | some r =>
        refine ⟨r, fun steps hle => ?_⟩
        rw [hover steps hle, hfinish]
    · simp only [if_neg htypes]
      exact ⟨_, fun _ _ => rfl⟩

end Instance

/-- Code without loops terminates. In an instance in which no function of code has a loop, a call of
any function, by its index or its name, with any arguments is over after a number of instructions
that the instance bounds: with values or a trap, whatever its functions branch to, and however they
call each other. -/
theorem callBy_terminates {i : Instance} (hi : ∀ f ∈ i.space.funcs, f.Arises)
    (hloop : ∀ c, .code c ∈ i.space.funcs → c.LoopFree) (args : List Value)
    (callee : Instance.Callee) :
    ∃ r, ∀ steps, (i.space.longest + 1) ^ i.config.maxFrames ≤ steps →
      i.callBy steps args callee = some r := by
  have hends : ∀ c, .code c ∈ i.space.funcs → c.Ends (i.space.longest + 1) := fun c hc =>
    ⟨(hi _ hc).analyzed rfl, hloop c hc, Nat.lt_succ_of_le (IndexSpace.length_le_longest hc)⟩
  obtain ⟨index, -, hcall⟩ | ⟨-, t, hrefused⟩ := i.callBy_cases callee
  · simp only [hcall]
    exact Instance.exists_call_of_execute
      (Instance.execute_ne_running hends (Nat.le_refl _) index args)
  · exact ⟨_, fun steps _ => hrefused steps args⟩

/-- Two functions that call each other, one of them through a table, with a branch on the way. -/
def pingPong : Module where
  types := #[⟨[], []⟩]
  funcs := #[0, 0]
  tables := #[⟨1, none⟩]
  elements := #[⟨0, ⟨.i32Const, #[0x00]⟩, #[0]⟩]
  codes := #[⟨#[], #[0x02, 0x40, 0x0C, 0x00, 0x0B, 0x10, 0x01, 0x0B]⟩,
    ⟨#[], #[0x41, 0x00, 0x11, 0x00, 0x00, 0x0B]⟩]

set_option maxRecDepth 4000 in
/-- With room for three frames, the functions call each other until there is no room left. -/
theorem callBy_terminates_pingPong :
    ∃ i r, pingPong.instantiate ∅ { maxCallDepth := 3 } 0 = some ⟨.ok i, #[]⟩ ∧
      (∀ f ∈ i.space.funcs, f.Arises) ∧ (∀ c, .code c ∈ i.space.funcs → c.LoopFree) ∧
      (∀ steps, 9 ^ 3 ≤ steps → i.callBy steps [] (.index 0) = some r) ∧
      r.outcome = .error .callStackExhausted := by
  obtain ⟨i, c, c', r, hi, hfuncs, hlongest, hframes, hc, hc', hr, houtcome⟩ : ∃ i c c' r,
      pingPong.instantiate ∅ { maxCallDepth := 3 } 0 = some ⟨.ok i, #[]⟩ ∧
      i.space.funcs = #[.code c, .code c'] ∧ i.space.longest = 8 ∧ i.config.maxFrames = 3 ∧
      c.LoopFree ∧ c'.LoopFree ∧ i.callBy (9 ^ 3) [] (.index 0) = some r ∧
      r.outcome = .error .callStackExhausted := by
    refine ⟨?i, ?c, ?c', ?r, ?created, ?funcs, ?longest, ?frames, ?first, ?second, ?called,
      ?exhausted⟩
    case created =>
      cbv
      rfl
    case funcs => rfl
    case longest => rfl
    case frames => rfl
    case first => decide
    case second => decide
    case called =>
      cbv
      rfl
    case exhausted => rfl
  have hnone : ∀ imp g, Link.lookup ∅ imp = .ok (.func g) → g.Arises := by
    intro imp g h
    simp only [Link.lookup, NameMap.get?_empty] at h
    split at h <;> split at h <;> contradiction
  have harises : ∀ f ∈ i.space.funcs, f.Arises := Module.arises_of_instantiate hnone hi
  have hloop : ∀ c, .code c ∈ i.space.funcs → c.LoopFree := by
    intro d hd
    rw [hfuncs] at hd
    simp only [List.mem_toArray, List.mem_cons, Func.code.injEq, List.not_mem_nil, or_false] at hd
    obtain rfl | rfl := hd
    · exact hc
    · exact hc'
  obtain ⟨r', hterminates⟩ := callBy_terminates harises hloop [] (.index 0)
  rw [hlongest, hframes] at hterminates
  obtain rfl : r = r' := Option.some.inj (hr.symm.trans (hterminates _ (Nat.le_refl _)))
  exact ⟨i, r, hi, harises, hloop, hterminates, houtcome⟩

end Wasm
