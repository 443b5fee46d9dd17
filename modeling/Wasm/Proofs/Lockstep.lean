import Mathlib.Data.List.Forall2
import Wasm.Machine
import Wasm.Proofs.Blame
import Wasm.Proofs.Boundary

/-!
# Wasm.Proofs.Lockstep

Execution keeps in step with the scan: a frame stands at a boundary between instructions, and has
the labels of the blocks that the scan has open there.

* `Frame.InStep` is the invariant; `Frame.InStep.step` says that an instruction keeps it.
* `Frame.InStep.fault`: in such a frame, only a branch past the outermost block and a byte that is
  no opcode trap with the body to blame.
* `Machine.InStep.run` takes the invariant through calls and returns.
-/

namespace Wasm

/-- The label of the open block `o`, where `map` says how the block ends. -/
def Label.Marks (map : BlockMap) (l : Label) (o : OpenBlock) : Prop :=
  ∃ b : Block, map[o.start]? = some b ∧ b.opener = o.opener ∧
    match o.kind with
    | .loop => l.continuation = o.start ∧ l.arity = o.arity.params
    | .block | .cond => l.continuation = b.endAt + 1 ∧ l.arity = o.arity.results

/-- The blocks of the code are those of its body. -/
def Code.Analyzed (c : Code) : Prop :=
  analyzeBlocks c.body c.types = .ok c.blocks

/-- The frame stands at a boundary, with the labels of the blocks that are open there. -/
def Frame.InStep (f : Frame) : Prop :=
  ∃ opened, Scan.Boundary f.code.body f.code.types f.pc opened ∧
    List.Forall₂ (Label.Marks f.code.blocks) f.labels opened

/-! ## Labels -/

/-- A label does not depend on whether the second arm has been seen. -/
theorem Label.Marks.congr (h : Label.Marks map l o) (ho : o'.opener = o.opener) :
    Label.Marks map l o' := by
  obtain ⟨b, hb, hopener, hlabel⟩ := h
  have hstart : o'.start = o.start := congrArg (·.start) ho
  have hkind : o'.kind = o.kind := congrArg (·.kind) ho
  have harity : o'.arity = o.arity := congrArg (·.arity) ho
  unfold Label.Marks
  rw [hstart, hkind, harity, ho]
  exact ⟨b, hb, hopener, hlabel⟩

/-- The label that execution gives to a block is the label of the block. -/
theorem Label.marks_labelOf (hb : map[o.start]? = some b) (ho : b.opener = o.opener)
    (height : Nat) : (Control.labelOf b height).Marks map o := by
  have hstart : b.start = o.start := congrArg (·.start) ho
  have hkind : b.kind = o.kind := congrArg (·.kind) ho
  have harity : b.arity = o.arity := congrArg (·.arity) ho
  refine ⟨b, hb, ho, ?_⟩
  rw [Control.labelOf, hkind, harity, hstart]
  cases o.kind <;> exact ⟨rfl, rfl⟩

namespace Frame

variable {f f' : Frame} {space space' : IndexSpace} {stack stack' : Stack}

/-! ## One instruction -/

/-- A label is that of a block that is open at the boundary, which does not lie behind the block. -/
theorem InStep.exists_opened (hc : f.code.Analyzed) (h : f.InStep)
    (hdrop : f.labels.drop depth = label :: outer) :
    ∃ (o : OpenBlock) (around : List OpenBlock) (b : Block),
      Label.Marks f.code.blocks label o ∧
      List.Forall₂ (Label.Marks f.code.blocks) outer around ∧
      f.code.blocks[o.start]? = some b ∧ b.opener = o.opener ∧
      Scan.Targets f.code.body f.code.types b around ∧ f.pc ≤ b.endAt := by
  obtain ⟨opened, hboundary, hlabels⟩ := h
  have hdropped := List.forall₂_drop depth hlabels
  rw [hdrop] at hdropped
  cases hopened : opened.drop depth with
  | nil =>
    rw [hopened] at hdropped
    nomatch hdropped
  | cons o around =>
    rw [hopened] at hdropped
    obtain ⟨hlabel, houter⟩ := List.forall₂_cons.mp hdropped
    obtain ⟨b, hb, ho, htargets, hle⟩ :=
      hboundary.exists_block hc (hopened ▸ List.drop_suffix depth opened)
    exact ⟨o, around, b, hlabel, houter, hb, ho, htargets, hle⟩

/-- A branch goes to a boundary of the block structure, with the labels of the blocks around it. -/
theorem InStep.branch (hc : f.code.Analyzed) (h : f.InStep)
    (hdrop : f.labels.drop depth = label :: outer) :
    InStep { f with pc := label.continuation, labels := outer } := by
  obtain ⟨o, around, b, ⟨b', hb', -, hlabel⟩, houter, hb, ho, htargets, -⟩ :=
    h.exists_opened hc hdrop
  obtain rfl : b = b' := Option.some.inj (hb.symm.trans hb')
  refine ⟨around, ?_, houter⟩
  cases hkind : o.kind with
  | loop =>
    rw [hkind] at hlabel
    have hstart : b.start = o.start := congrArg (·.start) ho
    have hopener := htargets.opener
    rwa [hstart, ← hlabel.1] at hopener
  | block | cond =>
    rw [hkind] at hlabel
    have hafter := htargets.after
    rwa [← hlabel.1] at hafter

/-- An instruction outside the block structure goes on or branches. -/
theorem InStep.leadsTo (hc : f.code.Analyzed) (h : f.InStep) (hleads : Instr.LeadsTo f f') :
    f'.InStep := by
  cases hleads with
  | next locals => exact h
  | branch depth hdrop => exact h.branch hc hdrop

/-- The opener at a boundary has an entry in the map, and the places that the entry names are
boundaries. -/
theorem exists_opened_block (hc : f.code.Analyzed)
    (hentered : Scan.Visited f.code.body f.code.types (Scan.entered kind head s)) :
    ∃ b : Block, f.code.blocks[s.pos]? = some b ∧
      b.opener = (head.opened kind s.pos none).opener ∧
      Scan.Targets f.code.body f.code.types b s.opened := by
  obtain ⟨b, hb, ho, htargets, -⟩ := hentered.boundary.exists_block hc (List.suffix_refl _)
  exact ⟨b, hb, ho, htargets⟩

/-- Entering a block leads to a boundary inside it. -/
theorem InStep.enter (hentered : Scan.Visited f.code.body f.code.types (Scan.entered kind head s))
    (hlabels : List.Forall₂ (Label.Marks f.code.blocks) f.labels s.opened)
    (hb : f.code.blocks[s.pos]? = some b) (ho : b.opener = (head.opened kind s.pos none).opener)
    (htargets : Scan.Targets f.code.body f.code.types b s.opened) (taken : Bool) (height : Nat) :
    InStep { f with
      pc := Control.entry b taken
      labels := Control.labelOf b height :: f.labels } := by
  have hstart : b.start = s.pos := congrArg (·.start) ho
  have hlength : b.immediateLength = head.bytes.length := congrArg (·.immediateLength) ho
  have hmarks : (Control.labelOf b height).Marks f.code.blocks b.toOpenBlock :=
    Label.marks_labelOf (by rw [hstart, hb]) rfl height
  cases taken with
  | true =>
    refine ⟨_, ?_, .cons (Label.marks_labelOf hb ho height) hlabels⟩
    rw [Control.entry, if_pos rfl, hstart, hlength]
    exact hentered.boundary
  | false =>
    rw [Control.entry, if_neg (by decide)]
    split
    · next elseAt helse => exact ⟨_, htargets.elseArm helse, .cons hmarks hlabels⟩
    · exact ⟨_, htargets.blockEnd, .cons hmarks hlabels⟩

/-- What an opener makes of its frame. -/
theorem openBlock_frame (hb : f.code.blocks[start]? = some b)
    (h : Control.openBlock start kind ⟨space, stack, f⟩ = .ok flow ⟨space', stack', f'⟩) :
    ∃ taken height, f' = { f with
      pc := Control.entry b taken
      labels := Control.labelOf b height :: f.labels } := by
  have henter : ∀ {stack taken},
      Control.enterBlock b taken ⟨space, stack, f⟩ = .ok flow ⟨space', stack', f'⟩ →
      ∃ taken height, f' = { f with
        pc := Control.entry b taken
        labels := Control.labelOf b height :: f.labels } := by
    intro stack taken h
    rw [Control.enterBlock_eq] at h
    split at h
    · contradiction
    · cases h
      exact ⟨taken, _, rfl⟩
  rw [Control.openBlock_eq hb] at h
  cases kind with
  | block | loop => exact henter h
  | cond =>
    dsimp only at h
    split at h
    · exact henter h
    · contradiction

/-- An opener adds the label of its block, which the scan has recorded. -/
theorem InStep.openBlock (hc : f.code.Analyzed)
    (hentered : Scan.Visited f.code.body f.code.types (Scan.entered kind head s))
    (hlabels : List.Forall₂ (Label.Marks f.code.blocks) f.labels s.opened)
    (h : Control.openBlock s.pos kind ⟨space, stack, f⟩ = .ok flow ⟨space', stack', f'⟩) :
    f'.InStep := by
  obtain ⟨b, hb, ho, htargets⟩ := exists_opened_block hc hentered
  obtain ⟨taken, height, rfl⟩ := openBlock_frame hb h
  exact InStep.enter hentered hlabels hb ho htargets taken height

/-- An `end` removes the label of the block that it closes. -/
theorem InStep.closeBlock (h : Control.closeBlock ⟨space, stack, f⟩ = .ok flow ⟨space', stack', f'⟩)
    (hboundary : Scan.Boundary f.code.body f.code.types f.pc opened)
    (hlabels : List.Forall₂ (Label.Marks f.code.blocks) f.labels (o :: opened)) :
    f'.InStep := by
  rw [Control.closeBlock_eq] at h
  cases hf : f.labels with
  | nil =>
    rw [hf] at hlabels
    nomatch hlabels
  | cons label outer =>
    rw [hf] at h hlabels
    cases h
    exact ⟨opened, hboundary, (List.forall₂_cons.mp hlabels).2⟩

/-- An instruction leaves its frame at a boundary, with the labels of the blocks that are open
there, unless the frame returns. -/
theorem InStep.step (hc : f.code.Analyzed) (h : f.InStep)
    (hstep : Control.step ⟨space, stack, f⟩ = .ok flow ⟨space', stack', f'⟩)
    (hflow : flow ≠ .ret) : f'.InStep := by
  obtain ⟨opened, ⟨blocks, hvisited⟩, hlabels⟩ := h
  -- The scan has passed here, so its move tells which instruction the frame reads.
  obtain ⟨o, hmove⟩ := hvisited.exists_move hc
  cases hmove with
  | leaf l hl =>
    rw [Control.step_of_read (l.spelled.read _ _ hl)] at hstep
    have hnext : InStep { f with pc := f.pc + l.bytes.length } :=
      ⟨opened, (hvisited.move (.leaf l hl)).boundary, hlabels⟩
    exact InStep.leadsTo (f := { f with pc := f.pc + l.bytes.length }) hc hnext
      (l.spelled.leadsTo hstep hflow)
  | opener kind head hhead =>
    rw [Control.step_of_read (reads_opener kind _ _ hhead.head)] at hstep
    exact InStep.openBlock (f := { f with pc := f.pc + 1 }) hc
      (hvisited.move (.opener kind head hhead)) hlabels hstep
  | elseArm helse hopened hkind hfirst =>
    rw [Control.step_of_read (reads_else _ _ helse)] at hstep
    have hnext := hvisited.move (.elseArm helse hopened hkind hfirst)
    subst hopened
    obtain ⟨label, outer, hlabel, houter, heq⟩ := List.forall₂_cons_right_iff.mp hlabels
    have hnext : InStep { f with pc := f.pc + 1 } := by
      refine ⟨_, hnext.boundary, ?_⟩
      dsimp only
      rw [heq]
      exact .cons (hlabel.congr rfl) houter
    exact InStep.leadsTo (f := { f with pc := f.pc + 1 }) hc hnext
      (Instr.leadsTo_of_branch hstep hflow)
  | close hend hopened =>
    rw [Control.step_of_read (reads_end _ _ hend)] at hstep
    subst hopened
    exact InStep.closeBlock (f := { f with pc := f.pc + 1 }) hstep
      (hvisited.move (.close hend rfl)).boundary hlabels
  | finish hend hopened hlast =>
    rw [Control.step_of_read (reads_end _ _ hend)] at hstep
    obtain rfl : opened = [] := hopened
    -- Outside all blocks there are no labels, and the last `end` returns.
    have hret : flow = .ret := by
      rw [Instr.exec, Control.closeBlock_eq, List.forall₂_nil_right_iff.mp hlabels] at hstep
      cases hstep
      rfl
    exact absurd hret hflow

/-! ## Traps -/

/-- The block of an opener is found in the map. -/
theorem openBlock_blameless (hc : f.code.Analyzed)
    (hentered : Scan.Visited f.code.body f.code.types (Scan.entered kind head s))
    (h : Control.openBlock s.pos kind ⟨space, stack, f⟩ = .error t a) : ¬ t.BlamesBody := by
  obtain ⟨b, hb, -, -⟩ := exists_opened_block hc hentered
  have henter : ∀ {stack taken},
      Control.enterBlock b taken ⟨space, stack, f⟩ = .error t a → ¬ t.BlamesBody := by
    intro stack taken h
    rw [Control.enterBlock_eq] at h
    split at h
    · cases h
      exact id
    · contradiction
  rw [Control.openBlock_eq hb] at h
  cases kind with
  | block | loop => exact henter h
  | cond =>
    dsimp only at h
    split at h
    · exact henter h
    · next hpop =>
      cases h
      exact Stack.blameless_pop _ _ _ hpop

theorem closeBlock_blameless (h : Control.closeBlock ⟨space, stack, f⟩ = .error t a) :
    ¬ t.BlamesBody := by
  rw [Control.closeBlock_eq] at h
  split at h <;> contradiction

/-- What can be wrong with a body at a boundary, so that a step traps and blames it. -/
inductive Fault (f : Frame) : Trap → Prop where
  | branch (hread : Instr.read.runAt f.code.body f.pc = .ok instr next)
      (hinstr : instr.BranchesTo depth) (hdepth : f.labels.length < depth.toNat) :
      Fault f (.malformed next)
  | opcode (hbyte : f.code.body[f.pc]? = some opcode) (hopcode : ¬ IsOpcode opcode) :
      Fault f (.illegalOpcode opcode f.pc)

/-- At a boundary, a step blames the body only for a branch past the outermost block and for a byte
that is no opcode. -/
theorem InStep.fault (hc : f.code.Analyzed) (h : f.InStep)
    (hstep : Control.step ⟨space, stack, f⟩ = .error t a) (ht : t.BlamesBody) : f.Fault t := by
  obtain ⟨opened, ⟨blocks, hvisited⟩, hlabels⟩ := h
  obtain ⟨o, hmove⟩ := hvisited.exists_move hc
  cases hmove with
  | leaf l hl =>
    have hread := l.spelled.read _ _ hl
    rw [Control.step_of_read hread] at hstep
    obtain ⟨depth, hinstr, hdepth, rfl⟩ | ⟨opcode, hinstr, rfl⟩ := l.spelled.blame hstep ht
    · exact .branch hread hinstr hdepth
    · obtain ⟨instr, bytes, spelled⟩ := l
      subst hinstr
      cases spelled with
      | illegal hopcode => exact .opcode hl.getElem? hopcode
  | opener kind head hhead =>
    rw [Control.step_of_read (reads_opener kind _ _ hhead.head)] at hstep
    have hentered := hvisited.move (.opener kind head hhead)
    exact absurd ht (openBlock_blameless (f := { f with pc := f.pc + 1 }) hc hentered hstep)
  | elseArm helse hopened hkind hfirst =>
    rw [Control.step_of_read (reads_else _ _ helse)] at hstep
    subst hopened
    obtain ⟨label, outer, -, -, heq⟩ := List.forall₂_cons_right_iff.mp hlabels
    obtain ⟨hdepth, -⟩ := Instr.branch_blame hstep ht
    simp [heq] at hdepth
  | close hend hopened =>
    rw [Control.step_of_read (reads_end _ _ hend)] at hstep
    exact absurd ht (closeBlock_blameless hstep)
  | finish hend hopened hlast =>
    rw [Control.step_of_read (reads_end _ _ hend)] at hstep
    exact absurd ht (closeBlock_blameless hstep)

end Frame

/-! ## Many instructions -/

/-- A frame starts at the first boundary, outside all blocks. -/
theorem Frame.inStep_of_fresh {f : Frame} (hpc : f.pc = 0) (hlabels : f.labels = []) :
    f.InStep := by
  refine ⟨[], ?_, ?_⟩
  · rw [hpc]
    exact Scan.Visited.start.boundary
  · rw [hlabels]
    exact .nil

/-- Code is entered at its first instruction, outside all blocks. -/
theorem Store.enter_fresh (h : Store.enter config c s = .ok callee s') :
    callee.pc = 0 ∧ callee.labels = [] := by
  obtain ⟨args, s₁, -, h⟩ := bind_eq_ok.mp h
  split at h
  · contradiction
  · cases h
    exact ⟨rfl, rfl⟩

namespace Machine

variable {config : EngineConfig} {m m' : Machine}

/-- All frames of analyzed code are in step with the scan: the running one and its callers. -/
def InStep (m : Machine) : Prop :=
  ∀ f ∈ m.frame :: m.callers.toList, f.code.Analyzed → f.InStep

/-- A caller goes on where it has called. -/
theorem InStep.leave (h : ∀ f ∈ m.callers, f.code.Analyzed → f.InStep)
    (hleave : m.leave = .running m') : m'.InStep := by
  obtain ⟨store, frame, callers⟩ := m
  simp only [Machine.leave] at hleave
  split at hleave
  · contradiction
  · split at hleave
    · contradiction
    · next caller hback =>
      cases hleave
      refine List.forall_mem_cons.mpr ⟨h caller (Array.mem_of_back? hback), fun f hf => h f ?_⟩
      rw [Array.toList_pop] at hf
      exact Array.mem_toList_iff.mp (List.dropLast_subset _ hf)

/-- The frame that is entered is a fresh one. -/
theorem InStep.call (h : m.InStep) (hcall : m.call config func = .running m') : m'.InStep := by
  obtain ⟨store, frame, callers⟩ := m
  simp only [Machine.call] at hcall
  split at hcall
  · contradiction
  · split at hcall
    · contradiction
    · cases hcall
      exact h
  · split at hcall
    · contradiction
    · split at hcall
      · contradiction
      · next callee store' henter =>
        cases hcall
        obtain ⟨hpc, hlabels⟩ := Store.enter_fresh henter
        refine List.forall_mem_cons.mpr ⟨fun _ => Frame.inStep_of_fresh hpc hlabels, ?_⟩
        rw [Array.toList_push, List.forall_mem_append, List.forall_mem_singleton]
        obtain ⟨hframe, hcallers⟩ := List.forall_mem_cons.mp h
        exact ⟨hcallers, hframe⟩

/-- An instruction, with the call or the return that it asks for, keeps all frames in step. -/
theorem InStep.step (h : m.InStep) (hstep : m.step config = .running m') : m'.InStep := by
  obtain ⟨store, frame, callers⟩ := m
  obtain ⟨hframe, hcallers⟩ := List.forall_mem_cons.mp h
  simp only [Machine.step] at hstep
  split at hstep
  · contradiction
  · split at hstep
    · contradiction
    · next flow space stack frame' hcontrol =>
      have hcode : frame'.code = frame.code := Control.KeepsCode.step _ _ _ hcontrol
      have hframe' : flow ≠ .ret → frame'.code.Analyzed → frame'.InStep := by
        intro hflow hc
        rw [hcode] at hc
        exact (hframe hc).step hc hcontrol hflow
      split at hstep
      · cases hstep
        exact List.forall_mem_cons.mpr ⟨hframe' nofun, hcallers⟩
      · exact InStep.leave (m := ⟨_, frame', callers⟩)
          (fun f hf => hcallers f (Array.mem_toList_iff.mpr hf)) hstep
      · exact InStep.call (m := ⟨_, frame', callers⟩)
          (List.forall_mem_cons.mpr ⟨hframe' nofun, hcallers⟩) hstep

/-- All frames stay in step, however long the machine runs. -/
theorem InStep.run (h : m.InStep) (hrun : m.run config n = .running m') : m'.InStep := by
  induction n generalizing m with
  | zero =>
    cases hrun
    exact h
  | succ n ih =>
    rw [Machine.run] at hrun
    split at hrun
    · next hstep => exact ih (h.step hstep) hrun
    · next hne => exact absurd hrun (hne m')

end Machine

/-! ## Lockstep -/

/-- However long a function runs, from its first instruction on and through all the calls it makes,
a frame of analyzed code stands at a boundary that the scan passes, and its labels are those of the
blocks that the scan has open there. So a step of it blames the body as malformed only for a branch
past the outermost block, and for an illegal opcode only where a byte that is no opcode stands. -/
theorem run_lockstep {entry f : Frame} (hpc : entry.pc = 0) (hlabels : entry.labels = [])
    (hrun : Machine.run config n ⟨store, entry, #[]⟩ = .running m)
    (hf : f ∈ m.frame :: m.callers.toList)
    (hmap : analyzeBlocks f.code.body f.code.types = .ok f.code.blocks) :
    (∃ opened, Scan.Boundary f.code.body f.code.types f.pc opened ∧
      List.Forall₂ (Label.Marks f.code.blocks) f.labels opened) ∧
    ∀ space stack t a, Control.step ⟨space, stack, f⟩ = .error t a →
      (∀ offset, t = .malformed offset → ∃ instr next depth,
        Instr.read.runAt f.code.body f.pc = .ok instr next ∧ instr.BranchesTo depth ∧
        f.labels.length < depth.toNat) ∧
      (∀ opcode offset, t = .illegalOpcode opcode offset →
        offset = f.pc ∧ f.code.body[f.pc]? = some opcode ∧ ¬ IsOpcode opcode) := by
  have hentry : Machine.InStep ⟨store, entry, #[]⟩ := by
    refine List.forall_mem_cons.mpr ⟨fun _ => Frame.inStep_of_fresh hpc hlabels, nofun⟩
  have hinStep : f.InStep := hentry.run hrun f hf hmap
  refine ⟨hinStep, fun space stack t a hstep => ⟨?_, ?_⟩⟩
  · intro offset ht
    subst ht
    cases hinStep.fault hmap hstep trivial with
    | branch hread hinstr hdepth => exact ⟨_, _, _, hread, hinstr, hdepth⟩
  · intro opcode offset ht
    subst ht
    cases hinStep.fault hmap hstep trivial with
    | opcode hbyte hopcode => exact ⟨rfl, hbyte, hopcode⟩

/-- A loop without an end, inside a block. -/
def endlessCode : Code where
  type := ⟨[], []⟩
  body := #[0x02, 0x40, 0x03, 0x40, 0x0C, 0x00, 0x0B, 0x0B, 0x0B]
  localCount := 0
  types := #[]
  blocks := (Std.TreeMap.insert (∅ : BlockMap) 2 ⟨⟨.loop, 2, .empty, ⟨0, 0⟩, 1, none⟩, 6⟩).insert 0
    ⟨⟨.block, 0, .empty, ⟨0, 0⟩, 1, none⟩, 7⟩

/-- In its second round, the loop is open inside the block. -/
theorem run_lockstep_endless :
    ∃ opened, Scan.Boundary endlessCode.body endlessCode.types 4 opened ∧
      List.Forall₂ (Label.Marks endlessCode.blocks) [⟨0, 2, 0⟩, ⟨0, 8, 0⟩] opened := by
  have hrun : Machine.run {} 4 ⟨⟨⟨#[], none, none, #[]⟩, ⟨#[], 16⟩, none, #[]⟩,
      ⟨endlessCode, #[], 0, 0, []⟩, #[]⟩ = .running ⟨⟨⟨#[], none, none, #[]⟩, ⟨#[], 16⟩, none, #[]⟩,
      ⟨endlessCode, #[], 0, 4, [⟨0, 2, 0⟩, ⟨0, 8, 0⟩]⟩, #[]⟩ := rfl
  exact (run_lockstep rfl rfl hrun (List.mem_singleton.mpr rfl) rfl).1

end Wasm
