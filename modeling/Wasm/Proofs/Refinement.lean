import Wasm.Machine
import Wasm.Proofs.Control
import Wasm.Proofs.Scan
import Wasm.Proofs.Structured

/-!
# Wasm.Proofs.Refinement

Running the bytes of a tree instruction by instruction, with jumps and labels, comes to the ending
that the tree comes to.

* `Control.Steps` are steps inside one frame; `Activation.ending?` says how the frame ends.
* `Code.Simulates` says of steps what an `Exit` says of a tree.
* `Body.simulates` is the simulation, by induction on the tree; a loop adds an induction on its
  rounds.
-/

namespace Wasm

open Reader hiding offset

/-! ## Steps inside a frame -/

/-- What plain instructions of the frame can reach. -/
def Activation.scope (a : Activation) : Scope := ⟨a.space, a.stack, a.frame.locals⟩

/-- `n` steps that stay inside the frame. -/
inductive Control.Steps : Nat → Activation → Activation → Prop where
  | refl (a : Activation) : Steps 0 a a
  | cons (h : Control.step a = .ok .next a') (hs : Steps n a' a'') : Steps (n + 1) a a''

/-- How the frame ends with the instruction that it stands at; `none` if it does not. -/
def Activation.ending? (a : Activation) : Option Ending :=
  match Control.step a with
  | .ok .next _ => none
  | .ok .ret a' => some (.returned a'.scope)
  | .ok (.call func) a' => some (.called func a'.scope)
  | .error t a' => some (.trapped t.withoutOffset a'.scope)

/-- A frame that goes on has not ended. -/
theorem Activation.ending?_of_next (h : Control.step a = .ok .next a') : a.ending? = none := by
  rw [ending?, h]

theorem Activation.ending?_of_ret (h : Control.step a = .ok .ret a') :
    a.ending? = some (.returned a'.scope) := by
  rw [ending?, h]

theorem Activation.ending?_of_call (h : Control.step a = .ok (.call func) a') :
    a.ending? = some (.called func a'.scope) := by
  rw [ending?, h]

theorem Activation.ending?_of_error (h : Control.step a = .error t a') :
    a.ending? = some (.trapped t.withoutOffset a'.scope) := by
  rw [ending?, h]

namespace Control.Steps

theorem one (h : Control.step a = .ok .next a') : Steps 1 a a' :=
  .cons h (.refl a')

theorem trans (h : Steps m a a') (h' : Steps n a' a'') : Steps (m + n) a a'' := by
  induction h with
  | refl => rwa [Nat.zero_add]
  | cons hstep _ ih =>
    rw [Nat.add_right_comm]
    exact .cons hstep (ih h')

/-- There is one way to go: of two runs, the longer one goes on where the shorter one is. -/
theorem of_le (h : Steps m a a') (h' : Steps n a a'') (hle : m ≤ n) : Steps (n - m) a' a'' := by
  induction h generalizing n with
  | refl => exact h'
  | cons hstep _ ih =>
    cases h' with
    | refl => contradiction
    | cons hstep' h' =>
      rw [hstep] at hstep'
      injection hstep' with _ ha
      subst ha
      rw [Nat.add_sub_add_right]
      exact ih h' (Nat.le_of_succ_le_succ hle)

/-- A run that does not take all steps of another one has not come to an end. -/
theorem ending?_eq_none (h : Steps m a a') (h' : Steps n a a'') (hlt : m < n) :
    a'.ending? = none := by
  cases hn : n - m with
  | zero => omega
  | succ k =>
    have hrest := h.of_le h' (Nat.le_of_lt hlt)
    rw [hn] at hrest
    cases hrest with
    | cons hstep _ => exact Activation.ending?_of_next hstep

/-- There is one end to come to. -/
theorem eq_of_ending? (h : Steps m a a') (h' : Steps n a a'') (he : a'.ending? = some o)
    (he' : a''.ending? = some o') : a' = a'' := by
  obtain hlt | heq | hlt := Nat.lt_trichotomy m n
  · rw [h.ending?_eq_none h' hlt] at he
    contradiction
  · subst heq
    have hsame := h.of_le h' (Nat.le_refl m)
    rw [Nat.sub_self] at hsame
    cases hsame
    rfl
  · rw [h'.ending?_eq_none h hlt] at he'
    contradiction

end Control.Steps

/-- The machine keeps the operands that a branch in a tree keeps. -/
theorem Exit.unwound_eq (height arity : Nat) (s : Scope) (next : Scope → Exit) :
    unwound height arity s next = match Stack.unwind height arity s.stack with
      | .ok _ stack => next { s with stack }
      | .error t stack => .trapped t { s with stack } := by
  obtain ⟨space, ⟨cells, limit⟩, locals⟩ := s
  have hkept : (kept height arity cells.toList).toArray =
      cells.shrink height ++ cells.extract (cells.size - arity) := by
    apply Array.toList_inj.mp
    have hall : (cells.toList.drop (cells.size - arity)).length ≤
        cells.size - (cells.size - arity) := by simp
    simp [kept, Array.shrink_eq_take, List.take_of_length_le hall]
  simp only [unwound, Stack.unwind, Array.length_toList, hkept]
  split <;> rfl

/-- Code that runs in a frame: at a position, inside blocks with some labels. -/
def Code.activation (c : Code) (base pc : Nat) (labels : List Label) (s : Scope) : Activation :=
  ⟨s.space, s.stack, ⟨c, s.locals, base, pc, labels⟩⟩

namespace Code

variable (c : Code) (base : Nat)

/-- The result of a step that branches `depth` levels out, inside blocks with some labels. -/
def Branches (labels : List Label) (depth : Nat) (s : Scope)
    (result : EStateM.Result Trap Activation Flow) : Prop :=
  match labels.drop depth with
  | label :: outer =>
    match Stack.unwind label.height label.arity s.stack with
    | .ok _ stack =>
      result = .ok .next (c.activation base label.continuation outer { s with stack })
    | .error t stack => ∃ a, result = .error t a ∧ a.scope = { s with stack }
  | [] =>
    if depth = labels.length then ∃ a, result = .ok .ret a ∧ a.scope = s
    else ∃ offset a, result = .error (.malformed offset) a ∧ a.scope = s

/-- From `a`, the frame does what an exit says: it comes to `stop`, inside blocks with the given
labels, or leaves by a branch, or ends. Where the tree gets no farther, the frame makes at least
`least` steps. -/
def Simulates (least : Nat) (labels : List Label) (a : Activation) (stop : Nat) : Exit → Prop
  | .fell s => ∃ n, Control.Steps n a (c.activation base stop labels s)
  | .broke depth s =>
    ∃ n a', Control.Steps n a a' ∧ c.Branches base labels depth s (Control.step a')
  | .returned s => ∃ n a', Control.Steps n a a' ∧ a'.ending? = some (.returned s)
  | .called func s => ∃ n a', Control.Steps n a a' ∧ a'.ending? = some (.called func s)
  | .trapped t s =>
    ∃ n a', Control.Steps n a a' ∧ a'.ending? = some (.trapped t.withoutOffset s)
  | .exhausted => ∃ n a', Control.Steps n a a' ∧ least ≤ n

variable {c base}

/-! ## Branches -/

/-- A branch of the machine is a branch in the sense of labels. -/
theorem branches_branch (labels : List Label) (depth : UInt32) (s : Scope) (pc : Nat) :
    c.Branches base labels depth.toNat s
      (Control.branch depth (c.activation base pc labels s)) := by
  unfold Branches activation
  cases hdrop : labels.drop depth.toNat with
  | nil =>
    rw [Control.branch_no_label (List.drop_eq_nil_iff.mp hdrop)]
    dsimp only
    by_cases hlen : depth.toNat = labels.length
    · rw [if_pos hlen, if_pos hlen]
      exact ⟨_, rfl, rfl⟩
    · rw [if_neg hlen, if_neg hlen]
      exact ⟨_, _, rfl, rfl⟩
  | cons label outer =>
    rw [Control.branch_label hdrop]
    dsimp only
    cases Stack.unwind label.height label.arity s.stack with
    | ok _ stack => rfl
    | error t stack => exact ⟨_, rfl, rfl⟩

/-- A branch past the innermost block is a branch of the blocks around it. -/
theorem branches_succ_iff :
    c.Branches base (label :: labels) (depth + 1) s result ↔
      c.Branches base labels depth s result := by
  unfold Branches
  simp only [List.drop_succ_cons, List.length_cons, Nat.add_right_cancel_iff]

/-! ## Simulation steps -/

/-- More steps may be asked for than are needed. -/
theorem Simulates.mono (h : c.Simulates base least labels a stop exit) (hle : least' ≤ least) :
    c.Simulates base least' labels a stop exit := by
  cases exit with
  | exhausted =>
    obtain ⟨n, a', hsteps, hn⟩ := h
    exact ⟨n, a', hsteps, Nat.le_trans hle hn⟩
  | _ => exact h

/-- Steps can be taken ahead. -/
theorem Simulates.after (hsteps : Control.Steps m a a')
    (h : c.Simulates base least labels a' stop exit) :
    c.Simulates base (m + least) labels a stop exit := by
  cases exit with
  | fell s =>
    obtain ⟨n, hn⟩ := h
    exact ⟨_, hsteps.trans hn⟩
  | broke depth s | returned s | called func s | trapped t s =>
    obtain ⟨n, a'', hn, hlast⟩ := h
    exact ⟨_, a'', hsteps.trans hn, hlast⟩
  | exhausted =>
    obtain ⟨n, a'', hn, hle⟩ := h
    exact ⟨_, a'', hsteps.trans hn, by omega⟩

/-- The frame is there already. -/
theorem simulates_fell (c : Code) (base least stop : Nat) (labels : List Label) (s : Scope) :
    c.Simulates base least labels (c.activation base stop labels s) stop (.fell s) :=
  ⟨0, .refl _⟩

theorem simulates_trapped (h : Control.step a = .error t a') (hs : a'.scope = s) :
    c.Simulates base least labels a stop (.trapped t s) := by
  subst hs
  exact ⟨0, a, .refl a, Activation.ending?_of_error h⟩

/-- What comes next starts where the first part has ended. -/
theorem Simulates.andThen (h : c.Simulates base least labels a mid exit)
    (hnext : ∀ s, c.Simulates base least labels (c.activation base mid labels s) stop (next s)) :
    c.Simulates base least labels a stop (exit.andThen next) := by
  cases exit with
  | fell s =>
    obtain ⟨n, hn⟩ := h
    exact (Simulates.after hn (hnext s)).mono (Nat.le_add_left _ _)
  | _ => exact h

/-- A block is left behind its last instruction, by a branch to it, or by one past it. -/
theorem Simulates.leave (h : c.Simulates base least (label :: labels) a mid exit)
    (hfell : ∀ s, c.Simulates base least labels
      (c.activation base mid (label :: labels) s) stop (.fell s))
    (hnext : ∀ s, c.Simulates base least labels
      (c.activation base label.continuation labels s) stop (next s)) :
    c.Simulates base least labels a stop (exit.leave label.height label.arity next) := by
  cases exit with
  | fell s =>
    obtain ⟨n, hn⟩ := h
    exact (Simulates.after hn (hfell s)).mono (Nat.le_add_left _ _)
  | broke depth s =>
    obtain ⟨n, a', hsteps, hbranch⟩ := h
    cases depth with
    | zero =>
      simp only [Branches, List.drop_zero] at hbranch
      rw [Exit.leave, Exit.unwound_eq]
      cases hunwind : Stack.unwind label.height label.arity s.stack with
      | ok _ stack =>
        rw [hunwind] at hbranch
        exact (Simulates.after (hsteps.trans (.one hbranch)) (hnext _)).mono (Nat.le_add_left _ _)
      | error t stack =>
        rw [hunwind] at hbranch
        obtain ⟨a'', hstep, hscope⟩ := hbranch
        exact (Simulates.after hsteps (simulates_trapped hstep hscope)).mono
          (Nat.le_add_left least n)
    | succ depth => exact ⟨n, a', hsteps, branches_succ_iff.mp hbranch⟩
  | _ => exact h

/-- An arm with another one behind it is left by a branch. -/
theorem Simulates.fallOut (h : c.Simulates base least labels a mid exit)
    (helse : ∀ s, c.Branches base labels 0 s (Control.step (c.activation base mid labels s))) :
    c.Simulates base least labels a stop exit.fallOut := by
  cases exit with
  | fell s =>
    obtain ⟨n, hn⟩ := h
    exact ⟨n, _, hn, helse s⟩
  | _ => exact h

/-- A construct is entered with its label, if its parameters are there. -/
theorem simulates_entered (hstep : Control.step a =
      Control.enterBlock b taken (c.activation base pc labels s))
    (hinside : ∀ height, c.Simulates base least labels
      (c.activation base (Control.entry b taken) (Control.labelOf b height :: labels) s) stop
      (inside height)) :
    c.Simulates base (1 + least) labels a stop (Exit.entered b.arity s inside) := by
  unfold Code.activation at hstep
  rw [Control.enterBlock_eq] at hstep
  unfold Exit.entered
  by_cases hparams : s.stack.size < b.arity.params
  · rw [if_pos hparams] at hstep ⊢
    exact simulates_trapped hstep rfl
  · rw [if_neg hparams] at hstep ⊢
    exact Simulates.after (.one hstep) (hinside _)

/-- A conditional takes its condition first. -/
theorem simulates_condition {inside : UInt32 → Scope → Nat → Exit} (hstep : Control.step a =
      Control.openBlock pos .cond (c.activation base pc labels s))
    (hb : c.blocks[pos]? = some b)
    (hinside : ∀ s (x : UInt32) height, c.Simulates base least labels
      (c.activation base (Control.entry b (x ≠ 0)) (Control.labelOf b height :: labels) s) stop
      (inside x s height)) :
    c.Simulates base least labels a stop
      (Exit.popped s fun x s => Exit.entered b.arity s fun height => inside x s height) := by
  unfold Code.activation at hstep
  rw [Control.openBlock_eq hb] at hstep
  unfold Exit.popped
  cases hpop : Stack.pop s.stack with
  | ok x stack =>
    rw [hpop] at hstep
    exact (simulates_entered (s := { s with stack }) hstep fun height => hinside _ _ _).mono
      (Nat.le_add_left _ _)
  | error t stack =>
    rw [hpop] at hstep
    exact simulates_trapped hstep rfl

/-! ## Single instructions -/

/-- An instruction that stands at the position is read and carried out. -/
theorem step_activation (base : Nat) (labels : List Label) (s : Scope)
    (h : Reads Instr.read bs instr) (hbs : StandsAt c.body pos bs) :
    Control.step (c.activation base pos labels s) =
      instr.exec pos (c.activation base (pos + bs.length) labels s) :=
  Control.step_of_read (f := ⟨c, s.locals, base, pos, labels⟩) (h _ _ hbs)

/-- A step that branches leaves the part that it stands in. -/
theorem simulates_broke
    (hstep : Control.step a = Control.branch depth (c.activation base pc labels s)) :
    c.Simulates base least labels a stop (.broke depth.toNat s) := by
  refine ⟨0, a, .refl a, ?_⟩
  rw [hstep]
  exact branches_branch labels depth s pc

/-- An instruction that stands by itself does what it does in a tree. -/
theorem simulates_instr (hspells : Instr.Spells instr bs) (hbs : StandsAt c.body pos bs) :
    c.Simulates base least labels (c.activation base pos labels s) (pos + bs.length)
      (instr.eval c.types s) := by
  have hstep := step_activation base labels s hspells.read hbs
  cases instr with
  | plain op =>
    have hexec := hstep.trans (Instr.exec_plain op pos)
    simp only [Instr.eval]
    cases hop : op.exec s with
    | ok _ s' =>
      rw [hop] at hexec
      exact ⟨1, .one hexec⟩
    | error t s' =>
      rw [hop] at hexec
      exact simulates_trapped hexec rfl
  -- The block structure is not spelled by instructions that stand by themselves.
  | opener => cases hspells
  | elseArm => cases hspells
  | blockEnd => cases hspells
  | br depth => exact simulates_broke hstep
  | brIf depth =>
    have hexec := hstep.trans (Instr.exec_brIf depth pos)
    simp only [Instr.eval, Exit.popped]
    cases hpop : Stack.pop s.stack with
    | ok x stack =>
      rw [hpop] at hexec
      dsimp only at hexec ⊢
      by_cases hx : x.toUInt32 ≠ 0
      · rw [if_pos hx] at hexec ⊢
        exact simulates_broke (s := { s with stack }) hexec
      · rw [if_neg hx] at hexec ⊢
        exact ⟨1, .one hexec⟩
    | error t stack =>
      rw [hpop] at hexec
      exact simulates_trapped hexec rfl
  | brTable depths last =>
    have hexec := hstep.trans (Instr.exec_brTable depths last pos)
    simp only [Instr.eval, Exit.popped]
    cases hpop : Stack.pop s.stack with
    | ok x stack =>
      rw [hpop] at hexec
      exact simulates_broke (s := { s with stack }) hexec
    | error t stack =>
      rw [hpop] at hexec
      exact simulates_trapped hexec rfl
  | ret => exact ⟨0, _, .refl _, Activation.ending?_of_ret hstep⟩
  | call func => exact ⟨0, _, .refl _, Activation.ending?_of_call hstep⟩
  | callIndirect type table =>
    have hexec := hstep.trans (Instr.exec_callIndirect type table pos)
    simp only [Instr.eval]
    cases hfunc : Exec.indirect c.types type table s with
    | ok func s' =>
      rw [hfunc] at hexec
      exact ⟨0, _, .refl _, Activation.ending?_of_call hexec⟩
    | error t s' =>
      rw [hfunc] at hexec
      exact simulates_trapped hexec rfl
  | illegal opcode => exact ⟨0, _, .refl _, Activation.ending?_of_error hstep⟩

/-! ## Constructs -/

/-- An `end` inside a block leaves it. -/
theorem step_end (base : Nat) (label : Label) (labels : List Label) (s : Scope)
    (h : StandsAt c.body pos [endOpcode]) :
    Control.step (c.activation base pos (label :: labels) s) =
      .ok .next (c.activation base (pos + 1) labels s) :=
  (step_activation base _ s reads_end h).trans Control.closeBlock_eq

/-- The `end` of the body returns. -/
theorem step_last (base : Nat) (s : Scope) (h : StandsAt c.body pos [endOpcode]) :
    Control.step (c.activation base pos [] s) = .ok .ret (c.activation base (pos + 1) [] s) :=
  (step_activation base _ s reads_end h).trans Control.closeBlock_eq

/-- An `else` branches to its conditional. -/
theorem branches_else (base : Nat) (labels : List Label) (s : Scope)
    (h : StandsAt c.body pos [elseOpcode]) :
    c.Branches base labels 0 s (Control.step (c.activation base pos labels s)) := by
  rw [step_activation base labels s reads_else h]
  exact branches_branch labels 0 s (pos + 1)

theorem step_opener (base : Nat) (labels : List Label) (s : Scope) (kind : BlockKind)
    (h : StandsAt c.body pos [kind.opcode]) :
    Control.step (c.activation base pos labels s) =
      Control.openBlock pos kind (c.activation base (pos + 1) labels s) :=
  step_activation base labels s (reads_opener kind) h

/-- A block or an arm with its `end` behind it. -/
theorem Simulates.leaveBlock (hkind : b.kind ≠ .loop) (hend : StandsAt c.body b.endAt [endOpcode])
    (h : c.Simulates base least (Control.labelOf b height :: labels) a b.endAt exit) :
    c.Simulates base least labels a (b.endAt + 1) (exit.leave height b.arity.results .fell) := by
  have hlabel : Control.labelOf b height = ⟨b.arity.results, b.endAt + 1, height⟩ := by
    unfold Control.labelOf
    split
    · contradiction
    · rfl
    · rfl
  rw [hlabel] at h
  exact h.leave (fun s => ⟨1, .one (step_end base _ labels s hend)⟩)
    (fun s => simulates_fell c base least _ labels s)

/-- The rounds of a loop. Each takes a step at least, so a loop that has made all its rounds has
made as many steps. -/
theorem simulates_rounds {inside : Scope → Exit} (hb : c.blocks[b.start]? = some b)
    (hkind : b.kind = .loop) (hopener : StandsAt c.body b.start [BlockKind.loop.opcode])
    (hend : StandsAt c.body b.endAt [endOpcode])
    (hinside : ∀ height s, c.Simulates base fuel (Control.labelOf b height :: labels)
      (c.activation base (Control.entry b true) (Control.labelOf b height :: labels) s) b.endAt
      (inside s)) (hn : n ≤ fuel) (s : Scope) :
    c.Simulates base n labels (c.activation base b.start labels s) (b.endAt + 1)
      (Exit.rounds b.arity inside n s) := by
  induction n generalizing s with
  | zero => exact ⟨0, _, .refl _, Nat.le_refl 0⟩
  | succ n ih =>
    have hlabel : ∀ height, Control.labelOf b height = ⟨b.arity.params, b.start, height⟩ := by
      intro height
      rw [Control.labelOf, hkind]
    have hstep := (step_opener base labels s .loop hopener).trans (Control.openBlock_eq hb .loop)
    rw [Exit.rounds, Nat.add_comm n]
    refine simulates_entered hstep fun height => ?_
    have hround := (hinside height s).mono (Nat.le_of_succ_le hn)
    rw [hlabel] at hround ⊢
    exact hround.leave (fun s => ⟨1, .one (step_end base _ labels s hend)⟩)
      (fun s => ih (Nat.le_of_succ_le hn) s)

end Code

/-! ## Trees -/

/-- Where the bytes of a tree stand, with its blocks in the map, the frame does what the tree
does. -/
theorem Body.simulates {c : Code} (b : Body c.types) (fuel : Nat) {pos : Nat} {labels : List Label}
    {s : Scope} (hb : StandsAt c.body pos (b.bytes ++ cs))
    (hmap : ∀ x ∈ b.blocks pos, c.blocks[x.start]? = some x) :
    c.Simulates base fuel labels (c.activation base pos labels s) (pos + b.bytes.length)
      (b.eval fuel s) := by
  -- On the tree; a loop brings its own induction on the rounds (`Code.simulates_rounds`).
  induction b generalizing pos labels s cs with
  | nil => exact Code.simulates_fell c base fuel pos labels s
  | leaf l rest ih =>
    obtain ⟨hl, hrest⟩ := standsAt_leaf hb
    rw [bytes, List.length_append, ← Nat.add_assoc]
    exact (Code.simulates_instr l.spelled hl).andThen fun s => ih hrest hmap
  | nest kind head body rest ihBody ihRest =>
    obtain ⟨hopener, hhead, hbody, hrest⟩ := standsAt_nest hb
    simp only [blocks, List.forall_mem_cons, List.forall_mem_append] at hmap
    obtain ⟨hblock, hmapBody, hmapRest⟩ := hmap
    have hlength : pos + (nest kind head body rest).bytes.length =
        pos + 1 + head.bytes.length + body.bytes.length + 1 + rest.bytes.length := by
      simp only [bytes, List.length_cons, List.length_append]
      omega
    rw [hlength]
    cases kind with
    | block =>
      refine Code.Simulates.andThen ?_ fun s => ihRest hrest hmapRest
      have hstep := (Code.step_opener base labels s .block hopener).trans
        (Control.openBlock_eq hblock .block)
      refine (Code.simulates_entered hstep fun height => ?_).mono (Nat.le_add_left _ _)
      exact Code.Simulates.leaveBlock (b := ⟨head.opened .block pos none, _⟩)
        (fun hloop => by cases hloop) hbody.right (ihBody hbody hmapBody)
    | loop =>
      refine Code.Simulates.andThen ?_ fun s => ihRest hrest hmapRest
      exact Code.simulates_rounds (b := ⟨head.opened .loop pos none, _⟩) hblock rfl hopener
        hbody.right (fun height s => ihBody hbody hmapBody) (Nat.le_refl fuel) s
    | cond =>
      refine Code.Simulates.andThen ?_ fun s => ihRest hrest hmapRest
      refine Code.simulates_condition (Code.step_opener base labels s .cond hopener) hblock
        fun s x height => ?_
      by_cases hx : x ≠ 0
      · rw [if_pos hx, decide_eq_true hx]
        exact Code.Simulates.leaveBlock (b := ⟨head.opened .cond pos none, _⟩)
          (fun hloop => by cases hloop) hbody.right (ihBody hbody hmapBody)
      -- Without an `else` the frame goes to the `end` of the block and closes it.
      · rw [if_neg hx, decide_eq_false hx]
        exact ⟨1, .one (Code.step_end base _ labels s hbody.right)⟩
  | ifElse head thenArm elseArm rest ihThen ihElse ihRest =>
    obtain ⟨hopener, hhead, hthen, helse, hrest⟩ := standsAt_ifElse hb
    simp only [blocks, List.forall_mem_cons, List.forall_mem_append] at hmap
    obtain ⟨hblock, hmapThen, hmapElse, hmapRest⟩ := hmap
    have hlength : pos + (ifElse head thenArm elseArm rest).bytes.length =
        pos + 1 + head.bytes.length + thenArm.bytes.length + 1 + elseArm.bytes.length + 1 +
          rest.bytes.length := by
      simp only [bytes, List.length_cons, List.length_append]
      omega
    rw [hlength]
    refine Code.Simulates.andThen ?_ fun s => ihRest hrest hmapRest
    refine Code.simulates_condition (Code.step_opener base labels s .cond hopener) hblock
      fun s x height => ?_
    by_cases hx : x ≠ 0
    · rw [if_pos hx, decide_eq_true hx]
      -- The first arm ends at the `else`, which the frame takes for a branch to the block.
      have hthenArm : ∀ labels stop, c.Simulates base fuel labels
          (c.activation base (pos + 1 + head.bytes.length) labels s) stop
          (thenArm.eval fuel s).fallOut := fun labels stop =>
        (ihThen hthen hmapThen).fallOut fun s => Code.branches_else base labels s hthen.right
      exact Code.Simulates.leaveBlock (b := ⟨head.opened .cond pos (some _), _⟩)
        (fun hloop => by cases hloop) helse.right (hthenArm _ _)
    · rw [if_neg hx, decide_eq_false hx]
      exact Code.Simulates.leaveBlock (b := ⟨head.opened .cond pos (some _), _⟩)
        (fun hloop => by cases hloop) helse.right (ihElse helse hmapElse)

/-! ## Whole bodies -/

/-- A frame at the beginning of a body comes to the ending of its tree, or goes on for as long as
the tree has fuel. -/
theorem Body.reaches {c : Code} (b : Body c.types) (hb : b.Encodes c.body)
    (hmap : c.blocks = b.record 0 ∅) (fuel base : Nat) (s : Scope) :
    match b.ending fuel s with
    | some o => ∃ n a, Control.Steps n (c.activation base 0 [] s) a ∧ a.ending? = some o
    | none => ∃ n a, Control.Steps n (c.activation base 0 [] s) a ∧ fuel ≤ n := by
  have hsim : c.Simulates base fuel [] (c.activation base 0 [] s) (0 + b.bytes.length)
      (b.eval fuel s) := by
    refine b.simulates fuel hb.standsAt fun x hx => ?_
    rw [hmap]
    exact b.getElem?_record_of_mem ∅ hx
  unfold Body.ending
  cases heval : b.eval fuel s with
  | fell s' =>
    rw [heval] at hsim
    obtain ⟨n, hsteps⟩ := hsim
    exact ⟨n, _, hsteps, Activation.ending?_of_ret (Code.step_last base s' hb.standsAt.right)⟩
  | broke depth s' =>
    rw [heval] at hsim
    obtain ⟨n, a, hsteps, hbranch⟩ := hsim
    cases depth with
    | zero =>
      obtain ⟨a', hstep, rfl⟩ := hbranch
      exact ⟨n, a, hsteps, Activation.ending?_of_ret hstep⟩
    | succ depth =>
      obtain ⟨offset, a', hstep, rfl⟩ := hbranch
      exact ⟨n, a, hsteps, Activation.ending?_of_error hstep⟩
  | returned s' | called func s' | trapped t s' | exhausted =>
    rw [heval] at hsim
    exact hsim

/-- A frame at the beginning of a body comes to an ending exactly if its tree does. -/
theorem Body.ends_iff {c : Code} (b : Body c.types) (hb : b.Encodes c.body)
    (hmap : c.blocks = b.record 0 ∅) (base : Nat) (s : Scope) (o : Ending) :
    (∃ n a, Control.Steps n (c.activation base 0 [] s) a ∧ a.ending? = some o) ↔
      ∃ fuel, b.ending fuel s = some o := by
  constructor
  · intro h
    obtain ⟨n, a, hsteps, hends⟩ := h
    refine ⟨n + 1, ?_⟩
    have hreaches := b.reaches hb hmap (n + 1) base s
    cases hending : b.ending (n + 1) s with
    | none =>
      rw [hending] at hreaches
      obtain ⟨m, a', hsteps', hle⟩ := hreaches
      rw [hsteps.ending?_eq_none hsteps' hle] at hends
      contradiction
    | some o' =>
      rw [hending] at hreaches
      obtain ⟨m, a', hsteps', hends'⟩ := hreaches
      rw [← hends', ← hends, hsteps.eq_of_ending? hsteps' hends hends']
  · intro h
    obtain ⟨fuel, hending⟩ := h
    have hreaches := b.reaches hb hmap fuel base s
    rwa [hending] at hreaches

/-! ## Running the machine -/

/-- The machine that runs a frame without callers and without a limit of fuel. -/
def Activation.machine (a : Activation) (hostCalls : Array HostCall) : Machine :=
  ⟨⟨a.space, a.stack, none, hostCalls⟩, a.frame, #[]⟩

/-- The running frame. -/
def Machine.activation (m : Machine) : Activation := ⟨m.store.space, m.store.stack, m.frame⟩

/-- The machine takes the steps of the frame. -/
theorem Control.Steps.run_eq (h : Control.Steps n a a') (config : EngineConfig)
    (hostCalls : Array HostCall) (k : Nat) :
    Machine.run config (n + k) (a.machine hostCalls) =
      Machine.run config k (a'.machine hostCalls) := by
  induction h with
  | refl => rw [Nat.zero_add]
  | @cons a a' n a'' hstep _ ih =>
    have hrunning : (a.machine hostCalls).step config = .running (a'.machine hostCalls) := by
      simp only [Machine.step, Activation.machine, Store.payFuel]
      have hstep : Control.step ⟨a.space, a.stack, a.frame⟩ = .ok .next a' := hstep
      rw [hstep]
    rw [Nat.add_right_comm, Machine.run, hrunning]
    exact ih

/-- Where the frame ends without a call, the machine stops. -/
theorem Machine.step_ne_running {a : Activation} (h : a.ending? = some o)
    (ho : ∀ func s, o ≠ .called func s) :
    (a.machine hostCalls).step config ≠ .running m := by
  intro hrunning
  simp only [Machine.step, Activation.machine, Store.payFuel] at hrunning
  cases hstep : Control.step a with
  | error t a' =>
    have hstep : Control.step ⟨a.space, a.stack, a.frame⟩ = .error t a' := hstep
    rw [hstep] at hrunning
    contradiction
  | ok flow a' =>
    have hstep' : Control.step ⟨a.space, a.stack, a.frame⟩ = .ok flow a' := hstep
    rw [hstep'] at hrunning
    cases flow with
    | next =>
      rw [Activation.ending?_of_next hstep] at h
      contradiction
    | ret =>
      simp only [Machine.leave] at hrunning
      split at hrunning
      · contradiction
      · contradiction
    | call func =>
      rw [Activation.ending?_of_call hstep] at h
      exact ho _ _ (Option.some.inj h).symm

/-- The beginning of a run. -/
theorem Control.Steps.exists_of_le (h : Control.Steps n a a') (hle : m ≤ n) :
    ∃ a₁, Control.Steps m a a₁ := by
  induction h generalizing m with
  | refl a =>
    obtain rfl := Nat.le_zero.mp hle
    exact ⟨a, .refl a⟩
  | @cons a a' n a'' hstep _ ih =>
    cases m with
    | zero => exact ⟨a, .refl a⟩
    | succ m =>
      obtain ⟨a₁, hsteps⟩ := ih (Nat.le_of_succ_le_succ hle)
      exact ⟨a₁, .cons hstep hsteps⟩

/-- As long as it runs, the machine takes the steps of the frame, if the frame makes no calls. -/
theorem Body.steps_of_run {c : Code} (b : Body c.types) (hcalls : b.CallFree)
    (hb : b.Encodes c.body) (hmap : c.blocks = b.record 0 ∅)
    (hrun : Machine.run config n ((c.activation base 0 [] s).machine hostCalls) = .running m) :
    ∃ a, Control.Steps n (c.activation base 0 [] s) a ∧ m = a.machine hostCalls := by
  have hlong : ∃ k a, Control.Steps k (c.activation base 0 [] s) a ∧ n ≤ k := by
    have hreaches := b.reaches hb hmap n base s
    cases hending : b.ending n s with
    | none => rwa [hending] at hreaches
    | some o =>
      rw [hending] at hreaches
      obtain ⟨k, a, hsteps, hends⟩ := hreaches
      refine ⟨k, a, hsteps, Nat.le_of_not_lt fun hlt => ?_⟩
      obtain ⟨j, rfl⟩ := Nat.exists_eq_add_of_lt hlt
      have ho : ∀ func s', o ≠ .called func s' := by
        intro func s' heq
        subst heq
        exact b.ending_ne_called hcalls hending
      rw [Nat.add_assoc, hsteps.run_eq, Machine.run] at hrun
      split at hrun
      · next hstep => exact Machine.step_ne_running hends ho hstep
      · next hne => exact hne m hrun
  obtain ⟨k, a, hsteps, hle⟩ := hlong
  obtain ⟨a₁, hsteps₁⟩ := hsteps.exists_of_le hle
  have hrun₁ := hsteps₁.run_eq config hostCalls 0
  rw [Nat.add_zero, hrun] at hrun₁
  injection hrun₁ with hm
  exact ⟨a₁, hsteps₁, hm⟩

/-- The body that a tree stands for. -/
def Body.encoding (b : Body types) : Array UInt8 :=
  (b.bytes ++ [endOpcode]).toArray

/-- The scan accepts the body of a tree. With the map that it gives, the machine runs the body, from
its first instruction on and on any operands, locals, memory and globals, to the endings that the
tree comes to, and to no other: a return or a trap, with what it leaves behind. -/
theorem run_refines_tree (b : Body types) (hcalls : b.CallFree) :
    ∃ map, analyzeBlocks b.encoding types = .ok map ∧
      ∀ (type : FuncType) (localCount base : Nat) (config : EngineConfig)
        (hostCalls : Array HostCall) (s : Scope) (o : Ending),
        (∃ n m, Machine.run config n ⟨⟨s.space, s.stack, none, hostCalls⟩,
            ⟨⟨type, b.encoding, localCount, types, map⟩, s.locals, base, 0, []⟩, #[]⟩ = .running m ∧
          m.activation.ending? = some o) ↔
        ∃ fuel, b.ending fuel s = some o := by
  have hb : b.Encodes b.encoding := rfl
  refine ⟨b.record 0 ∅, hb.analyzeBlocks_eq, ?_⟩
  intro type localCount base config hostCalls s o
  let c : Code := ⟨type, b.encoding, localCount, types, b.record 0 ∅⟩
  have hends := Body.ends_iff (c := c) b hb rfl base s o
  constructor
  · intro h
    obtain ⟨n, m, hrun, hending⟩ := h
    obtain ⟨a, hsteps, rfl⟩ := Body.steps_of_run (c := c) b hcalls hb rfl hrun
    exact hends.mp ⟨n, a, hsteps, hending⟩
  · intro h
    obtain ⟨n, a, hsteps, hending⟩ := hends.mpr h
    exact ⟨n, a.machine hostCalls, hsteps.run_eq config hostCalls 0, hending⟩

/-- A loop that counts a local down to zero. -/
def countdown : Body #[] :=
  have hzero : Reads u32 [0x00] 0 := local_u32.reads (StandsAt.of_toList #[0x00]) rfl
  have hone : Reads s32 [0x01] 1 := local_s32.reads (StandsAt.of_toList #[0x01]) rfl
  .nest .loop ⟨.empty, ⟨0, 0⟩, [0x40], .empty, rfl⟩
    (.leaf ⟨_, _, .localGet hzero⟩ <| .leaf ⟨_, _, .i32Const hone⟩ <|
      .leaf ⟨.plain (.numeric (.binary (.int .w32 .sub))), [0x6B], .numeric (by decide +kernel)⟩ <|
      .leaf ⟨_, _, .localTee hzero⟩ <| .leaf ⟨_, _, .brIf hzero⟩ .nil)
    .nil

/-- The machine counts down from two and returns. -/
theorem run_refines_tree_countdown :
    ∃ map, analyzeBlocks countdown.encoding #[] = .ok map ∧
      ∃ n m, Machine.run {} n ⟨⟨⟨#[], none, none, #[]⟩, ⟨#[], 16⟩, none, #[]⟩,
          ⟨⟨⟨[], []⟩, countdown.encoding, 1, #[], map⟩, #[2], 0, 0, []⟩, #[]⟩ = .running m ∧
        m.activation.ending? = some (.returned ⟨⟨#[], none, none, #[]⟩, ⟨#[], 16⟩, #[0]⟩) := by
  have hcalls : countdown.CallFree := by
    simp [countdown, Body.CallFree]
  have hending : countdown.ending 2 ⟨⟨#[], none, none, #[]⟩, ⟨#[], 16⟩, #[2]⟩ =
      some (.returned ⟨⟨#[], none, none, #[]⟩, ⟨#[], 16⟩, #[0]⟩) := rfl
  obtain ⟨map, hmap, hiff⟩ := run_refines_tree countdown hcalls
  exact ⟨map, hmap, (hiff _ _ _ _ _ _ _).mpr ⟨2, hending⟩⟩

end Wasm
