import Wasm.Frame
import Wasm.Proofs.Body

/-!
# Wasm.Proofs.Structured

What a tree of instructions does, by recursion on the tree. There are no positions and no labels
here: a branch unwinds the tree until it comes to its construct.

* `Exit` says how a part of a tree is left.
* `Instr.eval` carries out a single instruction, `Body.eval` a tree. A loop makes only so many
  rounds; with more of them the evaluation gets farther.
* `Ending` says how a whole body ends, `Body.ending` which ending a tree comes to.
-/

namespace Wasm

/-! ## Leaving a construct -/

/-- How a part of a tree is left. -/
inductive Exit where
  /-- Behind its last instruction. -/
  | fell (s : Scope)
  /-- By a branch to the construct `depth` levels out. -/
  | broke (depth : Nat) (s : Scope)
  | returned (s : Scope)
  | called (func : UInt32) (s : Scope)
  | trapped (t : Trap) (s : Scope)
  /-- Not at all: a loop has made all its rounds. -/
  | exhausted

namespace Exit

/-- Take the low half of the top operand. -/
def popped (s : Scope) (next : UInt32 → Scope → Exit) : Exit :=
  match Stack.pop s.stack with
  | .ok c stack => next c.toUInt32 { s with stack }
  | .error t stack => .trapped t { s with stack }

/-- Enter a construct whose parameters are on the stack; what is inside gets the height of the stack
below them. -/
def entered (arity : Arity) (s : Scope) (inside : Nat → Exit) : Exit :=
  if s.stack.size < arity.params then .trapped .stackUnderflow s
  else inside (s.stack.size - arity.params)

/-- What is left of operands, lowest first, when those between a height and the topmost ones are
dropped. -/
def kept (height arity : Nat) (operands : List UInt64) : List UInt64 :=
  operands.take height ++ operands.drop (operands.length - arity)

/-- Go on with the operands that are kept; there have to be as many as the two parts need. -/
def unwound (height arity : Nat) (s : Scope) (next : Scope → Exit) : Exit :=
  let operands := s.stack.cells.toList
  if operands.length < height + arity then .trapped .stackUnderflow s
  else next { s with stack := { s.stack with cells := (kept height arity operands).toArray } }

/-- Leave a construct. A branch to it unwinds and goes on with `next`. -/
def leave (height arity : Nat) (next : Scope → Exit) : Exit → Exit
  | .broke 0 s => unwound height arity s next
  | .broke (depth + 1) s => .broke depth s
  | exit => exit

/-- Leave an arm with another one behind it: that is a branch to the construct. -/
def fallOut : Exit → Exit
  | .fell s => .broke 0 s
  | exit => exit

/-- Go on with what comes next. -/
def andThen (next : Scope → Exit) : Exit → Exit
  | .fell s => next s
  | exit => exit

/-- The rounds of a loop, at most `n` of them: a branch to the loop makes another one. -/
def rounds (arity : Arity) (inside : Scope → Exit) : (n : Nat) → Scope → Exit
  | 0, _ => .exhausted
  | n + 1, s =>
    entered arity s fun height =>
      (inside s).leave height arity.params (rounds arity inside n)

end Exit

/-! ## Trees -/

/-- Carry out an instruction that stands by itself in a tree. -/
def Instr.eval (types : Array FuncType) : Instr → Scope → Exit
  | .plain op, s =>
    match op.exec s with
    | .ok _ s => .fell s
    | .error t s => .trapped t s
  | .br depth, s => .broke depth.toNat s
  | .brIf depth, s =>
    Exit.popped s fun c s => if c ≠ 0 then .broke depth.toNat s else .fell s
  | .brTable depths last, s =>
    Exit.popped s fun c s => .broke ((depths[c.toNat]?).getD last).toNat s
  | .ret, s => .returned s
  | .call func, s => .called func s
  | .callIndirect type table, s =>
    match Exec.indirect types type table s with
    | .ok func s => .called func s
    | .error t s => .trapped t s
  | .illegal opcode, s => .trapped (.illegalOpcode opcode 0) s
  -- These belong to the constructs around them.
  | .opener _, s | .elseArm, s | .blockEnd, s => .fell s

/-- Carry out a tree, with at most `fuel` rounds for each loop. -/
def Body.eval (fuel : Nat) : Body types → Scope → Exit
  | nil, s => .fell s
  | leaf l rest, s => (l.instr.eval types s).andThen (rest.eval fuel)
  | nest .block head body rest, s =>
    (Exit.entered head.arity s fun height =>
      (body.eval fuel s).leave height head.arity.results .fell).andThen (rest.eval fuel)
  | nest .loop head body rest, s =>
    (Exit.rounds head.arity (body.eval fuel) fuel s).andThen (rest.eval fuel)
  | nest .cond head body rest, s =>
    (Exit.popped s fun c s => Exit.entered head.arity s fun height =>
      if c ≠ 0 then (body.eval fuel s).leave height head.arity.results .fell
      else .fell s).andThen (rest.eval fuel)
  | ifElse head thenArm elseArm rest, s =>
    (Exit.popped s fun c s => Exit.entered head.arity s fun height =>
      if c ≠ 0 then (thenArm.eval fuel s).fallOut.leave height head.arity.results .fell
      else (elseArm.eval fuel s).leave height head.arity.results .fell).andThen (rest.eval fuel)

/-! ## Endings -/

/-- How a body ends, with what it leaves behind. -/
inductive Ending where
  | returned (s : Scope)
  | called (func : UInt32) (s : Scope)
  | trapped (t : Trap) (s : Scope)

/-- A tree knows no offsets. -/
def Trap.withoutOffset : Trap → Trap
  | .malformed _ => .malformed 0
  | .illegalOpcode opcode _ => .illegalOpcode opcode 0
  | t => t

/-- The ending of a body. One level past the outermost construct is the body itself, which returns;
farther out there is nothing. -/
def Exit.ending : Exit → Option Ending
  | .fell s | .broke 0 s | .returned s => some (.returned s)
  | .broke (_ + 1) s => some (.trapped (.malformed 0) s)
  | .called func s => some (.called func s)
  | .trapped t s => some (.trapped t.withoutOffset s)
  | .exhausted => none

/-- The ending that a tree comes to with at most `fuel` rounds for each loop. -/
def Body.ending (b : Body types) (fuel : Nat) (s : Scope) : Option Ending :=
  (b.eval fuel s).ending

/-! ## Trees without calls -/

/-- No instruction of the tree is a call. -/
def Body.CallFree : Body types → Prop
  | nil => True
  | leaf l rest =>
    (∀ func, l.instr ≠ .call func) ∧ (∀ type table, l.instr ≠ .callIndirect type table) ∧
      rest.CallFree
  | nest _ _ body rest => body.CallFree ∧ rest.CallFree
  | ifElse _ thenArm elseArm rest => thenArm.CallFree ∧ elseArm.CallFree ∧ rest.CallFree

/-- The exit is not a call. -/
def Exit.NoCall : Exit → Prop
  | .called _ _ => False
  | _ => True

namespace Exit

variable {exit : Exit} {next : Scope → Exit}

theorem noCall_popped {next : UInt32 → Scope → Exit} (h : ∀ c s, (next c s).NoCall) :
    (popped s next).NoCall := by
  unfold popped
  split
  · exact h _ _
  · exact trivial

/-- Leaving by a call is left to the bodies inside. -/
theorem noCall_entered (h : ∀ height, (inside height).NoCall) :
    (entered arity s inside).NoCall := by
  unfold entered
  split
  · exact trivial
  · exact h _

theorem NoCall.leave (h : exit.NoCall) (hnext : ∀ s, (next s).NoCall) :
    (exit.leave height arity next).NoCall := by
  cases exit with
  | broke depth s =>
    cases depth with
    | zero =>
      simp only [Exit.leave, unwound]
      split
      · exact trivial
      · exact hnext _
    | succ depth => exact trivial
  | _ => exact h

theorem NoCall.fallOut (h : exit.NoCall) : exit.fallOut.NoCall := by
  cases exit with
  | called => exact h
  | _ => exact trivial

theorem NoCall.andThen (h : exit.NoCall) (hnext : ∀ s, (next s).NoCall) :
    (exit.andThen next).NoCall := by
  cases exit with
  | fell s => exact hnext s
  | _ => exact h

theorem noCall_rounds {inside : Scope → Exit} (h : ∀ s, (inside s).NoCall) (n : Nat) (s : Scope) :
    (rounds arity inside n s).NoCall := by
  induction n generalizing s with
  | zero => exact trivial
  | succ n ih => exact noCall_entered fun height => (h s).leave ih

end Exit

/-- Only the two calls leave by a call. -/
theorem Instr.noCall_eval {instr : Instr} (h : ∀ func, instr ≠ .call func)
    (h' : ∀ type table, instr ≠ .callIndirect type table) (s : Scope) :
    (instr.eval types s).NoCall := by
  cases instr with
  | plain op =>
    simp only [eval]
    split <;> exact trivial
  | brIf depth =>
    simp only [eval]
    refine Exit.noCall_popped fun c s => ?_
    split <;> exact trivial
  | brTable depths last =>
    simp only [eval]
    exact Exit.noCall_popped fun c s => trivial
  | call func => exact absurd rfl (h func)
  | callIndirect type table => exact absurd rfl (h' type table)
  | _ => exact trivial

/-- A tree without calls is not left by a call. -/
theorem Body.noCall_eval (b : Body types) (h : b.CallFree) (fuel : Nat) (s : Scope) :
    (b.eval fuel s).NoCall := by
  induction b generalizing s with
  | nil => exact trivial
  | leaf l rest ih => exact (Instr.noCall_eval h.1 h.2.1 s).andThen (ih h.2.2)
  | nest kind head body rest ihBody ihRest =>
    cases kind with
    | block =>
      refine Exit.NoCall.andThen (Exit.noCall_entered fun height => ?_) (ihRest h.2)
      exact (ihBody h.1 s).leave fun _ => trivial
    | loop => exact (Exit.noCall_rounds (ihBody h.1) fuel s).andThen (ihRest h.2)
    | cond =>
      refine Exit.NoCall.andThen
        (Exit.noCall_popped fun c s => Exit.noCall_entered fun height => ?_)
        (ihRest h.2)
      split
      · exact (ihBody h.1 s).leave fun _ => trivial
      · exact trivial
  | ifElse head thenArm elseArm rest ihThen ihElse ihRest =>
    refine Exit.NoCall.andThen (Exit.noCall_popped fun c s => Exit.noCall_entered fun height => ?_)
      (ihRest h.2.2)
    split
    · exact (ihThen h.1 s).fallOut.leave fun _ => trivial
    · exact (ihElse h.2.1 s).leave fun _ => trivial

/-- So it does not end in one. -/
theorem Body.ending_ne_called (b : Body types) (h : b.CallFree) :
    b.ending fuel s ≠ some (.called func s') := by
  intro hending
  have hexit := b.noCall_eval h fuel s
  unfold Body.ending at hending
  cases heval : b.eval fuel s with
  | called =>
    rw [heval] at hexit
    exact hexit
  | broke depth =>
    rw [heval] at hending
    cases depth <;> cases hending
  | fell | returned | trapped | exhausted =>
    rw [heval] at hending
    cases hending

end Wasm
