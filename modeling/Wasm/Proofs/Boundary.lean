import Wasm.Proofs.Scan

/-!
# Wasm.Proofs.Boundary

The boundaries between the instructions of an accepted body: the positions the scan passes, each
with the blocks that are open there.

* `Scan.Visited` are the states of the scan, `Scan.Boundary` forgets the map of such a state.
* `Visited.opened_from`: an open block began at a boundary, and so did its second arm.
* `Boundary.exists_block`: the map has an entry for each open block, and the places that the entry
  names are boundaries, with the same blocks open around.
-/

namespace Wasm

open Reader hiding offset

/-- An open block as it was when it began. -/
def OpenBlock.opener (o : OpenBlock) : OpenBlock := { o with elseAt := none }

namespace Scan

/-- The states that the scan of a body passes through. -/
inductive Visited (body : Array UInt8) (types : Array FuncType) : Scan → Prop where
  | start : Visited body types Scan.start
  | step (h : Visited body types s) (hstep : s.step body types = .next s') :
      Visited body types s'

/-- The scan of a body passes `pos` with the blocks `opened` open, the innermost one first. -/
def Boundary (body : Array UInt8) (types : Array FuncType) (pos : Nat)
    (opened : List OpenBlock) : Prop :=
  ∃ blocks, Visited body types ⟨pos, opened, blocks⟩

variable {body : Array UInt8} {types : Array FuncType} {s s' : Scan} {map : BlockMap}

theorem Visited.boundary (h : Visited body types s) : Boundary body types s.pos s.opened :=
  ⟨s.blocks, h⟩

theorem Visited.move (h : Visited body types s) (hmove : Move body types s (.next s')) :
    Visited body types s' :=
  .step h hmove.step_eq

theorem Visited.steps (h : Visited body types s) (hsteps : Steps body types n s s') :
    Visited body types s' := by
  induction hsteps with
  | refl => exact h
  | cons hmove _ ih => exact ih (h.move hmove)

/-- From each of its states, the scan of an accepted body comes to its end. -/
theorem Visited.exists_run (h : Visited body types s) (hmap : analyzeBlocks body types = .ok map) :
    ∃ n, s.run body types n = .ok map := by
  induction h with
  | start => exact ⟨_, hmap⟩
  | step _ hstep ih =>
    obtain ⟨n, hrun⟩ := ih
    cases n with
    | zero => contradiction
    | succ n =>
      rw [run, hstep] at hrun
      exact ⟨n, hrun⟩

/-- At each of its states, the scan of an accepted body makes a move. -/
theorem Visited.exists_move (h : Visited body types s) (hmap : analyzeBlocks body types = .ok map) :
    ∃ o, Move body types s o := by
  obtain ⟨n, hrun⟩ := h.exists_run hmap
  obtain ⟨m, -, ⟨s', hmove, -⟩ | hfinish⟩ := Scan.exists_move hrun
  · exact ⟨_, hmove⟩
  · exact ⟨_, hfinish⟩

/-! ## Where open blocks began -/

/-- What the scan has passed of an open block `o` with the blocks `outer` around it. -/
structure OpenedFrom (body : Array UInt8) (types : Array FuncType) (o : OpenBlock)
    (outer : List OpenBlock) : Prop where
  opener : Boundary body types o.start outer
  elseArm : o.elseAt = some e → Boundary body types (e + 1) (o :: outer)

/-- A state of the scan comes behind the openers of its blocks, all of which it has passed. -/
theorem Visited.opened_from (h : Visited body types s) (hopened : o :: outer <:+ s.opened) :
    o.start < s.pos ∧ OpenedFrom body types o outer := by
  induction h generalizing o with
  | start => simp [Scan.start] at hopened
  | step h hstep ih =>
    cases Move.of_step hstep (fun _ hfail => by cases hfail) with
    | leaf l hl =>
      obtain ⟨hlt, hfrom⟩ := ih hopened
      exact ⟨Nat.lt_of_lt_of_le hlt (Nat.le_add_right _ _), hfrom⟩
    | opener kind head hhead =>
      simp only [entered] at hopened ⊢
      obtain heq | hopened := List.suffix_cons_iff.mp hopened
      · injection heq with ho houter
        subst ho houter
        refine ⟨?_, ⟨h.boundary, fun helse => by cases helse⟩⟩
        simp only [BlockHead.opened]
        omega
      · obtain ⟨hlt, hfrom⟩ := ih hopened
        exact ⟨by omega, hfrom⟩
    -- The block on top is opened anew, with its `else`; those below stay.
    | elseArm helse hopen hkind hfirst =>
      rw [hopen] at ih
      obtain heq | hopened := List.suffix_cons_iff.mp hopened
      · injection heq with ho houter
        subst ho houter
        obtain ⟨hlt, hfrom⟩ := ih (List.suffix_refl _)
        refine ⟨Nat.lt_succ_of_lt hlt, ⟨hfrom.opener, fun he => ?_⟩⟩
        injection he with he
        subst he
        exact (h.step hstep).boundary
      · obtain ⟨hlt, hfrom⟩ := ih (List.suffix_cons_iff.mpr (.inr hopened))
        exact ⟨Nat.lt_succ_of_lt hlt, hfrom⟩
    | close hend hopen =>
      rw [hopen] at ih
      obtain ⟨hlt, hfrom⟩ := ih (List.suffix_cons_iff.mpr (.inr hopened))
      exact ⟨Nat.lt_succ_of_lt hlt, hfrom⟩

/-! ## Where open blocks end -/

/-- The scan of an accepted body comes from an open block to the `end` of it. -/
theorem Visited.exists_end (h : Visited body types s) (hmap : analyzeBlocks body types = .ok map)
    (hopened : s.opened = o :: outer) :
    ∃ t o', Visited body types t ∧ StandsAt body t.pos [endOpcode] ∧ t.opened = o' :: outer ∧
      o'.opener = o.opener ∧ s.pos ≤ t.pos := by
  obtain ⟨n, hrun⟩ := h.exists_run hmap
  obtain ⟨b, x, m, -, hx, hb, hpast⟩ := exists_row hrun
  obtain ⟨k, -, hsteps⟩ := steps_past b hb
  have hvisited := h.steps hsteps
  have hopened : (s.past b).opened = o :: outer := hopened
  obtain rfl | rfl := hx
  · obtain ⟨hkind, hfirst, m, rfl, hdivided⟩ := run_divide hb.right hopened hpast
    have hvisited' := hvisited.move (.elseArm hb.right hopened hkind hfirst)
    obtain ⟨b', x', m', -, hx', hb', hpast'⟩ := exists_row hdivided
    obtain ⟨k', -, hsteps'⟩ := steps_past b' hb'
    obtain rfl | rfl := hx'
    · -- The conditional has its second arm already.
      obtain ⟨-, hfirst', -⟩ := run_divide hb'.right rfl hpast'
      contradiction
    · refine ⟨_, _, hvisited'.steps hsteps', hb'.right, rfl, rfl, ?_⟩
      simp only [past, divided]
      omega
  · exact ⟨_, o, hvisited, hb.right, hopened, rfl, Nat.le_add_right _ _⟩

/-- The same for a block with others open inside it, which are closed before. -/
theorem Visited.exists_end_of_suffix (h : Visited body types s)
    (hmap : analyzeBlocks body types = .ok map) (hopened : s.opened = nested ++ o :: outer) :
    ∃ t o', Visited body types t ∧ StandsAt body t.pos [endOpcode] ∧ t.opened = o' :: outer ∧
      o'.opener = o.opener ∧ s.pos ≤ t.pos := by
  induction nested generalizing s with
  | nil => exact h.exists_end hmap hopened
  | cons x nested ih =>
    obtain ⟨t, x', ht, hend, hx, -, hle⟩ := h.exists_end hmap hopened
    obtain ⟨t', o', ht', hend', ho', hopener, hle'⟩ := ih (ht.move (.close hend hx)) rfl
    exact ⟨t', o', ht', hend', ho', hopener, Nat.le_trans hle (Nat.le_of_succ_le hle')⟩

/-- A run keeps the entries of blocks that are closed. -/
theorem getElem?_of_run (h : s.run body types n = .ok map) (hk : s.blocks[k]? = some x)
    (hlt : k < s.pos) (hne : ∀ o ∈ s.opened, o.start ≠ k) : map[k]? = some x := by
  induction n generalizing s with
  | zero => contradiction
  | succ n ih =>
    obtain ⟨m, heq, ⟨s', hmove, hrun⟩ | hfinish⟩ := exists_move h
    · obtain rfl : n = m := Nat.succ.inj heq
      cases hmove with
      | leaf l hl => exact ih hrun hk (Nat.lt_of_lt_of_le hlt (Nat.le_add_right _ _)) hne
      | opener kind head hhead =>
        refine ih hrun hk ?_ (List.forall_mem_cons.mpr ⟨?_, hne⟩)
        · simp only [entered]
          omega
        · exact Nat.ne_of_gt hlt
      | elseArm helse hopened hkind hfirst =>
        rw [hopened, List.forall_mem_cons] at hne
        exact ih hrun hk (Nat.lt_succ_of_lt hlt) (List.forall_mem_cons.mpr hne)
      | close hend hopened =>
        rw [hopened, List.forall_mem_cons] at hne
        refine ih hrun ?_ (Nat.lt_succ_of_lt hlt) hne.2
        rw [closed, Body.getElem?_insert_of_ne hne.1, hk]
    · cases hfinish with
      | finish => exact hk

/-- The places that a block names are boundaries, with the blocks `outer` around it. -/
structure Targets (body : Array UInt8) (types : Array FuncType) (b : Block)
    (outer : List OpenBlock) : Prop extends OpenedFrom body types b.toOpenBlock outer where
  blockEnd : Boundary body types b.endAt (b.toOpenBlock :: outer)
  after : Boundary body types (b.endAt + 1) outer

/-- The map of an accepted body has an entry for each block that is open at a boundary. It says how
the block began, and where it ends, which is not before the boundary. -/
theorem Boundary.exists_block {pos : Nat} {opened : List OpenBlock}
    (h : Boundary body types pos opened) (hmap : analyzeBlocks body types = .ok map)
    (hopened : o :: outer <:+ opened) :
    ∃ b : Block, map[o.start]? = some b ∧ b.opener = o.opener ∧ Targets body types b outer ∧
      pos ≤ b.endAt := by
  obtain ⟨blocks, h⟩ := h
  obtain ⟨inner, hopened⟩ := hopened
  obtain ⟨t, o', ht, hend, ho', hopener, hle⟩ := h.exists_end_of_suffix hmap hopened.symm
  obtain ⟨hlt, hfrom⟩ := ht.opened_from ⟨[], ho'.symm⟩
  have hclosed := ht.move (.close hend ho')
  have hstart : o'.start = o.start := congrArg (·.start) hopener
  refine ⟨⟨o', t.pos⟩, ?_, hopener, { hfrom with blockEnd := ?_, after := hclosed.boundary }, hle⟩
  · obtain ⟨n, hrun⟩ := hclosed.exists_run hmap
    rw [← hstart]
    refine getElem?_of_run hrun Std.TreeMap.getElem?_insert_self (Nat.lt_succ_of_lt hlt) ?_
    -- The blocks around it began before it did.
    intro x hx
    obtain ⟨inner', outer', rfl⟩ := List.append_of_mem hx
    obtain ⟨_, hopening⟩ := hfrom.opener
    obtain ⟨hlt', -⟩ := hopening.opened_from ⟨inner', rfl⟩
    exact Nat.ne_of_lt hlt'
  · have hboundary := ht.boundary
    rwa [ho'] at hboundary

end Scan

end Wasm
