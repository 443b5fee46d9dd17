import Wasm.Proofs.Body

/-!
# Wasm.Proofs.Scan

The scan for blocks accepts exactly the well-nested bodies, and its map holds their blocks.

* `Scan.Move` lists what passing over one instruction can do, by the bytes that stand there;
  `Move.step_eq` and `Move.of_step` tie it to `Scan.step`.
* `Scan.steps_past`: the scan passes over the bytes of a tree and records its blocks.
* `Scan.exists_row`: a scan that comes to its end passes over a tree first, up to a delimiter.
* `analyzeBlocks_eq_ok_iff` puts the two together.
-/

namespace Wasm

open Reader hiding offset

namespace Scan

/-! ## One step -/

/-- The scan inside a block that begins at its position. -/
def entered (kind : BlockKind) (head : BlockHead types) (s : Scan) : Scan :=
  { s with
    pos := s.pos + 1 + head.bytes.length
    opened := head.opened kind s.pos none :: s.opened }

/-- The scan behind the `else` of `o`. -/
def divided (o : OpenBlock) (outer : List OpenBlock) (s : Scan) : Scan :=
  { s with pos := s.pos + 1, opened := { o with elseAt := some s.pos } :: outer }

/-- The scan behind the `end` of `o`. -/
def closed (o : OpenBlock) (outer : List OpenBlock) (s : Scan) : Scan :=
  ⟨s.pos + 1, outer, s.blocks.insert o.start ⟨o, s.pos⟩⟩

/-- What one instruction does to the scan, unless the scan fails. -/
inductive Move (body : Array UInt8) (types : Array FuncType) (s : Scan) : Outcome → Prop where
  | leaf (l : Leaf) (h : StandsAt body s.pos l.bytes) :
      Move body types s (.next { s with pos := s.pos + l.bytes.length })
  | opener (kind : BlockKind) (head : BlockHead types)
      (h : StandsAt body s.pos (kind.opcode :: head.bytes)) :
      Move body types s (.next (s.entered kind head))
  | elseArm (h : StandsAt body s.pos [elseOpcode]) (hopened : s.opened = o :: outer)
      (hkind : o.kind = .cond) (hfirst : o.elseAt = none) :
      Move body types s (.next (s.divided o outer))
  | close (h : StandsAt body s.pos [endOpcode]) (hopened : s.opened = o :: outer) :
      Move body types s (.next (s.closed o outer))
  | finish (h : StandsAt body s.pos [endOpcode]) (hopened : s.opened = [])
      (hlast : body.size = s.pos + 1) :
      Move body types s (.finished s.blocks)

/-- The scan goes from `s` to `s'` in `n` steps. -/
inductive Steps (body : Array UInt8) (types : Array FuncType) : Nat → Scan → Scan → Prop where
  | refl (s : Scan) : Steps body types 0 s s
  | cons (h : Move body types s (.next s')) (hs : Steps body types n s' s'') :
      Steps body types (n + 1) s s''

variable {body : Array UInt8} {types : Array FuncType} {s : Scan}

/-! The opcode decides. -/

theorem step_of_standsAt (h : StandsAt body s.pos [opcode]) :
    s.step body types = s.pass body types opcode (s.pos + 1) := by
  have hlt : ¬ body.size ≤ s.pos := by
    have := h.le_size
    simp only [List.length_singleton] at this
    omega
  rw [step, if_neg hlt, runAt_u8_of_some h.getElem?]

/-- How the scan goes on at each opcode of the block structure. -/
theorem step_opener (h : StandsAt body s.pos [BlockKind.opcode kind]) :
    s.step body types = s.openBlock body types kind (s.pos + 1) := by
  rw [step_of_standsAt h]
  cases kind <;> rfl

theorem step_else (h : StandsAt body s.pos [elseOpcode]) :
    s.step body types = s.addElse (s.pos + 1) :=
  step_of_standsAt h

theorem step_end (h : StandsAt body s.pos [endOpcode]) :
    s.step body types = s.closeBlock body (s.pos + 1) :=
  step_of_standsAt h

/-- Other instructions are passed by the length of their immediates. -/
theorem pass_other (hs : ¬ IsStructural opcode) :
    s.pass body types opcode next =
      match (skipImmediates opcode).runAt body next with
      | .error e _ => .failed (.read e)
      | .ok _ next => .next { s with pos := next } := by
  unfold pass
  split
  all_goals first
    | rfl
    | exact absurd hs (by decide)

/-- A move is what the step does. -/
theorem Move.step_eq (h : Move body types s o) : s.step body types = o := by
  cases h with
  | leaf l h =>
    obtain ⟨opcode, imm, hbytes, hs, hskip⟩ := l.spelled.skip
    rw [hbytes] at h ⊢
    rw [step_of_standsAt h.head, pass_other hs, hskip body _ h.tail]
    simp only [List.length_cons]
    rw [Nat.add_assoc, Nat.add_comm 1]
  | opener kind head h =>
    rw [step_opener h.head, openBlock, head.spelled.read body _ h.tail]
    simp only [head.known]
    rw [Nat.add_sub_cancel_left]
    rfl
  | elseArm h hopened hkind hfirst =>
    rw [step_else h, addElse, hopened]
    exact if_pos ⟨hkind, hfirst⟩
  | close h hopened =>
    rw [step_end h, closeBlock, hopened]
    rfl
  | finish h hopened hlast =>
    rw [step_end h, closeBlock, hopened]
    simp only
    rw [if_pos (Nat.le_of_eq hlast)]

/-- An opener is passed if a block type follows that means something. -/
theorem Move.of_openBlock (h : StandsAt body s.pos [BlockKind.opcode kind])
    (hopen : s.openBlock body types kind (s.pos + 1) = o) (hok : ∀ e, o ≠ .failed e) :
    Move body types s o := by
  rw [openBlock] at hopen
  split at hopen
  · exact absurd hopen.symm (hok _)
  · exact absurd hopen.symm (hok _)
  · next type next hread =>
    split at hopen
    · exact absurd hopen.symm (hok _)
    · next arity hknown =>
      obtain ⟨bs, hbs, rfl, hspells⟩ := BlockType.exists_spells_of_read h.le_size hread
      rw [List.length_singleton, Nat.add_sub_cancel_left] at hopen
      subst hopen
      exact Move.opener kind ⟨type, arity, bs, hspells, hknown⟩ (h.append hbs)

/-- A step that does not fail is a move. -/
theorem Move.of_step (h : s.step body types = o) (hok : ∀ e, o ≠ .failed e) :
    Move body types s o := by
  by_cases hsize : body.size ≤ s.pos
  · rw [step, if_pos hsize] at h
    exact absurd h.symm (hok _)
  obtain ⟨bs, hlen, hbs⟩ := exists_standsAt (n := 1) (Nat.lt_of_not_le hsize)
  obtain ⟨opcode, rfl⟩ := List.length_eq_one_iff.mp hlen
  by_cases hs : IsStructural opcode
  · obtain ⟨kind, rfl⟩ | rfl | rfl := hs.cases
    · rw [step_opener hbs] at h
      exact .of_openBlock hbs h hok
    · rw [step_else hbs, addElse] at h
      split at h
      · next o outer hopened =>
        split at h
        · next hcond =>
          subst h
          exact .elseArm hbs hopened hcond.1 hcond.2
        · exact absurd h.symm (hok _)
      · exact absurd h.symm (hok _)
    · rw [step_end hbs, closeBlock] at h
      split at h
      · next o outer hopened =>
        subst h
        exact .close hbs hopened
      · next hopened =>
        split at h
        · next hlast =>
          subst h
          exact .finish hbs hopened (Nat.le_antisymm hlast hbs.le_size)
        · exact absurd h.symm (hok _)
  -- What was skipped is an instruction, although the scan has looked at its length alone.
  · rw [step_of_standsAt hbs, pass_other hs] at h
    cases hskip : (skipImmediates opcode).runAt body (s.pos + 1) with
    | error e next =>
      rw [hskip] at h
      exact absurd h.symm (hok _)
    | ok u next =>
      rw [hskip] at h
      obtain ⟨imm, himm, rfl, hreads⟩ := local_skipImmediates opcode _ _ _ _ hbs.le_size hskip
      obtain ⟨instr, hspells⟩ := exists_spells_of_skip hs hreads
      have hmove : Move body types s _ :=
        .leaf ⟨instr, opcode :: imm, hspells⟩ (hbs.append himm)
      rw [List.length_cons, Nat.add_comm imm.length, ← Nat.add_assoc] at hmove
      subst h
      exact hmove

/-! ## Many steps -/

namespace Steps

theorem one (h : Move body types s (.next s')) : Steps body types 1 s s' :=
  .cons h (.refl s')

theorem trans (h : Steps body types m s s') (h' : Steps body types n s' s'') :
    Steps body types (m + n) s s'' := by
  induction h with
  | refl => rwa [Nat.zero_add]
  | cons hmove _ ih =>
    rw [Nat.add_right_comm]
    exact .cons hmove (ih h')

/-- Steps can be taken ahead of a run. -/
theorem run_eq (h : Steps body types n s s') (k : Nat) :
    s.run body types (n + k) = s'.run body types k := by
  induction h with
  | refl => rw [Nat.zero_add]
  | cons hmove _ ih =>
    rw [Nat.add_right_comm, run, hmove.step_eq]
    exact ih

end Steps

/-- The scan behind the bytes of a tree. -/
def past (b : Body types) (s : Scan) : Scan :=
  ⟨s.pos + b.bytes.length, s.opened, b.record s.pos s.blocks⟩

/-- To be past a leaf and the rest is to be past the body. -/
theorem past_leaf (s : Scan) (l : Leaf) (rest : Body types) :
    { s with pos := s.pos + l.bytes.length : Scan }.past rest = s.past (.leaf l rest) := by
  simp only [past, Body.record, Body.bytes, List.length_append, Nat.add_assoc]

/-- The scan at the `end` of a block without a second arm is put behind the block. -/
theorem past_nest (s : Scan) (kind : BlockKind) (head : BlockHead types) (b rest : Body types) :
    (((s.entered kind head).past b).closed (head.opened kind s.pos none) s.opened).past rest =
      s.past (.nest kind head b rest) := by
  simp only [past, closed, entered, Body.record, Body.bytes, List.length_append, List.length_cons,
    BlockHead.opened, Scan.mk.injEq, and_true]
  omega

/-- The scan at the beginning of the second arm of a conditional. -/
def secondArm (head : BlockHead types) (thenArm : Body types) (s : Scan) : Scan :=
  ((s.entered .cond head).past thenArm).divided (head.opened .cond s.pos none) s.opened

/-- The scan at the `end` of a second arm is put behind the conditional. -/
theorem past_ifElse (s : Scan) (head : BlockHead types) (thenArm elseArm rest : Body types) :
    (((s.secondArm head thenArm).past elseArm).closed
        (head.opened .cond s.pos (some ((s.entered .cond head).past thenArm).pos)) s.opened).past
      rest = s.past (.ifElse head thenArm elseArm rest) := by
  simp only [secondArm, past, closed, divided, entered, Body.record, Body.bytes,
    List.length_append, List.length_cons, BlockHead.opened, Scan.mk.injEq, and_true]
  omega

/-- An `else` divides the block that was opened last. -/
theorem move_divide {s : Scan} {head : BlockHead types} {thenArm : Body types}
    (h : StandsAt body ((s.entered .cond head).past thenArm).pos [elseOpcode]) :
    Move body types ((s.entered .cond head).past thenArm) (.next (s.secondArm head thenArm)) :=
  .elseArm h rfl rfl rfl

/-! ## The scan passes over trees -/

/-- Where the bytes of a tree stand, the scan passes over them, an instruction at a time, and
records the blocks of the tree. -/
theorem steps_past (b : Body types) {s : Scan} (h : StandsAt body s.pos (b.bytes ++ cs)) :
    ∃ n, n ≤ b.bytes.length ∧ Steps body types n s (s.past b) := by
  induction b generalizing s cs with
  | nil => exact ⟨0, Nat.le_refl 0, .refl s⟩
  | leaf l rest ih =>
    obtain ⟨hl, hrest⟩ := Body.standsAt_leaf h
    obtain ⟨n, hn, hsteps⟩ := ih (s := { s with pos := s.pos + l.bytes.length }) hrest
    obtain ⟨opcode, imm, hbytes, -⟩ := l.exists_opcode
    rw [past_leaf] at hsteps
    refine ⟨n + 1, ?_, .cons (.leaf l hl) hsteps⟩
    rw [Body.bytes, List.length_append, hbytes, List.length_cons]
    omega
  | nest kind head b rest ihBody ihRest =>
    obtain ⟨hopener, hhead, hbody, hrest⟩ := Body.standsAt_nest h
    obtain ⟨m, hm, hinner⟩ := ihBody (s := s.entered kind head) hbody
    obtain ⟨n, hn, houter⟩ := ihRest (s := ((s.entered kind head).past b).closed _ _) hrest
    rw [past_nest] at houter
    have hsteps := (Steps.one (.opener kind head (hopener.append hhead))).trans
      (hinner.trans ((Steps.one (.close hbody.right rfl)).trans houter))
    refine ⟨_, ?_, hsteps⟩
    simp only [Body.bytes, List.length_cons, List.length_append]
    omega
  | ifElse head thenArm elseArm rest ihThen ihElse ihRest =>
    obtain ⟨hopener, hhead, hthen, helse, hrest⟩ := Body.standsAt_ifElse h
    obtain ⟨k, hk, hinner⟩ := ihThen (s := s.entered .cond head) hthen
    obtain ⟨m, hm, hinner'⟩ := ihElse (s := s.secondArm head thenArm) helse
    obtain ⟨n, hn, houter⟩ := ihRest
      (s := ((s.secondArm head thenArm).past elseArm).closed _ _) hrest
    rw [past_ifElse] at houter
    have hsteps := (Steps.one (.opener .cond head (hopener.append hhead))).trans
      (hinner.trans ((Steps.one (move_divide hthen.right)).trans
        (hinner'.trans ((Steps.one (.close helse.right rfl)).trans houter))))
    refine ⟨_, ?_, hsteps⟩
    simp only [Body.bytes, List.length_cons, List.length_append]
    omega

/-! ## A scan that comes to its end passes over a tree -/

/-- A run that succeeds begins with a move. -/
theorem exists_move (h : s.run body types n = .ok map) :
    ∃ m, n = m + 1 ∧ ((∃ s', Move body types s (.next s') ∧ s'.run body types m = .ok map) ∨
      Move body types s (.finished map)) := by
  cases n with
  | zero => contradiction
  | succ m =>
    refine ⟨m, rfl, ?_⟩
    rw [run] at h
    split at h
    · next s' hstep => exact .inl ⟨s', .of_step hstep nofun, h⟩
    · next blocks hstep =>
      injection h with h
      subst h
      exact .inr (.of_step hstep nofun)
    · contradiction

/-- With a block open, a run goes on behind its `end`. -/
theorem run_close (hend : StandsAt body s.pos [endOpcode]) (hopened : s.opened = o :: outer)
    (h : s.run body types n = .ok map) :
    ∃ m, n = m + 1 ∧ (s.closed o outer).run body types m = .ok map := by
  cases n with
  | zero => contradiction
  | succ m =>
    have hclose : Move body types s _ := .close hend hopened
    rw [run, hclose.step_eq] at h
    exact ⟨m, rfl, h⟩

/-- Only a conditional without a second arm has an `else`, and a run goes on behind it. -/
theorem run_divide (helse : StandsAt body s.pos [elseOpcode]) (hopened : s.opened = o :: outer)
    (h : s.run body types n = .ok map) :
    o.kind = .cond ∧ o.elseAt = none ∧
      ∃ m, n = m + 1 ∧ (s.divided o outer).run body types m = .ok map := by
  cases n with
  | zero => contradiction
  | succ m =>
    by_cases hcond : o.kind = .cond ∧ o.elseAt = none
    · have hdivide : Move body types s _ := .elseArm helse hopened hcond.1 hcond.2
      rw [run, hdivide.step_eq] at h
      exact ⟨hcond.1, hcond.2, m, rfl, h⟩
    · rw [run, step_else helse, addElse, hopened] at h
      simp only [if_neg hcond] at h
      contradiction

/-- With no block open, a run is over at a delimiter: it is the `end` of the body. -/
theorem run_finish (hx : IsDelimiter x) (hbs : StandsAt body s.pos [x]) (hopened : s.opened = [])
    (h : s.run body types n = .ok map) : x = endOpcode ∧ body.size = s.pos + 1 := by
  cases n with
  | zero => contradiction
  | succ m =>
    obtain rfl | rfl := hx
    · rw [run, step_else hbs, addElse, hopened] at h
      contradiction
    · rw [run, step_end hbs, closeBlock, hopened] at h
      by_cases hlast : body.size ≤ s.pos + 1
      · exact ⟨rfl, Nat.le_antisymm hlast hbs.le_size⟩
      · simp only [if_neg hlast] at h
        contradiction

/-- A run that succeeds passes over a tree first, and then it is at a delimiter. -/
theorem exists_row (h : s.run body types n = .ok map) :
    ∃ (b : Body types) (x : UInt8) (m : Nat), m ≤ n ∧ IsDelimiter x ∧
      StandsAt body s.pos (b.bytes ++ [x]) ∧ (s.past b).run body types m = .ok map := by
  induction n using Nat.strongRecOn generalizing s with
  | ind n ih =>
    obtain ⟨m, rfl, ⟨s', hmove, hrun⟩ | hfinish⟩ := exists_move h
    · cases hmove with
      | leaf l hl =>
        obtain ⟨b, x, k, hk, hx, hb, hpast⟩ := ih m (Nat.lt_succ_self m) hrun
        rw [past_leaf] at hpast
        refine ⟨.leaf l b, x, k, by omega, hx, ?_, hpast⟩
        rw [Body.bytes, List.append_assoc]
        exact hl.append hb
      | opener kind head hhead =>
        obtain ⟨b, x, k, hk, hx, hb, hpast⟩ := ih m (Nat.lt_succ_self m) hrun
        obtain rfl | rfl := hx
        · obtain ⟨hkind, -, k, rfl, hdivided⟩ := run_divide hb.right rfl hpast
          obtain rfl : kind = .cond := hkind
          obtain ⟨b', x', k', hk', hx', hb', hpast'⟩ := ih k (by omega) hdivided
          obtain rfl | rfl := hx'
          · -- The conditional has its second arm already.
            obtain ⟨-, hfirst, -⟩ := run_divide hb'.right rfl hpast'
            contradiction
          · obtain ⟨k', rfl, hclosed⟩ := run_close hb'.right rfl hpast'
            obtain ⟨rest, x, l, hl, hx, hrest, hrun⟩ := ih k' (by omega) hclosed
            refine ⟨.ifElse head b b' rest, x, l, by omega, hx, ?_, ?_⟩
            · exact Body.standsAt_ifElse_of hhead hb hb' hrest
            · rw [← past_ifElse]
              exact hrun
        · obtain ⟨k, rfl, hclosed⟩ := run_close hb.right rfl hpast
          obtain ⟨rest, x, l, hl, hx, hrest, hrun⟩ := ih k (by omega) hclosed
          refine ⟨.nest kind head b rest, x, l, by omega, hx, ?_, ?_⟩
          · exact Body.standsAt_nest_of hhead hb hrest
          · rw [← past_nest]
            exact hrun
      | elseArm helse => exact ⟨.nil, elseOpcode, m + 1, Nat.le_refl _, .inl rfl, helse, h⟩
      | close hend => exact ⟨.nil, endOpcode, m + 1, Nat.le_refl _, .inr rfl, hend, h⟩
    · cases hfinish with
      | finish hend => exact ⟨.nil, endOpcode, m + 1, Nat.le_refl _, .inr rfl, hend, h⟩

end Scan

/-! ## The accepted bodies -/

/-- The bytes of a body: those of a tree, and the `end` behind them. -/
def Body.Encodes (b : Body types) (body : Array UInt8) : Prop :=
  body.toList = b.bytes ++ [endOpcode]

theorem Body.Encodes.standsAt {b : Body types} (h : b.Encodes body) :
    StandsAt body 0 (b.bytes ++ [endOpcode]) := by
  rw [← h]
  exact StandsAt.of_toList body

/-- A body that is encoded ends with the last byte. -/
theorem Body.Encodes.size_eq {b : Body types} (h : b.Encodes body) :
    body.size = b.bytes.length + 1 := by
  rw [← Array.length_toList, h, List.length_append, List.length_singleton]

/-- Bytes encode one body at most. -/
theorem Body.Encodes.unique {b b' : Body types} (h : b.Encodes body) (h' : b'.Encodes body) :
    b = b' :=
  (bytes_unique (.inr rfl) (.inr rfl) h.standsAt h'.standsAt).1

/-- The scan of a body that a tree encodes gives the map of the tree. -/
theorem Body.Encodes.analyzeBlocks_eq {b : Body types} (h : b.Encodes body) :
    analyzeBlocks body types = .ok (b.record 0 ∅) := by
  obtain ⟨n, hn, hsteps⟩ := Scan.steps_past (s := Scan.start) b h.standsAt
  have hfinish : Scan.Move body types (Scan.start.past b) _ :=
    .finish h.standsAt.right rfl (by simp [h.size_eq, Scan.past, Scan.start])
  obtain ⟨k, hk⟩ := Nat.le.dest hn
  have hfuel : body.size + 1 = n + (k + 1 + 1) := by
    rw [h.size_eq]
    omega
  rw [analyzeBlocks, hfuel, hsteps.run_eq, Scan.run, hfinish.step_eq]
  rfl

/-- A body whose scan succeeds is encoded by a tree. -/
theorem exists_encodes (h : analyzeBlocks body types = .ok map) :
    ∃ b : Body types, b.Encodes body := by
  obtain ⟨b, x, m, -, hx, hb, hpast⟩ := Scan.exists_row h
  obtain ⟨rfl, hsize⟩ := Scan.run_finish hx hb.right rfl hpast
  refine ⟨b, hb.toList_eq ?_⟩
  rw [List.length_append, hsize, Scan.past, Scan.start, Nat.zero_add]
  rfl

/-- The scan succeeds for exactly the bodies that a tree encodes. There is one such tree, and the
map holds its blocks and nothing else, each under the position of its opener. Any two of them are
nested or disjoint, and an `else` stands between the opener and the `end`. -/
theorem analyzeBlocks_wellNested (body : Array UInt8) (types : Array FuncType) :
    ((∃ map, analyzeBlocks body types = .ok map) ↔ ∃ b : Body types, b.Encodes body) ∧
      ∀ b : Body types, b.Encodes body →
        (∀ b' : Body types, b'.Encodes body → b' = b) ∧
        (∃ map, analyzeBlocks body types = .ok map ∧
          map.toList = (b.blocks 0).map fun x => (x.start, x)) ∧
        (b.blocks 0).Pairwise Body.Follows ∧
        ∀ x ∈ b.blocks 0, x.start < x.endAt ∧
          ∀ e, x.elseAt = some e → x.start < e ∧ e < x.endAt := by
  refine ⟨⟨?_, ?_⟩, fun b hb => ⟨fun b' hb' => hb'.unique hb, ?_, b.pairwise_blocks 0, ?_⟩⟩
  · intro h
    obtain ⟨map, hmap⟩ := h
    exact exists_encodes hmap
  · intro h
    obtain ⟨b, hb⟩ := h
    exact ⟨_, hb.analyzeBlocks_eq⟩
  · exact ⟨_, hb.analyzeBlocks_eq, b.toList_record 0⟩
  · intro x hx
    exact ⟨(b.mem_blocks_bounds hx).2.1, fun e he => b.mem_blocks_elseAt hx he⟩

/-- A conditional whose block type is an index, with the bytes of `end` and `else` among the
immediates of its arms. -/
theorem analyzeBlocks_wellNested_arms :
    ∃ map, analyzeBlocks #[0x04, 0x00, 0x41, 0x0B, 0x05, 0x0C, 0x05, 0x0B, 0x0B]
        #[⟨[.i32], [.i32, .i64]⟩] = .ok map ∧
      map.toList = [(0, ⟨⟨.cond, 0, .func 0, ⟨1, 2⟩, 1, some 4⟩, 7⟩)] := by
  have htype : Reads s33 [0x00] 0 := local_s33.reads (StandsAt.of_toList #[0x00]) rfl
  have hconst : Reads s32 [0x0B] 11 := local_s32.reads (StandsAt.of_toList #[0x0B]) rfl
  have hdepth : Reads u32 [0x05] 5 := local_u32.reads (StandsAt.of_toList #[0x05]) rfl
  let b : Body #[⟨[.i32], [.i32, .i64]⟩] :=
    .ifElse ⟨.func 0, ⟨1, 2⟩, [0x00], .func htype, rfl⟩
      (.leaf ⟨_, [0x41, 0x0B], .i32Const hconst⟩ .nil)
      (.leaf ⟨_, [0x0C, 0x05], .br hdepth⟩ .nil) .nil
  exact ((analyzeBlocks_wellNested _ _).2 b rfl).2.1

end Wasm
