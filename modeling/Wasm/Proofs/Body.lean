import Wasm.Proofs.Spelling

/-!
# Wasm.Proofs.Body

The grammar of function bodies: instructions in a row, where an opener, its block type, the
instructions inside and the `end` form one item.

* `Body` is the type of such trees; `Body.bytes` are the bytes a tree stands for.
* `Body.blocks` lists the blocks of a tree in the order of their openers, `Body.record` puts them
  into a map as they are closed.
* `bytes_unique`: bytes stand for one tree at most.
* `toList_record`: the map holds the listed blocks by their position, and nothing else.
-/

namespace Wasm

open Reader hiding offset

/-! ## Trees -/

/-- An instruction outside the block structure, with bytes that spell it. -/
@[ext]
structure Leaf where
  instr : Instr
  bytes : List UInt8
  spelled : instr.Spells bytes

/-- What follows an opener: a block type, with bytes that spell it and the arity that it has among
`types`. -/
@[ext]
structure BlockHead (types : Array FuncType) where
  type : BlockType
  arity : Arity
  bytes : List UInt8
  spelled : type.Spells bytes
  known : type.arity? types = some arity

/-- The opcode of an opener. -/
def BlockKind.opcode : BlockKind → UInt8
  | .block => 0x02
  | .loop => 0x03
  | .cond => 0x04

/-- The opcode that divides the arms of a conditional. -/
def elseOpcode : UInt8 := 0x05

/-- The opcode that ends blocks and bodies. -/
def endOpcode : UInt8 := 0x0B

/-! Of an opener, execution reads the opcode alone. -/

/-- An opener is read without its block type, which only entering it asks for. -/
theorem reads_opener (kind : BlockKind) : Reads Instr.read [kind.opcode] (.opener kind) := by
  cases kind <;> exact Instr.reads_read_cons (Reads.pure _)

theorem reads_else : Reads Instr.read [elseOpcode] .elseArm :=
  Instr.reads_read_cons (Reads.pure _)

theorem reads_end : Reads Instr.read [endOpcode] .blockEnd :=
  Instr.reads_read_cons (Reads.pure _)

/-- Instructions in a row. A block of any kind is one item; a conditional may have a second arm. -/
inductive Body (types : Array FuncType) where
  | nil
  | leaf (l : Leaf) (rest : Body types)
  | nest (kind : BlockKind) (head : BlockHead types) (body rest : Body types)
  | ifElse (head : BlockHead types) (thenArm elseArm rest : Body types)

/-- An open block, as its opener at `start` gives it. -/
def BlockHead.opened (h : BlockHead types) (kind : BlockKind) (start : Nat)
    (elseAt : Option Nat) : OpenBlock :=
  ⟨kind, start, h.type, h.arity, h.bytes.length, elseAt⟩

namespace Body

/-- The bytes of a tree. -/
def bytes : Body types → List UInt8
  | nil => []
  | leaf l rest => l.bytes ++ rest.bytes
  | nest kind head body rest =>
    kind.opcode :: (head.bytes ++ (body.bytes ++ endOpcode :: rest.bytes))
  | ifElse head thenArm elseArm rest =>
    BlockKind.cond.opcode :: (head.bytes ++ (thenArm.bytes ++ elseOpcode ::
      (elseArm.bytes ++ endOpcode :: rest.bytes)))

/-- The blocks of a tree that stands at `pos`, in the order of their openers. -/
def blocks : Body types → (pos : Nat) → List Block
  | nil, _ => []
  | leaf l rest, pos => rest.blocks (pos + l.bytes.length)
  | nest kind head body rest, pos =>
    let inner := pos + 1 + head.bytes.length
    let endAt := inner + body.bytes.length
    ⟨head.opened kind pos none, endAt⟩ :: (body.blocks inner ++ rest.blocks (endAt + 1))
  | ifElse head thenArm elseArm rest, pos =>
    let inner := pos + 1 + head.bytes.length
    let elseAt := inner + thenArm.bytes.length
    let endAt := elseAt + 1 + elseArm.bytes.length
    ⟨head.opened .cond pos (some elseAt), endAt⟩ ::
      (thenArm.blocks inner ++ (elseArm.blocks (elseAt + 1) ++ rest.blocks (endAt + 1)))

/-- Put the blocks of a tree that stands at `pos` into a map, each one at its `end`. -/
def record : Body types → (pos : Nat) → BlockMap → BlockMap
  | nil, _, map => map
  | leaf l rest, pos, map => rest.record (pos + l.bytes.length) map
  | nest kind head body rest, pos, map =>
    let inner := pos + 1 + head.bytes.length
    let endAt := inner + body.bytes.length
    rest.record (endAt + 1)
      ((body.record inner map).insert pos ⟨head.opened kind pos none, endAt⟩)
  | ifElse head thenArm elseArm rest, pos, map =>
    let inner := pos + 1 + head.bytes.length
    let elseAt := inner + thenArm.bytes.length
    let endAt := elseAt + 1 + elseArm.bytes.length
    rest.record (endAt + 1)
      ((elseArm.record (elseAt + 1) (thenArm.record inner map)).insert pos
        ⟨head.opened .cond pos (some elseAt), endAt⟩)

end Body

/-! ## Bytes stand for one tree -/

/-- A byte that ends a row of instructions. -/
def IsDelimiter (b : UInt8) : Prop :=
  b = elseOpcode ∨ b = endOpcode

instance : DecidablePred IsDelimiter := fun b =>
  inferInstanceAs (Decidable (b = elseOpcode ∨ b = endOpcode))

/-- What ends a body is part of the block structure. -/
theorem IsDelimiter.isStructural (h : IsDelimiter b) : IsStructural b := by
  obtain rfl | rfl := h <;> decide

theorem BlockKind.isStructural_opcode (kind : BlockKind) : IsStructural kind.opcode := by
  cases kind <;> decide

/-- What opens a block does not end one. -/
theorem BlockKind.not_isDelimiter_opcode (kind : BlockKind) : ¬ IsDelimiter kind.opcode := by
  cases kind <;> decide

/-- The bytes of the block structure are openers and delimiters. -/
theorem IsStructural.cases (h : IsStructural b) :
    (∃ kind : BlockKind, b = kind.opcode) ∨ b = elseOpcode ∨ b = endOpcode := by
  have hbyte : ∀ n : UInt8, b.toNat = n.toNat → b = n := fun n => UInt8.toNat_inj.mp
  have hcases : b.toNat = 0x02 ∨ b.toNat = 0x03 ∨ b.toNat = 0x04 ∨ b.toNat = 0x05 ∨
      b.toNat = 0x0B := by
    unfold IsStructural at h
    omega
  obtain h | h | h | h | h := hcases
  · exact .inl ⟨.block, hbyte _ h⟩
  · exact .inl ⟨.loop, hbyte _ h⟩
  · exact .inl ⟨.cond, hbyte _ h⟩
  · exact .inr (.inl (hbyte _ h))
  · exact .inr (.inr (hbyte _ h))

/-- A leaf begins with an opcode outside the block structure. -/
theorem Leaf.exists_opcode (l : Leaf) :
    ∃ opcode imm, l.bytes = opcode :: imm ∧ ¬ IsStructural opcode := by
  obtain ⟨opcode, imm, hbytes, hs, -⟩ := l.spelled.skip
  exact ⟨opcode, imm, hbytes, hs⟩

/-- At one place stands one leaf at most, since an instruction is read in one way. -/
theorem Leaf.unique {l l' : Leaf} (h : StandsAt data pos l.bytes)
    (h' : StandsAt data pos l'.bytes) : l = l' := by
  obtain ⟨hbytes, hinstr⟩ := l.spelled.read.unique l'.spelled.read h h'
  exact Leaf.ext hinstr hbytes

/-- At one place stands one block type at most. -/
theorem BlockHead.unique {h h' : BlockHead types} (hh : StandsAt data pos h.bytes)
    (hh' : StandsAt data pos h'.bytes) : h = h' := by
  obtain ⟨hbytes, htype⟩ := h.spelled.read.unique h'.spelled.read hh hh'
  injection htype with htype
  have harity := h.known
  rw [htype, h'.known] at harity
  injection harity with harity
  exact BlockHead.ext htype harity.symm hbytes

theorem BlockKind.opcode_injective {k k' : BlockKind} (h : k.opcode = k'.opcode) : k = k' := by
  revert h
  cases k <;> cases k' <;> decide

namespace Body

/-- What the first byte of a row of instructions tells about it, if `x` ends the row. -/
def Begins (c : UInt8) (x : UInt8) : Body types → Prop
  | nil => c = x
  | leaf _ _ => ¬ IsStructural c
  | nest kind _ _ _ => c = kind.opcode
  | ifElse _ _ _ _ => c = BlockKind.cond.opcode

/-- The first byte tells how a body begins: with what ends it, with a leaf, or with an opener. -/
theorem exists_begins (b : Body types) (h : StandsAt data pos (b.bytes ++ [x])) :
    ∃ c, data[pos]? = some c ∧ b.Begins c x := by
  cases b with
  | nil => exact ⟨x, h.getElem?, rfl⟩
  | leaf l rest =>
    obtain ⟨opcode, imm, hbytes, hs⟩ := l.exists_opcode
    rw [bytes, hbytes] at h
    exact ⟨opcode, h.getElem?, hs⟩
  | nest kind head body rest => exact ⟨kind.opcode, h.getElem?, rfl⟩
  | ifElse head thenArm elseArm rest => exact ⟨_, h.getElem?, rfl⟩

/-- Two bodies at one place begin with the same byte. -/
theorem exists_both_begin {b b' : Body types} (h : StandsAt data pos (b.bytes ++ [x]))
    (h' : StandsAt data pos (b'.bytes ++ [x'])) : ∃ c, b.Begins c x ∧ b'.Begins c x' := by
  obtain ⟨c, hc, hb⟩ := b.exists_begins h
  obtain ⟨c', hc', hb'⟩ := b'.exists_begins h'
  rw [hc] at hc'
  injection hc' with hc'
  exact ⟨c, hb, hc' ▸ hb'⟩

/-! The parts of a tree stand one behind the other. -/

/-- The parts of a body that begins with a leaf, each at its place. -/
theorem standsAt_leaf (h : StandsAt data pos ((leaf l rest : Body types).bytes ++ cs)) :
    StandsAt data pos l.bytes ∧ StandsAt data (pos + l.bytes.length) (rest.bytes ++ cs) := by
  rw [bytes, List.append_assoc] at h
  exact ⟨h.left, h.right⟩

/-- The parts of a body that begins with a block. -/
theorem standsAt_nest
    (h : StandsAt data pos ((nest kind head body rest : Body types).bytes ++ cs)) :
    StandsAt data pos [kind.opcode] ∧ StandsAt data (pos + 1) head.bytes ∧
      StandsAt data (pos + 1 + head.bytes.length) (body.bytes ++ [endOpcode]) ∧
      StandsAt data (pos + 1 + head.bytes.length + body.bytes.length + 1) (rest.bytes ++ cs) := by
  simp only [bytes, List.cons_append, List.append_assoc] at h
  have hbody := h.tail.right
  exact ⟨h.head, h.tail.left, hbody.left.append hbody.right.head, hbody.right.tail⟩

/-- The parts of a body that begins with two arms. -/
theorem standsAt_ifElse
    (h : StandsAt data pos ((ifElse head thenArm elseArm rest : Body types).bytes ++ cs)) :
    StandsAt data pos [BlockKind.cond.opcode] ∧ StandsAt data (pos + 1) head.bytes ∧
      StandsAt data (pos + 1 + head.bytes.length) (thenArm.bytes ++ [elseOpcode]) ∧
      StandsAt data (pos + 1 + head.bytes.length + thenArm.bytes.length + 1)
        (elseArm.bytes ++ [endOpcode]) ∧
      StandsAt data (pos + 1 + head.bytes.length + thenArm.bytes.length + 1 +
        elseArm.bytes.length + 1) (rest.bytes ++ cs) := by
  simp only [bytes, List.cons_append, List.append_assoc] at h
  have hthen := h.tail.right
  have helse := hthen.right.tail
  exact ⟨h.head, h.tail.left, hthen.left.append hthen.right.head,
    helse.left.append helse.right.head, helse.right.tail⟩

/-! And what stands so is a tree. -/

/-- A block is put together from its parts. -/
theorem standsAt_nest_of {head : BlockHead types} {body rest : Body types}
    (hhead : StandsAt data pos (kind.opcode :: head.bytes))
    (hbody : StandsAt data (pos + 1 + head.bytes.length) (body.bytes ++ [endOpcode]))
    (hrest : StandsAt data (pos + 1 + head.bytes.length + body.bytes.length + 1)
      (rest.bytes ++ cs)) :
    StandsAt data pos ((nest kind head body rest).bytes ++ cs) := by
  have h := hhead.head.append (hhead.tail.append (hbody.left.append (hbody.right.append hrest)))
  simpa only [bytes, List.cons_append, List.append_assoc, List.nil_append] using h

/-- So are two arms. -/
theorem standsAt_ifElse_of {head : BlockHead types} {thenArm elseArm rest : Body types}
    (hhead : StandsAt data pos (BlockKind.cond.opcode :: head.bytes))
    (hthen : StandsAt data (pos + 1 + head.bytes.length) (thenArm.bytes ++ [elseOpcode]))
    (helse : StandsAt data (pos + 1 + head.bytes.length + thenArm.bytes.length + 1)
      (elseArm.bytes ++ [endOpcode]))
    (hrest : StandsAt data (pos + 1 + head.bytes.length + thenArm.bytes.length + 1 +
      elseArm.bytes.length + 1) (rest.bytes ++ cs)) :
    StandsAt data pos ((ifElse head thenArm elseArm rest).bytes ++ cs) := by
  have h := hhead.head.append (hhead.tail.append (hthen.left.append (hthen.right.append
    (helse.left.append (helse.right.append hrest)))))
  simpa only [bytes, List.cons_append, List.append_assoc, List.nil_append] using h

/-- The instructions in a row up to a delimiter are determined by their bytes, and so is the
delimiter. -/
theorem bytes_unique {b b' : Body types} (hx : IsDelimiter x) (hx' : IsDelimiter x')
    (h : StandsAt data pos (b.bytes ++ [x])) (h' : StandsAt data pos (b'.bytes ++ [x'])) :
    b = b' ∧ x = x' := by
  induction b generalizing pos b' x x' with
  | nil =>
    obtain ⟨c, rfl, hb'⟩ := exists_both_begin h h'
    cases b' with
    | nil => exact ⟨rfl, hb'⟩
    | leaf => exact absurd hx.isStructural hb'
    | nest kind => exact absurd (hb' ▸ hx) kind.not_isDelimiter_opcode
    | ifElse => exact absurd (hb' ▸ hx) BlockKind.cond.not_isDelimiter_opcode
  | leaf l rest ih =>
    obtain ⟨c, hb, hb'⟩ := exists_both_begin h h'
    cases b' with
    | nil => exact absurd (hb' ▸ hx'.isStructural) hb
    | leaf l' rest' =>
      obtain ⟨hl, hrest⟩ := standsAt_leaf h
      obtain ⟨hl', hrest'⟩ := standsAt_leaf h'
      obtain rfl := Leaf.unique hl hl'
      obtain ⟨rfl, rfl⟩ := ih hx hx' hrest hrest'
      exact ⟨rfl, rfl⟩
    | nest kind => exact absurd (hb' ▸ kind.isStructural_opcode) hb
    | ifElse => exact absurd (hb' ▸ BlockKind.cond.isStructural_opcode) hb
  | nest kind head body rest ihBody ihRest =>
    obtain ⟨c, rfl, hb'⟩ := exists_both_begin h h'
    obtain ⟨-, hhead, hbody, hrest⟩ := standsAt_nest h
    cases b' with
    | nil => exact absurd (hb' ▸ hx') kind.not_isDelimiter_opcode
    | leaf => exact absurd kind.isStructural_opcode hb'
    | nest kind' head' body' rest' =>
      obtain rfl := BlockKind.opcode_injective hb'
      obtain ⟨-, hhead', hbody', hrest'⟩ := standsAt_nest h'
      obtain rfl := BlockHead.unique hhead hhead'
      obtain ⟨rfl, -⟩ := ihBody (.inr rfl) (.inr rfl) hbody hbody'
      obtain ⟨rfl, rfl⟩ := ihRest hx hx' hrest hrest'
      exact ⟨rfl, rfl⟩
    | ifElse head' thenArm' elseArm' rest' =>
      -- The two disagree on the delimiter of the first arm.
      obtain ⟨-, hhead', hthen', -⟩ := standsAt_ifElse h'
      obtain rfl := BlockHead.unique hhead hhead'
      have hends := (ihBody (.inr rfl) (.inl rfl) hbody hthen').2
      contradiction
  | ifElse head thenArm elseArm rest ihThen ihElse ihRest =>
    obtain ⟨c, rfl, hb'⟩ := exists_both_begin h h'
    obtain ⟨-, hhead, hthen, helse, hrest⟩ := standsAt_ifElse h
    cases b' with
    | nil => exact absurd (hb' ▸ hx') BlockKind.cond.not_isDelimiter_opcode
    | leaf => exact absurd BlockKind.cond.isStructural_opcode hb'
    | nest kind' head' body' rest' =>
      obtain ⟨-, hhead', hbody', -⟩ := standsAt_nest h'
      obtain rfl := BlockHead.unique hhead hhead'
      have hends := (ihThen (.inl rfl) (.inr rfl) hthen hbody').2
      contradiction
    | ifElse head' thenArm' elseArm' rest' =>
      obtain ⟨-, hhead', hthen', helse', hrest'⟩ := standsAt_ifElse h'
      obtain rfl := BlockHead.unique hhead hhead'
      obtain ⟨rfl, -⟩ := ihThen (.inl rfl) (.inl rfl) hthen hthen'
      obtain ⟨rfl, -⟩ := ihElse (.inr rfl) (.inr rfl) helse helse'
      obtain ⟨rfl, rfl⟩ := ihRest hx hx' hrest hrest'
      exact ⟨rfl, rfl⟩

/-! ## Where blocks lie -/

/-- The blocks of a tree lie within its bytes. -/
theorem mem_blocks_bounds (b : Body types) {pos : Nat} (h : x ∈ b.blocks pos) :
    pos ≤ x.start ∧ x.start < x.endAt ∧ x.endAt < pos + b.bytes.length := by
  induction b generalizing pos with
  | nil => simp [blocks] at h
  | leaf l rest ih =>
    have hrest := ih h
    rw [bytes, List.length_append]
    omega
  | nest kind head body rest ihBody ihRest =>
    simp only [blocks, List.mem_cons, List.mem_append] at h
    simp only [bytes, List.length_cons, List.length_append]
    obtain rfl | h | h := h
    · simp only [BlockHead.opened]
      omega
    · have := ihBody h
      omega
    · have := ihRest h
      omega
  | ifElse head thenArm elseArm rest ihThen ihElse ihRest =>
    simp only [blocks, List.mem_cons, List.mem_append] at h
    simp only [bytes, List.length_cons, List.length_append]
    obtain rfl | h | h | h := h
    · simp only [BlockHead.opened]
      omega
    · have := ihThen h
      omega
    · have := ihElse h
      omega
    · have := ihRest h
      omega

/-- The `else` of a block lies between its opener and its `end`. -/
theorem mem_blocks_elseAt (b : Body types) {pos : Nat} (h : x ∈ b.blocks pos)
    (helse : x.elseAt = some e) : x.start < e ∧ e < x.endAt := by
  induction b generalizing pos with
  | nil => simp [blocks] at h
  | leaf l rest ih => exact ih h
  | nest kind head body rest ihBody ihRest =>
    simp only [blocks, List.mem_cons, List.mem_append] at h
    obtain rfl | h | h := h
    · simp [BlockHead.opened] at helse
    · exact ihBody h
    · exact ihRest h
  | ifElse head thenArm elseArm rest ihThen ihElse ihRest =>
    simp only [blocks, List.mem_cons, List.mem_append] at h
    obtain rfl | h | h | h := h
    · simp only [BlockHead.opened, Option.some.injEq] at helse ⊢
      omega
    · exact ihThen h
    · exact ihElse h
    · exact ihRest h

/-- `y` comes after `x`: it is inside `x`, or it begins behind the `end` of `x`. -/
def Follows (x y : Block) : Prop :=
  x.start < y.start ∧ (y.endAt < x.endAt ∨ x.endAt < y.start)

/-- Of two blocks of a tree, the second follows the first. -/
theorem pairwise_blocks (b : Body types) (pos : Nat) : (b.blocks pos).Pairwise Follows := by
  induction b generalizing pos with
  | nil => exact List.Pairwise.nil
  | leaf l rest ih => exact ih _
  | nest kind head body rest ihBody ihRest =>
    simp only [blocks, List.pairwise_cons, List.pairwise_append, List.mem_append]
    refine ⟨fun y hy => ?_, ihBody _, ihRest _, fun x hx y hy => ?_⟩
    · simp only [Follows, BlockHead.opened]
      obtain hy | hy := hy
      · have := body.mem_blocks_bounds hy
        omega
      · have := rest.mem_blocks_bounds hy
        omega
    · have hx := body.mem_blocks_bounds hx
      have hy := rest.mem_blocks_bounds hy
      unfold Follows
      omega
  | ifElse head thenArm elseArm rest ihThen ihElse ihRest =>
    simp only [blocks, List.pairwise_cons, List.pairwise_append, List.mem_append]
    refine ⟨fun y hy => ?_, ihThen _, ⟨ihElse _, ihRest _, fun x hx y hy => ?_⟩,
      fun x hx y hy => ?_⟩
    · simp only [Follows, BlockHead.opened]
      obtain hy | hy | hy := hy
      · have := thenArm.mem_blocks_bounds hy
        omega
      · have := elseArm.mem_blocks_bounds hy
        omega
      · have := rest.mem_blocks_bounds hy
        omega
    · have hx := elseArm.mem_blocks_bounds hx
      have hy := rest.mem_blocks_bounds hy
      unfold Follows
      omega
    · have hx := thenArm.mem_blocks_bounds hx
      unfold Follows
      obtain hy | hy := hy
      · have hy := elseArm.mem_blocks_bounds hy
        omega
      · have hy := rest.mem_blocks_bounds hy
        omega

/-! ## The map of blocks -/

/-- An entry at another position. -/
theorem getElem?_insert_of_ne {map : BlockMap} (h : pos ≠ k) :
    (map.insert pos x)[k]? = map[k]? := by
  have hcmp : ¬ compare pos k = .eq := fun heq => h (Std.LawfulEqCmp.eq_of_compare heq)
  rw [Std.TreeMap.getElem?_insert, if_neg hcmp]

/-- Recording a tree changes nothing but the entries of its openers. -/
theorem getElem?_record_of_forall_ne (b : Body types) {pos : Nat} {map : BlockMap}
    (h : ∀ x ∈ b.blocks pos, x.start ≠ k) : (b.record pos map)[k]? = map[k]? := by
  induction b generalizing pos map with
  | nil => rfl
  | leaf l rest ih => exact ih h
  | nest kind head body rest ihBody ihRest =>
    simp only [blocks, List.forall_mem_cons, List.forall_mem_append] at h
    obtain ⟨hhead, hbody, hrest⟩ := h
    rw [record, ihRest hrest, getElem?_insert_of_ne (show pos ≠ k from hhead), ihBody hbody]
  | ifElse head thenArm elseArm rest ihThen ihElse ihRest =>
    simp only [blocks, List.forall_mem_cons, List.forall_mem_append] at h
    obtain ⟨hhead, hthen, helse, hrest⟩ := h
    rw [record, ihRest hrest, getElem?_insert_of_ne (show pos ≠ k from hhead), ihElse helse,
      ihThen hthen]

/-- Recording a tree gives each opener its block. -/
theorem getElem?_record_of_mem (b : Body types) {pos : Nat} (map : BlockMap)
    (h : x ∈ b.blocks pos) : (b.record pos map)[x.start]? = some x := by
  -- What is recorded later stands at later positions, and so does not replace the entry.
  induction b generalizing pos map with
  | nil => simp [blocks] at h
  | leaf l rest ih => exact ih map h
  | nest kind head body rest ihBody ihRest =>
    simp only [blocks, List.mem_cons, List.mem_append] at h
    rw [record]
    obtain rfl | h | h := h
    · rw [getElem?_record_of_forall_ne rest fun y hy => ?_]
      · exact Std.TreeMap.getElem?_insert_self
      · have := rest.mem_blocks_bounds hy
        simp only [BlockHead.opened]
        omega
    · have hx := body.mem_blocks_bounds h
      rw [getElem?_record_of_forall_ne rest fun y hy => ?_, getElem?_insert_of_ne (by omega),
        ihBody _ h]
      have := rest.mem_blocks_bounds hy
      omega
    · exact ihRest _ h
  | ifElse head thenArm elseArm rest ihThen ihElse ihRest =>
    simp only [blocks, List.mem_cons, List.mem_append] at h
    rw [record]
    obtain rfl | h | h | h := h
    · rw [getElem?_record_of_forall_ne rest fun y hy => ?_]
      · exact Std.TreeMap.getElem?_insert_self
      · have := rest.mem_blocks_bounds hy
        simp only [BlockHead.opened]
        omega
    · have hx := thenArm.mem_blocks_bounds h
      rw [getElem?_record_of_forall_ne rest fun y hy => ?_, getElem?_insert_of_ne (by omega),
        getElem?_record_of_forall_ne elseArm fun y hy => ?_, ihThen _ h]
      · have := elseArm.mem_blocks_bounds hy
        omega
      · have := rest.mem_blocks_bounds hy
        omega
    · have hx := elseArm.mem_blocks_bounds h
      rw [getElem?_record_of_forall_ne rest fun y hy => ?_, getElem?_insert_of_ne (by omega),
        ihElse _ h]
      have := rest.mem_blocks_bounds hy
      omega
    · exact ihRest _ h

/-- An entry of the map of a tree is a block of the tree, under the position of its opener. -/
theorem getElem?_record_eq_some_iff (b : Body types) {pos : Nat} :
    (b.record pos ∅)[k]? = some x ↔ x ∈ b.blocks pos ∧ x.start = k := by
  constructor
  · intro h
    by_cases hk : ∃ y ∈ b.blocks pos, y.start = k
    · obtain ⟨y, hy, rfl⟩ := hk
      rw [getElem?_record_of_mem b ∅ hy] at h
      injection h with h
      exact ⟨h ▸ hy, h ▸ rfl⟩
    · rw [getElem?_record_of_forall_ne b fun y hy heq => hk ⟨y, hy, heq⟩] at h
      simp at h
  · intro h
    obtain ⟨hx, rfl⟩ := h
    exact getElem?_record_of_mem b ∅ hx

/-- The map of a tree holds the blocks of the tree, each under the position of its opener. -/
theorem toList_record (b : Body types) (pos : Nat) :
    (b.record pos ∅).toList = (b.blocks pos).map fun x => (x.start, x) := by
  have hsorted := Std.TreeMap.ordered_keys_toList (t := b.record pos ∅)
  have hsorted' : ((b.blocks pos).map fun x => (x.start, x)).Pairwise
      fun x y => compare x.1 y.1 = .lt := by
    rw [List.pairwise_map]
    refine (pairwise_blocks b pos).imp fun h => ?_
    exact Nat.compare_eq_lt.mpr h.1
  have hne : ∀ x y : Nat × Block, compare x.1 y.1 = .lt → x ≠ y := by
    intro x y hlt heq
    rw [heq, Nat.compare_eq_lt] at hlt
    omega
  have hperm : (b.record pos ∅).toList.Perm ((b.blocks pos).map fun x => (x.start, x)) := by
    rw [List.perm_ext_iff_of_nodup (hsorted.imp (hne _ _)) (hsorted'.imp (hne _ _))]
    intro entry
    obtain ⟨k, x⟩ := entry
    rw [Std.TreeMap.mem_toList_iff_getElem?_eq_some, getElem?_record_eq_some_iff, List.mem_map]
    simp only [Prod.mk.injEq]
    constructor
    · intro h
      exact ⟨x, h.1, h.2, rfl⟩
    · intro h
      obtain ⟨y, hy, hk, rfl⟩ := h
      exact ⟨hy, hk⟩
  refine hperm.eq_of_pairwise (fun x y _ _ hxy hyx => ?_) hsorted hsorted'
  rw [Nat.compare_eq_lt] at hxy hyx
  omega

end Body

end Wasm
