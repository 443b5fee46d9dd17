import Wasm.Block
import Wasm.Instr.Read
import Wasm.Proofs.Leb128

/-!
# Wasm.Proofs.Spelling

The spellings of instructions and block types, and that the two ways of going over them agree on
each.

* `Instr.Spells instr bs`: `bs` is the opcode of `instr` with its immediates, where an integer may
  be spelled in any way that its reader accepts. The instructions of the block structure (openers,
  `else` and `end`) are not among them.
* `Instr.Spells.read`: execution reads from a spelling its instruction.
* `Instr.Spells.skip`, `exists_spells_of_skip`: the scan for blocks passes over exactly the
  spellings.
* `BlockType.Spells type bs`: `bs` is what follows an opener.
-/

namespace Wasm

open Reader hiding offset

/-! ## Opcodes -/

/-- The bytes that are opcodes. -/
def IsOpcode (b : UInt8) : Prop :=
  b.toNat ≤ 0x05 ∨ (0x0B ≤ b.toNat ∧ b.toNat ≤ 0x11) ∨ b.toNat = 0x1A ∨ b.toNat = 0x1B ∨
    (0x20 ≤ b.toNat ∧ b.toNat ≤ 0x24) ∨ (0x28 ≤ b.toNat ∧ b.toNat ≤ 0xBF)

instance : DecidablePred IsOpcode := fun b =>
  inferInstanceAs (Decidable (b.toNat ≤ 0x05 ∨ _))

/-- The bytes that open, divide or close blocks. -/
def IsStructural (b : UInt8) : Prop :=
  (0x02 ≤ b.toNat ∧ b.toNat ≤ 0x05) ∨ b.toNat = 0x0B

instance : DecidablePred IsStructural := fun b =>
  inferInstanceAs (Decidable ((0x02 ≤ b.toNat ∧ _) ∨ _))

/-- A table of consecutive opcodes knows the bytes from its first opcode up to its size. -/
theorem exists_table_iff (table : Array α) (first b : UInt8) :
    (∃ op, (if b < first then none else table[b.toNat - first.toNat]?) = some op) ↔
      first.toNat ≤ b.toNat ∧ b.toNat < first.toNat + table.size := by
  rw [← Option.isSome_iff_exists]
  by_cases hlt : b < first
  · rw [if_pos hlt]
    rw [UInt8.lt_iff_toNat_lt] at hlt
    simp
    omega
  · rw [if_neg hlt]
    rw [UInt8.lt_iff_toNat_lt] at hlt
    rw [isSome_getElem?]
    omega

theorem exists_loadOp_iff (b : UInt8) :
    (∃ op, LoadOp.ofByte? b = some op) ↔ 0x28 ≤ b.toNat ∧ b.toNat < 0x36 :=
  exists_table_iff LoadOp.all LoadOp.firstOpcode b

theorem exists_storeOp_iff (b : UInt8) :
    (∃ op, StoreOp.ofByte? b = some op) ↔ 0x36 ≤ b.toNat ∧ b.toNat < 0x3F :=
  exists_table_iff StoreOp.all StoreOp.firstOpcode b

theorem exists_numericOp_iff (b : UInt8) :
    (∃ op, NumericOp.ofByte? b = some op) ↔ 0x45 ≤ b.toNat ∧ b.toNat < 0xC0 :=
  exists_table_iff NumericOp.all NumericOp.firstOpcode b

/-! ## Spellings -/

/-- `bs` is the opcode and the immediates of an instruction outside the block structure. A byte that
is no opcode is an instruction of its own. -/
inductive Instr.Spells : Instr → List UInt8 → Prop where
  | unreachable : Spells (.plain .unreachable) [0x00]
  | nop : Spells (.plain .nop) [0x01]
  | br (h : Reads u32 bs depth) : Spells (.br depth) (0x0C :: bs)
  | brIf (h : Reads u32 bs depth) : Spells (.brIf depth) (0x0D :: bs)
  | brTable (hcount : Reads u32 cs count) (hdepths : ReadsAll u32 ds depths)
      (hlength : depths.length = count.toNat) (hlast : Reads u32 bs last) :
      Spells (.brTable depths.toArray last) (0x0E :: (cs ++ ds ++ bs))
  | ret : Spells .ret [0x0F]
  | call (h : Reads u32 bs func) : Spells (.call func) (0x10 :: bs)
  | callIndirect (h : Reads u32 bs type) (table : UInt8) :
      Spells (.callIndirect type table) (0x11 :: (bs ++ [table]))
  | drop : Spells (.plain .drop) [0x1A]
  | select : Spells (.plain .select) [0x1B]
  | localGet (h : Reads u32 bs index) : Spells (.plain (.localGet index)) (0x20 :: bs)
  | localSet (h : Reads u32 bs index) : Spells (.plain (.localSet index)) (0x21 :: bs)
  | localTee (h : Reads u32 bs index) : Spells (.plain (.localTee index)) (0x22 :: bs)
  | globalGet (h : Reads u32 bs index) : Spells (.plain (.globalGet index)) (0x23 :: bs)
  | globalSet (h : Reads u32 bs index) : Spells (.plain (.globalSet index)) (0x24 :: bs)
  | load (hop : LoadOp.ofByte? opcode = some op) (halign : Reads u32 as align)
      (hoffset : Reads u32 bs offset) :
      Spells (.plain (.load op offset)) (opcode :: (as ++ bs))
  | store (hop : StoreOp.ofByte? opcode = some op) (halign : Reads u32 as align)
      (hoffset : Reads u32 bs offset) :
      Spells (.plain (.store op offset)) (opcode :: (as ++ bs))
  | memorySize (h : Reads u32 bs memory) : Spells (.plain .memorySize) (0x3F :: bs)
  | memoryGrow (h : Reads u32 bs memory) : Spells (.plain .memoryGrow) (0x40 :: bs)
  | i32Const (h : Reads s32 bs v) : Spells (.plain (.const (.i32 v.toUInt32))) (0x41 :: bs)
  | i64Const (h : Reads s64 bs v) : Spells (.plain (.const (.i64 v.toUInt64))) (0x42 :: bs)
  | f32Const (h : bs.length = 4) : Spells (.plain (.const (.f32 (.ofNat (leNat bs))))) (0x43 :: bs)
  | f64Const (h : bs.length = 8) : Spells (.plain (.const (.f64 (.ofNat (leNat bs))))) (0x44 :: bs)
  | numeric (hop : NumericOp.ofByte? opcode = some op) : Spells (.plain (.numeric op)) [opcode]
  | illegal (h : ¬ IsOpcode opcode) : Spells (.illegal opcode) [opcode]

namespace Instr

/-! ## Execution reads spellings -/

/-- Where no other opcode stands, the tables of opcodes decide. -/
theorem readImmediates_eq (opcode : UInt8)
    (h : (0x28 ≤ opcode.toNat ∧ opcode.toNat ≤ 0x3E) ∨ 0x45 ≤ opcode.toNat ∨ ¬ IsOpcode opcode) :
    readImmediates opcode =
      if let some op := LoadOp.ofByte? opcode then (do return .plain (.load op (← readMemArg)))
      else if let some op := StoreOp.ofByte? opcode then
        (do return .plain (.store op (← readMemArg)))
      else if let some op := NumericOp.ofByte? opcode then return .plain (.numeric op)
      else return .illegal opcode := by
  unfold readImmediates
  split
  all_goals first
    | rfl
    | exact absurd h (by decide)

theorem reads_readMemArg (halign : Reads u32 as align) (hoffset : Reads u32 bs offset) :
    Reads readMemArg (as ++ bs) offset :=
  halign.bind hoffset

theorem readImmediates_of_load (h : LoadOp.ofByte? opcode = some op) :
    readImmediates opcode = (do return .plain (.load op (← readMemArg))) := by
  have hrange := (exists_loadOp_iff opcode).mp ⟨op, h⟩
  rw [readImmediates_eq opcode (.inl (by omega))]
  simp only [h]

theorem readImmediates_of_store (h : StoreOp.ofByte? opcode = some op) :
    readImmediates opcode = (do return .plain (.store op (← readMemArg))) := by
  have hrange := (exists_storeOp_iff opcode).mp ⟨op, h⟩
  have hload : LoadOp.ofByte? opcode = none :=
    Option.eq_none_iff_forall_ne_some.mpr fun op' hop => by
      have := (exists_loadOp_iff opcode).mp ⟨op', hop⟩
      omega
  rw [readImmediates_eq opcode (.inl (by omega))]
  simp only [h, hload]

theorem readImmediates_of_numeric (h : NumericOp.ofByte? opcode = some op) :
    readImmediates opcode = return .plain (.numeric op) := by
  have hrange := (exists_numericOp_iff opcode).mp ⟨op, h⟩
  have hload : LoadOp.ofByte? opcode = none :=
    Option.eq_none_iff_forall_ne_some.mpr fun op' hop => by
      have := (exists_loadOp_iff opcode).mp ⟨op', hop⟩
      omega
  have hstore : StoreOp.ofByte? opcode = none :=
    Option.eq_none_iff_forall_ne_some.mpr fun op' hop => by
      have := (exists_storeOp_iff opcode).mp ⟨op', hop⟩
      omega
  rw [readImmediates_eq opcode (.inr (.inl hrange.1))]
  simp only [h, hload, hstore]

theorem readImmediates_of_not_isOpcode (h : ¬ IsOpcode opcode) :
    readImmediates opcode = return .illegal opcode := by
  have hrange := h
  unfold IsOpcode at hrange
  have hload : LoadOp.ofByte? opcode = none :=
    Option.eq_none_iff_forall_ne_some.mpr fun op' hop => by
      have := (exists_loadOp_iff opcode).mp ⟨op', hop⟩
      omega
  have hstore : StoreOp.ofByte? opcode = none :=
    Option.eq_none_iff_forall_ne_some.mpr fun op' hop => by
      have := (exists_storeOp_iff opcode).mp ⟨op', hop⟩
      omega
  have hnumeric : NumericOp.ofByte? opcode = none :=
    Option.eq_none_iff_forall_ne_some.mpr fun op' hop => by
      have := (exists_numericOp_iff opcode).mp ⟨op', hop⟩
      omega
  rw [readImmediates_eq opcode (.inr (.inr h))]
  simp only [hload, hstore, hnumeric]

/-- An opcode is read first, then what follows it. -/
theorem reads_read_cons (h : Reads (readImmediates opcode) bs instr) :
    Reads Instr.read (opcode :: bs) instr :=
  (Reads.u8 opcode).bind h

/-- Execution reads an instruction from each of its spellings. -/
theorem Spells.read (h : Spells instr bs) : Reads Instr.read bs instr := by
  cases h with
  | unreachable | nop | ret | drop | select => exact reads_read_cons (Reads.pure _)
  | br h => exact reads_read_cons (h.map Instr.br)
  | brIf h => exact reads_read_cons (h.map Instr.brIf)
  | brTable hcount hdepths hlength hlast =>
    exact reads_read_cons ((hcount.vec hdepths hlength).bind (hlast.map _))
  | call h => exact reads_read_cons (h.map Instr.call)
  | callIndirect h table => exact reads_read_cons (h.bind ((Reads.u8 table).map _))
  | localGet h => exact reads_read_cons (h.map fun index => Instr.plain (.localGet index))
  | localSet h => exact reads_read_cons (h.map fun index => Instr.plain (.localSet index))
  | localTee h => exact reads_read_cons (h.map fun index => Instr.plain (.localTee index))
  | globalGet h => exact reads_read_cons (h.map fun index => Instr.plain (.globalGet index))
  | globalSet h => exact reads_read_cons (h.map fun index => Instr.plain (.globalSet index))
  | @load _ op _ _ _ _ hop halign hoffset =>
    apply reads_read_cons
    rw [readImmediates_of_load hop]
    exact (reads_readMemArg halign hoffset).map fun offset => Instr.plain (.load op offset)
  | @store _ op _ _ _ _ hop halign hoffset =>
    apply reads_read_cons
    rw [readImmediates_of_store hop]
    exact (reads_readMemArg halign hoffset).map fun offset => Instr.plain (.store op offset)
  | memorySize h => exact reads_read_cons (h.map fun _ => Instr.plain .memorySize)
  | memoryGrow h => exact reads_read_cons (h.map fun _ => Instr.plain .memoryGrow)
  | i32Const h => exact reads_read_cons (h.map fun v => Instr.plain (.const (.i32 v.toUInt32)))
  | i64Const h => exact reads_read_cons (h.map fun v => Instr.plain (.const (.i64 v.toUInt64)))
  | f32Const h =>
    have hbits : Reads u32le _ _ := (Reads.littleEndian h).map UInt32.ofNat
    exact reads_read_cons (hbits.map fun bits => Instr.plain (.const (.f32 bits)))
  | f64Const h =>
    have hbits : Reads u64le _ _ := (Reads.littleEndian h).map UInt64.ofNat
    exact reads_read_cons (hbits.map fun bits => Instr.plain (.const (.f64 bits)))
  | numeric hop =>
    apply reads_read_cons
    rw [readImmediates_of_numeric hop]
    exact Reads.pure _
  | illegal h =>
    apply reads_read_cons
    rw [readImmediates_of_not_isOpcode h]
    exact Reads.pure _

end Instr

/-! ## The scan passes over spellings -/

theorem local_skipIndices (n : Nat) : Local (skipIndices n) := by
  induction n with
  | zero => exact Local.pure ()
  | succ n ih => exact local_u32.bind fun _ => ih

theorem local_skipImmediates (opcode : UInt8) : Local (skipImmediates opcode) := by
  unfold skipImmediates
  refine (local_skipIndices 1).ite (.ite ?_ (.ite ?_ ((local_skipIndices 2).ite (.ite ?_ (.ite ?_
    ((Local.skip 4).ite ((Local.skip 8).ite (.pure ()))))))))
  · exact (local_skipIndices 1).bind fun _ => Local.skip 1
  · exact local_u32.bind fun count => local_skipIndices _
  · exact local_s32.map fun _ => ()
  · exact local_s64.map fun _ => ()

/-- Indices in a row are passed over, and nothing else is. -/
theorem reads_skipIndices_iff :
    Reads (skipIndices n) bs () ↔ ∃ indices, indices.length = n ∧ ReadsAll u32 bs indices := by
  induction n generalizing bs with
  | zero =>
    rw [skipIndices, reads_pure_iff]
    constructor
    · intro h
      rw [h.1]
      exact ⟨[], rfl, .nil⟩
    · intro h
      obtain ⟨indices, hlen, hall⟩ := h
      rw [List.length_eq_zero_iff] at hlen
      subst hlen
      cases hall
      exact ⟨rfl, rfl⟩
  | succ n ih =>
    rw [skipIndices, reads_bind_iff local_u32 fun _ => local_skipIndices n]
    simp only [ih]
    constructor
    · intro h
      obtain ⟨bs, cs, index, rfl, hindex, indices, hlen, hall⟩ := h
      exact ⟨index :: indices, by rw [List.length_cons, hlen], .cons hindex hall⟩
    · intro h
      obtain ⟨indices, hlen, hall⟩ := h
      cases hall with
      | nil => contradiction
      | @cons bs index cs indices hindex hall =>
        exact ⟨bs, cs, index, rfl, hindex, indices, Nat.succ.inj hlen, hall⟩

/-- One index. -/
theorem reads_skipIndices_one_iff : Reads (skipIndices 1) bs () ↔ ∃ index, Reads u32 bs index := by
  have hone : skipIndices 1 = (do return (fun _ => ()) (← u32)) := rfl
  rw [hone, reads_map_iff local_u32]
  simp

/-- Whether an opcode has no immediates, by its number. -/
theorem skipImmediates_eq_pure (h : opcode.toNat < 0x0C ∨ opcode.toNat = 0x0F ∨
    opcode.toNat = 0x1A ∨ opcode.toNat = 0x1B ∨ 0x45 ≤ opcode.toNat ∨ ¬ IsOpcode opcode) :
    skipImmediates opcode = pure () := by
  unfold IsOpcode at h
  unfold skipImmediates
  repeat rw [if_neg (by simp [← UInt8.toNat_inj, UInt8.le_iff_toNat_le]; omega)]

theorem skipImmediates_of_memory (h : 0x28 ≤ opcode.toNat ∧ opcode.toNat < 0x3F) :
    skipImmediates opcode = skipIndices 2 := by
  unfold skipImmediates
  repeat rw [if_neg (by simp [← UInt8.toNat_inj]; omega)]
  rw [if_pos (by simp [UInt8.le_iff_toNat_le]; omega)]

/-- Two indices. -/
theorem reads_skipIndices_two_iff :
    Reads (skipIndices 2) ds () ↔
      ∃ bs cs i j, ds = bs ++ cs ∧ Reads u32 bs i ∧ Reads u32 cs j := by
  rw [skipIndices, reads_bind_iff local_u32 fun _ => local_skipIndices 1]
  simp only [reads_skipIndices_one_iff]
  constructor
  · intro h
    obtain ⟨bs, cs, i, heq, hi, j, hj⟩ := h
    exact ⟨bs, cs, i, j, heq, hi, hj⟩
  · intro h
    obtain ⟨bs, cs, i, j, heq, hi, hj⟩ := h
    exact ⟨bs, cs, i, heq, hi, j, hj⟩

/-- The scan passes over each spelling of an instruction. -/
theorem Instr.Spells.skip (h : Spells instr bs) :
    ∃ opcode imm, bs = opcode :: imm ∧ ¬ IsStructural opcode ∧
      Reads (skipImmediates opcode) imm () := by
  have one : ∀ {bs : List UInt8} {i : UInt32}, Reads u32 bs i → Reads (skipIndices 1) bs () :=
    fun h => reads_skipIndices_one_iff.mpr ⟨_, h⟩
  unfold IsStructural
  cases h with
  | unreachable | nop | ret | drop | select => exact ⟨_, _, rfl, by decide, Reads.pure ()⟩
  | br h | brIf h | call h | localGet h | localSet h | localTee h | globalGet h | globalSet h
  | memorySize h | memoryGrow h => exact ⟨_, _, rfl, by decide, one h⟩
  | @brTable cs count ds depths bs last hcount hdepths hlength hlast =>
    refine ⟨_, _, rfl, by decide, ?_⟩
    rw [List.append_assoc]
    refine hcount.bind (reads_skipIndices_iff.mpr ⟨depths ++ [last], ?_, hdepths.concat hlast⟩)
    rw [List.length_append, hlength, List.length_singleton]
  | callIndirect h table =>
    exact ⟨_, _, rfl, by decide, (one h).bind (Reads.skip rfl)⟩
  | load hop halign hoffset =>
    have hrange := (exists_loadOp_iff _).mp ⟨_, hop⟩
    refine ⟨_, _, rfl, by omega, ?_⟩
    rw [skipImmediates_of_memory (by omega)]
    exact reads_skipIndices_two_iff.mpr ⟨_, _, _, _, rfl, halign, hoffset⟩
  | store hop halign hoffset =>
    have hrange := (exists_storeOp_iff _).mp ⟨_, hop⟩
    refine ⟨_, _, rfl, by omega, ?_⟩
    rw [skipImmediates_of_memory (by omega)]
    exact reads_skipIndices_two_iff.mpr ⟨_, _, _, _, rfl, halign, hoffset⟩
  | i32Const h => exact ⟨_, _, rfl, by decide, h.map fun _ => ()⟩
  | i64Const h => exact ⟨_, _, rfl, by decide, h.map fun _ => ()⟩
  | f32Const h => exact ⟨_, _, rfl, by decide, Reads.skip h⟩
  | f64Const h => exact ⟨_, _, rfl, by decide, Reads.skip h⟩
  | numeric hop =>
    have hrange := (exists_numericOp_iff _).mp ⟨_, hop⟩
    refine ⟨_, _, rfl, by omega, ?_⟩
    rw [skipImmediates_eq_pure (by omega)]
    exact Reads.pure ()
  | illegal h =>
    refine ⟨_, _, rfl, ?_, ?_⟩
    · unfold IsOpcode at h
      omega
    · rw [skipImmediates_eq_pure (.inr (.inr (.inr (.inr (.inr h)))))]
      exact Reads.pure ()

/-- Opcodes with one index. -/
theorem exists_spells_of_index (h : opcode ∈ [0x0C, 0x0D, 0x10, 0x20, 0x21, 0x22, 0x23, 0x24, 0x3F,
    0x40]) (hindex : Reads u32 imm index) : ∃ instr, Instr.Spells instr (opcode :: imm) := by
  simp only [List.mem_cons, List.not_mem_nil, or_false] at h
  obtain rfl | rfl | rfl | rfl | rfl | rfl | rfl | rfl | rfl | rfl := h
  · exact ⟨_, .br hindex⟩
  · exact ⟨_, .brIf hindex⟩
  · exact ⟨_, .call hindex⟩
  · exact ⟨_, .localGet hindex⟩
  · exact ⟨_, .localSet hindex⟩
  · exact ⟨_, .localTee hindex⟩
  · exact ⟨_, .globalGet hindex⟩
  · exact ⟨_, .globalSet hindex⟩
  · exact ⟨_, .memorySize hindex⟩
  · exact ⟨_, .memoryGrow hindex⟩

/-- Opcodes with an alignment and an offset. -/
theorem exists_spells_of_memory (h : 0x28 ≤ opcode.toNat ∧ opcode.toNat < 0x3F)
    (halign : Reads u32 as align) (hoffset : Reads u32 bs offset) :
    ∃ instr, Instr.Spells instr (opcode :: (as ++ bs)) := by
  by_cases hload : opcode.toNat < 0x36
  · obtain ⟨op, hop⟩ := (exists_loadOp_iff opcode).mpr ⟨h.1, hload⟩
    exact ⟨_, .load hop halign hoffset⟩
  · obtain ⟨op, hop⟩ := (exists_storeOp_iff opcode).mpr ⟨by omega, h.2⟩
    exact ⟨_, .store hop halign hoffset⟩

/-- Opcodes without immediates, and other bytes. -/
theorem exists_spells_singleton (h : opcode.toNat < 0x02 ∨ opcode.toNat = 0x0F ∨
    opcode.toNat = 0x1A ∨ opcode.toNat = 0x1B ∨ 0x45 ≤ opcode.toNat ∨ ¬ IsOpcode opcode) :
    ∃ instr, Instr.Spells instr [opcode] := by
  have hbyte : ∀ n : UInt8, opcode.toNat = n.toNat → opcode = n := fun n => UInt8.toNat_inj.mp
  by_cases hop : IsOpcode opcode
  · unfold IsOpcode at h hop
    by_cases hnumeric : 0x45 ≤ opcode.toNat
    · obtain ⟨op, hop⟩ := (exists_numericOp_iff opcode).mpr ⟨hnumeric, by omega⟩
      exact ⟨_, .numeric hop⟩
    · have hcases : opcode.toNat = 0x00 ∨ opcode.toNat = 0x01 ∨ opcode.toNat = 0x0F ∨
          opcode.toNat = 0x1A ∨ opcode.toNat = 0x1B := by omega
      obtain h | h | h | h | h := hcases
      · rw [hbyte 0x00 h]
        exact ⟨_, .unreachable⟩
      · rw [hbyte 0x01 h]
        exact ⟨_, .nop⟩
      · rw [hbyte 0x0F h]
        exact ⟨_, .ret⟩
      · rw [hbyte 0x1A h]
        exact ⟨_, .drop⟩
      · rw [hbyte 0x1B h]
        exact ⟨_, .select⟩
  · exact ⟨_, .illegal hop⟩

/-- What the scan passes over is a spelling of an instruction. -/
theorem exists_spells_of_skip (hs : ¬ IsStructural opcode)
    (h : Reads (skipImmediates opcode) imm ()) : ∃ instr, Instr.Spells instr (opcode :: imm) := by
  -- One case for each way in which the scan skips immediates, in the order of its tests.
  unfold skipImmediates at h
  split at h
  · next hmem =>
    obtain ⟨index, hindex⟩ := reads_skipIndices_one_iff.mp h
    exact exists_spells_of_index hmem hindex
  split at h
  · next hop =>
    subst hop
    obtain ⟨bs, cs, _, rfl, hbs, hcs⟩ :=
      (reads_bind_iff (local_skipIndices 1) fun _ => Local.skip 1).mp h
    obtain ⟨type, htype⟩ := reads_skipIndices_one_iff.mp hbs
    obtain ⟨table, rfl⟩ := List.length_eq_one_iff.mp hcs.length_of_skip
    exact ⟨_, .callIndirect htype table⟩
  split at h
  · next hop =>
    subst hop
    obtain ⟨cs, ds, count, rfl, hcount, hds⟩ :=
      (reads_bind_iff local_u32 fun count => local_skipIndices _).mp h
    obtain ⟨indices, hlen, hall⟩ := reads_skipIndices_iff.mp hds
    obtain ⟨ds, bs, depths, last, rfl, rfl, hlength, hdepths, hlast⟩ := hall.exists_concat hlen
    rw [← List.append_assoc]
    exact ⟨_, .brTable hcount hdepths hlength hlast⟩
  split at h
  · next hop =>
    simp only [UInt8.le_iff_toNat_le] at hop
    obtain ⟨as, bs, align, offset, rfl, halign, hoffset⟩ := reads_skipIndices_two_iff.mp h
    exact exists_spells_of_memory ⟨hop.1, Nat.lt_succ_of_le hop.2⟩ halign hoffset
  split at h
  · next hop =>
    subst hop
    obtain ⟨v, hv, -⟩ := (reads_map_iff local_s32 fun _ => ()).mp h
    exact ⟨_, .i32Const hv⟩
  split at h
  · next hop =>
    subst hop
    obtain ⟨v, hv, -⟩ := (reads_map_iff local_s64 fun _ => ()).mp h
    exact ⟨_, .i64Const hv⟩
  split at h
  · next hop =>
    subst hop
    exact ⟨_, .f32Const h.length_of_skip⟩
  split at h
  · next hop =>
    subst hop
    exact ⟨_, .f64Const h.length_of_skip⟩
  · next h₁ h₂ h₃ h₄ h₅ h₆ h₇ h₈ =>
    rw [(reads_pure_iff.mp h).1]
    apply exists_spells_singleton
    simp [← UInt8.toNat_inj, UInt8.le_iff_toNat_le] at h₁ h₂ h₃ h₄ h₅ h₆ h₇ h₈
    unfold IsStructural at hs
    unfold IsOpcode
    omega

/-! ## Block types -/

/-- `bs` stands for a block type: one byte for a type without parameters and with at most one
result, or the index of a function type as a signed integer. -/
inductive BlockType.Spells : BlockType → List UInt8 → Prop where
  | empty : Spells .empty [0x40]
  | value (type : ValType) : Spells (.value type) [type.byte]
  | func {index : UInt32} (h : Reads s33 bs index.toNat) : Spells (.func index) bs

/-- A byte that stands for a value type is the byte of that type. -/
theorem ValType.byte_of_ofByte? (h : ValType.ofByte? b = some type) : type.byte = b := by
  unfold ValType.ofByte? at h
  split at h
  · next hb => cases h; exact hb.symm
  split at h
  · next hb => cases h; exact hb.symm
  split at h
  · next hb => cases h; exact hb.symm
  split at h
  · next hb => cases h; exact hb.symm
  · contradiction

namespace BlockType

/-- A byte is a block type of its own, or it begins an integer. -/
theorem runAt_read_of_some {data : Array UInt8} (h : data[pos]? = some b) :
    BlockType.read.runAt data pos =
      if b = 0x40 then .ok (some .empty) (pos + 1)
      else match ValType.ofByte? b with
        | some type => .ok (some (.value type)) (pos + 1)
        | none => (do
            let index ← s33
            return if 0 ≤ index then some (.func (.ofNat index.toNat)) else none : Reader _).runAt
              data pos := by
  have hpeek : peek.runAt data pos = .ok b pos := by
    simp only [Reader.runAt, peek, h]
  have hskip : (Reader.skip 1).runAt data pos = .ok () (pos + 1) := by
    obtain ⟨hlt, -⟩ := Array.getElem?_eq_some_iff.mp h
    obtain ⟨bs, hlen, hbs⟩ := exists_standsAt (n := 1) hlt
    rw [Reads.skip hlen data pos hbs, hlen]
  rw [BlockType.read, runAt_bind_of_ok _ hpeek]
  by_cases hb : b = 0x40
  · rw [if_pos hb, if_pos hb, runAt_bind_of_ok _ hskip, runAt_pure]
  · rw [if_neg hb, if_neg hb]
    cases htype : ValType.ofByte? b with
    | none => rfl
    | some type =>
      dsimp only
      rw [runAt_bind_of_ok _ hskip, runAt_pure]

/-- A byte that stands for a block type by itself would begin a negative integer. -/
theorem first_of_nonneg (h : Reads s33 (b :: bs) v) (hv : 0 ≤ v) :
    b ≠ 0x40 ∧ ValType.ofByte? b = none := by
  obtain ⟨-, -, hvalue, -⟩ := reads_s33_iff.mp h
  rw [Leb128.signedValue] at hvalue
  constructor
  · intro hb
    subst hb
    have hneg : Leb128.signedGroup 0x40 = -64 := by decide
    rw [if_neg (by decide), hneg] at hvalue
    omega
  · refine Option.eq_none_iff_forall_ne_some.mpr fun type htype => ?_
    have hneg : Leb128.continues type.byte = false ∧ Leb128.signedGroup type.byte < 0 := by
      cases type <;> decide
    rw [← ValType.byte_of_ofByte? htype, hneg.1, if_neg (by decide)] at hvalue
    omega

/-- The scan reads a block type from each of its spellings. -/
theorem Spells.read (h : Spells type bs) : Reads BlockType.read bs (some type) := by
  intro data pos hbs
  cases h with
  | empty => rw [runAt_read_of_some hbs.getElem?, if_pos rfl, List.length_singleton]
  | value type =>
    have hne : type.byte ≠ 0x40 := by cases type <;> decide
    rw [runAt_read_of_some hbs.getElem?, if_neg hne, ValType.ofByte?_byte, List.length_singleton]
  | @func _ index h =>
    have hread := h.map (fun i => if 0 ≤ i then some (BlockType.func (.ofNat i.toNat)) else none)
      data pos hbs
    rw [if_pos (by omega), Int.toNat_natCast, UInt32.ofNat_toNat] at hread
    cases bs with
    | nil =>
      obtain ⟨hterm, -⟩ := reads_s33_iff.mp h
      exact absurd hterm.length_pos (by simp)
    | cons b cs =>
      obtain ⟨hb, htype⟩ := first_of_nonneg h (by omega)
      rw [runAt_read_of_some hbs.getElem?, if_neg hb, htype]
      exact hread

/-- What the scan reads as a block type is a spelling of it. -/
theorem exists_spells_of_read (hpos : pos ≤ data.size)
    (h : BlockType.read.runAt data pos = .ok (some type) stop) :
    ∃ bs, StandsAt data pos bs ∧ stop = pos + bs.length ∧ Spells type bs := by
  cases hb : data[pos]? with
  | none =>
    obtain ⟨b, next, hpeek, -⟩ := runAt_bind_eq_ok.mp h
    simp [Reader.runAt, peek, hb] at hpeek
  | some b =>
    obtain ⟨bs, hbs, -, hbyte⟩ := Local.u8 data pos b _ hpos (runAt_u8_of_some hb)
    rw [reads_u8_iff] at hbyte
    subst hbyte
    rw [runAt_read_of_some hb] at h
    split at h
    · next hempty =>
      cases h
      rw [hempty] at hbs
      exact ⟨[0x40], hbs, rfl, .empty⟩
    split at h
    · next type' htype =>
      cases h
      rw [← ValType.byte_of_ofByte? htype] at hbs
      exact ⟨[type'.byte], hbs, rfl, .value type'⟩
    · obtain ⟨bs, hbs, hstop, hreads⟩ := local_s33.map _ _ _ _ _ hpos h
      obtain ⟨v, hv, htype⟩ := (reads_map_iff local_s33 _).mp hreads
      split at htype
      · next hnonneg =>
        obtain ⟨-, -, -, -, hlt⟩ := reads_s33_iff.mp hv
        cases htype
        have hindex : ((UInt32.ofNat v.toNat).toNat : Int) = v := by
          rw [UInt32.toNat_ofNat_of_lt' (by omega), Int.toNat_of_nonneg hnonneg]
        exact ⟨bs, hbs, hstop, .func (by rwa [hindex])⟩
      · contradiction

end BlockType

end Wasm
