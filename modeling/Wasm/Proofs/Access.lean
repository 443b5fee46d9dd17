import Wasm.Proofs.Arithmetic
import Wasm.Proofs.Growth

/-!
# Wasm.Proofs.Access

Loads and stores read and write little-endian numbers in an array of bytes.

* `numberAt` and `withNumber` are the model: the number at an address, and the bytes
  after a number is put there. They know nothing of pages, widths or instructions.
* `LoadOp.Performs` and `StoreOp.Performs` say that instructions do what the model says, and where
  they trap.
* `accesses_exact` says so of all opcodes, and what a load then finds after a store.
-/

namespace Wasm

/-! ## Bytes and numbers -/

/-- The number that the `n` bytes from an address on spell, least significant byte first. -/
def numberAt (bytes : Nat → UInt8) (start n : Nat) : Nat :=
  ∑ k ∈ Finset.range n, (bytes (start + k)).toNat * 256 ^ k

/-- The bytes after the `n` low bytes of a number are put at an address. -/
def withNumber (bytes : Nat → UInt8) (start n value i : Nat) : UInt8 :=
  if start ≤ i ∧ i < start + n then .ofNat (value / 256 ^ (i - start)) else bytes i

/-- The last byte is the most significant one. -/
theorem leNat_concat (bs : List UInt8) (b : UInt8) :
    leNat (bs ++ [b]) = leNat bs + b.toNat * 256 ^ bs.length := by
  induction bs with
  | nil => simp [leNat]
  | cons b' bs ih =>
    simp only [List.cons_append, leNat, ih, List.length_cons, Nat.pow_succ]
    ring

/-- The bytes of an access spell the number there. -/
theorem leNat_bytesAt (data : ByteArray) (start n : Nat) :
    leNat (bytesAt data start n) = numberAt (byteAt data) start n := by
  induction n with
  | zero => rfl
  | succ n ih =>
    have hlength : (bytesAt data start n).length = n := by simp [bytesAt]
    have hsucc : bytesAt data start (n + 1) =
        bytesAt data start n ++ [byteAt data (start + n)] := by
      simp [bytesAt, List.range_succ]
    rw [hsucc, leNat_concat, ih, hlength, numberAt, numberAt, Finset.sum_range_succ]

/-- A number of `n` bytes has `8 * n` bits. -/
theorem numberAt_lt (bytes : Nat → UInt8) (start n : Nat) :
    numberAt bytes start n < 2 ^ (8 * n) := by
  induction n with
  | zero => simp [numberAt]
  | succ n ih =>
    have hbyte := (bytes (start + n)).toNat_lt
    have hpow : (256 : Nat) ^ n = 2 ^ (8 * n) := by rw [Nat.pow_mul]
    rw [numberAt, Finset.sum_range_succ, ← numberAt, hpow, Nat.mul_succ, Nat.pow_add]
    calc numberAt bytes start n + (bytes (start + n)).toNat * 2 ^ (8 * n)
        < 2 ^ (8 * n) + (bytes (start + n)).toNat * 2 ^ (8 * n) := Nat.add_lt_add_right ih _
      _ = 2 ^ (8 * n) * ((bytes (start + n)).toNat + 1) := by ring
      _ ≤ 2 ^ (8 * n) * 2 ^ 8 := Nat.mul_le_mul_left _ hbyte

/-- The bytes of a number, each by its place. -/
theorem getElem?_leBytes (n v k : Nat) :
    (leBytes n v)[k]? = if k < n then some (.ofNat (v / 256 ^ k)) else none := by
  induction n generalizing v k with
  | zero => simp [leBytes]
  | succ n ih =>
    cases k with
    | zero => simp [leBytes]
    | succ k => simp [leBytes, ih, Nat.pow_succ', Nat.div_div_eq_div_mul]

/-- Writing the bytes of a number puts the number there, and leaves all other bytes. -/
theorem Memory.byte_write_leBytes (m : Memory) (h : start + n ≤ m.size) (v : Nat) :
    (m.write start (leBytes n v)).byte = withNumber m.byte start n v := by
  funext i
  rw [byte_write m (by rwa [length_leBytes]), Patch.item?, withNumber]
  by_cases hi : start ≤ i
  · have hlt : i - start < n ↔ i < start + n := by omega
    rw [if_pos hi, getElem?_leBytes]
    by_cases hn : i < start + n
    · simp [hlt, hi, hn]
    · simp [hlt, hn]
  · simp [hi]

/-! ## Instructions -/

/-- The cell of a number of some bytes, extended to a width by its sign or by zeros. -/
def Width.extended (w : Width) (signed : Bool) (bytes n : Nat) : UInt64 :=
  w.reduced (if signed then twosComplement (8 * bytes) n else n)

/-- Where an access begins. The sum does not wrap. -/
def accessStart (a : UInt64) (offset : UInt32) : Nat := a.toNat % 2 ^ 32 + offset.toNat

/-- The scope with another memory. -/
def Scope.withMemory (s : Scope) (m : Memory) : Scope :=
  { s with space := { s.space with memory := some m } }

/-- The load puts the number of `n` bytes at its address in place of the address. It traps if and
only if the memory does not have all of them. -/
def LoadOp.Performs (op : LoadOp) (n : Nat) (w : Width) (signed : Bool) : Prop :=
  ∀ (s : Scope) (m : Memory) (below : Array UInt64) (a : UInt64) (offset : UInt32),
    s.space.memory = some m → s.stack.cells = below.push a → s.stack.cells.size ≤ s.stack.limit →
    (PlainInstr.load op offset).exec s =
      if accessStart a offset + n ≤ m.size then
        .ok () (s.withCells (below.push
          (w.extended signed n (numberAt m.byte (accessStart a offset) n))))
      else .error (.memoryOutOfBounds (accessStart a offset) n) (s.withCells below)

/-- The store puts the `n` low bytes of its operand at its address. It traps if and only if the
memory does not have room for them, and then leaves the memory as it is. -/
def StoreOp.Performs (op : StoreOp) (n : Nat) : Prop :=
  ∀ (s : Scope) (m : Memory) (below : Array UInt64) (a v : UInt64) (offset : UInt32),
    s.space.memory = some m → s.stack.cells = (below.push a).push v →
    if accessStart a offset + n ≤ m.size then
      ∃ m' : Memory,
        (PlainInstr.store op offset).exec s = .ok () ((s.withCells below).withMemory m') ∧
        m'.limits = m.limits ∧ m'.size = m.size ∧
        m'.byte = withNumber m.byte (accessStart a offset) n v.toNat
    else
      (PlainInstr.store op offset).exec s =
        .error (.memoryOutOfBounds (accessStart a offset) n) (s.withCells below)

/-- Address and offset are added as numbers, so that the sum does not wrap around. -/
theorem effective_toUInt32 (a : UInt64) (offset : UInt32) :
    Memory.effective a.toUInt32 offset = accessStart a offset := by
  rw [Memory.effective, UInt64.toNat_toUInt32, accessStart]

/-- A number that was loaded is extended by its sign or by zeros to the width of the result. -/
theorem LoadOp.extend_eq (op : LoadOp) (hbits : 8 * op.bytes ≤ op.type.width.bits)
    (hn : n < 2 ^ (8 * op.bytes)) :
    op.extend n = op.type.width.extended op.signed op.bytes n := by
  rw [extend, Width.extended]
  cases op.signed with
  | true =>
    have hextend := BitVec.toInt_signExtend_of_le (x := BitVec.ofNat (8 * op.bytes) n) hbits
    have hsigned := twosComplement_toNat (BitVec.ofNat (8 * op.bytes) n)
    rw [BitVec.toNat_ofNat, Nat.mod_eq_of_lt hn] at hsigned
    rw [← hsigned] at hextend
    rw [if_pos rfl, if_pos rfl, eq_ofInt_of_toInt hextend, Width.toCell_ofInt]
  | false =>
    have hlt : n < 2 ^ op.type.width.bits :=
      hn.trans_le (Nat.pow_le_pow_right two_pos hbits)
    have hmod : (n : ℤ) % 2 ^ op.type.width.bits = n := by
      exact_mod_cast congrArg Nat.cast (Nat.mod_eq_of_lt hlt)
    rw [if_neg Bool.false_ne_true, if_neg Bool.false_ne_true, Width.reduced, hmod,
      Int.toNat_natCast]

/-- A load that its type has room for does what the model says. -/
theorem LoadOp.performs (op : LoadOp) (hbits : 8 * op.bytes ≤ op.type.width.bits) :
    op.Performs op.bytes op.type.width op.signed := by
  intro s m below a offset hmemory hcells hlimit
  have hstart := effective_toUInt32 a offset
  generalize accessStart a offset = start at hstart ⊢
  rw [hcells, Array.size_push] at hlimit
  rw [PlainInstr.exec, Exec.load, Exec.pop32_bind hcells]
  by_cases hcovers : start + op.bytes ≤ m.size
  · have hload : m.load a.toUInt32 offset op.bytes = .ok (bytesAt m.data start op.bytes) := by
      rw [Memory.load, hstart, if_pos (m.covers_iff.mpr hcovers)]
    rw [if_pos hcovers, Exec.readMemory_bind_of_ok (s := s.withCells below)
      (f := fun m => m.load a.toUInt32 offset op.bytes) hmemory hload, leNat_bytesAt,
      op.extend_eq hbits (numberAt_lt _ _ _)]
    exact Exec.push_of_lt (s := s.withCells below) hlimit _
  · have hload : m.load a.toUInt32 offset op.bytes =
        .error (.memoryOutOfBounds start op.bytes) := by
      rw [Memory.load, hstart, if_neg (mt m.covers_iff.mp hcovers)]
    rw [if_neg hcovers, Exec.readMemory_bind_of_error (s := s.withCells below)
      (f := fun m => m.load a.toUInt32 offset op.bytes) hmemory hload]

/-- A store is made if all its bytes lie inside the memory, and traps otherwise. -/
theorem Exec.writeMemory_eq {s : Scope} (hmemory : s.space.memory = some m)
    (address offset : UInt32) (bytes : List UInt8) :
    writeMemory address offset bytes s =
      if Memory.effective address offset + bytes.length ≤ m.size then
        .ok () (s.withMemory (m.write (Memory.effective address offset) bytes))
      else .error (.memoryOutOfBounds (Memory.effective address offset) bytes.length) s := by
  obtain ⟨⟨funcs, table, memory, globals⟩, stack, locals⟩ := s
  obtain rfl : memory = some m := hmemory
  simp only [writeMemory, Option.map_some]
  by_cases h : Memory.effective address offset + bytes.length ≤ m.size
  · rw [if_pos h, m.covers_iff.mpr h]
    rfl
  · rw [if_neg h, Bool.eq_false_iff.mpr (mt m.covers_iff.mp h)]

/-- Every store does what the model says. -/
theorem StoreOp.performs (op : StoreOp) : op.Performs op.bytes := by
  intro s m below a v offset hmemory hcells
  have hexec : (PlainInstr.store op offset).exec s =
      Exec.writeMemory a.toUInt32 offset (leBytes op.bytes v.toNat) (s.withCells below) := by
    rw [PlainInstr.exec, Exec.store, Exec.pop_bind hcells,
      Exec.pop32_bind (s := s.withCells (below.push a)) rfl]
    rfl
  rw [hexec, Exec.writeMemory_eq (s := s.withCells below) hmemory, effective_toUInt32,
    length_leBytes]
  by_cases hcovers : accessStart a offset + op.bytes ≤ m.size
  · rw [if_pos hcovers, if_pos hcovers]
    exact ⟨_, rfl, rfl, m.size_write _ _, m.byte_write_leBytes hcovers _⟩
  · rw [if_neg hcovers, if_neg hcovers]

/-- A load right after a store finds the bytes of the model, wherever they overlap. -/
def StoreOp.ReadBack (op : StoreOp) (n : Nat) (op' : LoadOp) (n' : Nat) (w : Width)
    (signed : Bool) : Prop :=
  ∀ (s : Scope) (m : Memory) (below : Array UInt64) (a v a' : UInt64) (offset offset' : UInt32),
    s.space.memory = some m → s.stack.cells = ((below.push a').push a).push v →
    s.stack.cells.size ≤ s.stack.limit → accessStart a offset + n ≤ m.size →
    accessStart a' offset' + n' ≤ m.size →
    ∃ m' : Memory, m'.byte = withNumber m.byte (accessStart a offset) n v.toNat ∧
      (do (PlainInstr.store op offset).exec; (PlainInstr.load op' offset').exec) s =
        .ok () ((s.withMemory m').withCells (below.push
          (w.extended signed n' (numberAt m'.byte (accessStart a' offset') n'))))

/-- After a store, a load of any other size and place finds what the model then has there. -/
theorem StoreOp.Performs.readBack {op : StoreOp} {op' : LoadOp} (hop : op.Performs n)
    (hop' : op'.Performs n' w signed) : op.ReadBack n op' n' w signed := by
  intro s m below a v a' offset offset' hmemory hcells hlimit hstore hload
  have hstep := hop s m (below.push a') a v offset hmemory hcells
  rw [if_pos hstore] at hstep
  obtain ⟨m', hexec, -, hsize, hbytes⟩ := hstep
  have hlimit' : (below.push a').size ≤ s.stack.limit := by
    rw [hcells, Array.size_push, Array.size_push] at hlimit
    omega
  -- The load runs on the memory that the store has left.
  have hstep' := hop' ((s.withCells (below.push a')).withMemory m') m' below a' offset' rfl rfl
    hlimit'
  rw [if_pos (by rwa [hsize])] at hstep'
  refine ⟨m', hbytes, ?_⟩
  simp only [Bind.bind, EStateM.bind, hexec]
  exact hstep'

/-! ## Opcodes -/

namespace Instr

open Reader hiding offset

/-- The loads: opcode, number of bytes, width of the result, and whether the bytes are extended by
their sign. -/
inductive IsLoad : UInt8 → Nat → Width → Bool → Prop
  | i32 : IsLoad 0x28 4 .w32 false
  | i64 : IsLoad 0x29 8 .w64 false
  | f32 : IsLoad 0x2A 4 .w32 false
  | f64 : IsLoad 0x2B 8 .w64 false
  | i32Signed8 : IsLoad 0x2C 1 .w32 true
  | i32Unsigned8 : IsLoad 0x2D 1 .w32 false
  | i32Signed16 : IsLoad 0x2E 2 .w32 true
  | i32Unsigned16 : IsLoad 0x2F 2 .w32 false
  | i64Signed8 : IsLoad 0x30 1 .w64 true
  | i64Unsigned8 : IsLoad 0x31 1 .w64 false
  | i64Signed16 : IsLoad 0x32 2 .w64 true
  | i64Unsigned16 : IsLoad 0x33 2 .w64 false
  | i64Signed32 : IsLoad 0x34 4 .w64 true
  | i64Unsigned32 : IsLoad 0x35 4 .w64 false

/-- The stores: opcode and number of bytes. -/
inductive IsStore : UInt8 → Nat → Prop
  | i32 : IsStore 0x36 4
  | i64 : IsStore 0x37 8
  | f32 : IsStore 0x38 4
  | f64 : IsStore 0x39 8
  | i32Low8 : IsStore 0x3A 1
  | i32Low16 : IsStore 0x3B 2
  | i64Low8 : IsStore 0x3C 1
  | i64Low16 : IsStore 0x3D 2
  | i64Low32 : IsStore 0x3E 4

/-- The opcode is that of an access. What follows it is an alignment and an offset, each of them an
integer in any spelling, and the access is at the offset that is spelled there. -/
structure StandsFor (opcode : UInt8) (access : UInt32 → PlainInstr) : Prop where
  reading : readImmediates opcode = do return .plain (access (← readMemArg))
  spelling : ∀ ds instr, Reads (readImmediates opcode) ds instr ↔
    ∃ as bs align offset, ds = as ++ bs ∧ Reads u32 as align ∧ Reads u32 bs offset ∧
      instr = .plain (access offset)

/-- That the immediates are read as those of an access says how they are spelled. -/
theorem StandsFor.of_reading {access : UInt32 → PlainInstr}
    (h : readImmediates opcode = do return .plain (access (← readMemArg))) :
    StandsFor opcode access := by
  refine ⟨h, fun ds instr => ?_⟩
  have hlocal : Local readMemArg := local_u32.bind fun _ => local_u32
  rw [h, reads_map_iff hlocal fun offset => Instr.plain (access offset)]
  constructor
  · rintro ⟨offset, hoffset, rfl⟩
    obtain ⟨as, bs, align, rfl, halign, hoffset⟩ :=
      (reads_bind_iff local_u32 fun _ => local_u32).mp hoffset
    exact ⟨as, bs, align, offset, rfl, halign, hoffset, rfl⟩
  · rintro ⟨as, bs, align, offset, rfl, halign, hoffset, rfl⟩
    exact ⟨offset, reads_readMemArg halign hoffset, rfl⟩

/-- Each opcode of a load has its operation in the table. -/
theorem IsLoad.exists_op (h : IsLoad opcode n w signed) :
    ∃ op, StandsFor opcode (.load op) ∧ op.Performs n w signed := by
  have hop : ∃ op, LoadOp.ofByte? opcode = some op ∧ op.bytes = n ∧ op.type.width = w ∧
      op.signed = signed ∧ 8 * op.bytes ≤ op.type.width.bits := by
    cases h <;> exact ⟨_, rfl, rfl, rfl, rfl, by decide⟩
  obtain ⟨op, hbyte, rfl, rfl, rfl, hbits⟩ := hop
  exact ⟨op, .of_reading (readImmediates_of_load hbyte), op.performs hbits⟩

/-- Each opcode of a store has its operation in the table. -/
theorem IsStore.exists_op (h : IsStore opcode n) :
    ∃ op, StandsFor opcode (.store op) ∧ op.Performs n := by
  have hop : ∃ op, StoreOp.ofByte? opcode = some op ∧ op.bytes = n := by
    cases h <;> exact ⟨_, rfl, rfl⟩
  obtain ⟨op, hbyte, rfl⟩ := hop
  exact ⟨op, .of_reading (readImmediates_of_store hbyte), op.performs⟩

end Instr

open Instr in
/-- Loads and stores of every opcode are accesses to an array of bytes, at the offset that their
immediates spell, and so is a load after a store. -/
theorem accesses_exact :
    (∀ (opcode : UInt8) (n : Nat) (w : Width) (signed : Bool), IsLoad opcode n w signed →
      ∃ op, StandsFor opcode (.load op) ∧ op.Performs n w signed) ∧
    (∀ (opcode : UInt8) (n : Nat), IsStore opcode n →
      ∃ op, StandsFor opcode (.store op) ∧ op.Performs n) ∧
    ∀ (opcode opcode' : UInt8) (n n' : Nat) (w : Width) (signed : Bool),
      IsStore opcode n → IsLoad opcode' n' w signed →
      ∃ op op', StandsFor opcode (.store op) ∧ StandsFor opcode' (.load op') ∧
        op.ReadBack n op' n' w signed := by
  refine ⟨fun _ _ _ _ h => h.exists_op, fun _ _ h => h.exists_op, ?_⟩
  intro opcode opcode' n n' w signed hstore hload
  obtain ⟨op, hop, hperforms⟩ := hstore.exists_op
  obtain ⟨op', hop', hperforms'⟩ := hload.exists_op
  exact ⟨op, op', hop, hop', hperforms.readBack hperforms'⟩

/-- A memory of six bytes, and the operands of a load after those of a store. -/
def straddled : Scope where
  space := ⟨#[], none, some ⟨⟨#[0x11, 0x22, 0x33, 0x44, 0x55, 0x96]⟩, ⟨0, none⟩⟩, #[]⟩
  stack := ⟨#[1, 0xFFFFFFFF00000001, 0xDDCCBBAA], 3⟩
  locals := #[]

/-- Four bytes are stored at one, and the four at two are loaded with their sign: three of them were
stored. -/
theorem accesses_exact_straddled : ∃ (op : StoreOp) (op' : LoadOp) (m' : Memory),
    Instr.StandsFor 0x36 (.store op) ∧ Instr.StandsFor 0x34 (.load op') ∧
      (do (PlainInstr.store op 0).exec; (PlainInstr.load op' 1).exec) straddled =
        .ok () ((straddled.withMemory m').withCells #[0xFFFFFFFF96DDCCBB]) := by
  obtain ⟨op, op', hop, hop', hback⟩ :=
    accesses_exact.2.2 0x36 0x34 4 4 .w64 true .i32 .i64Signed32
  obtain ⟨m', hbytes, hrun⟩ := hback straddled _ #[] 0xFFFFFFFF00000001 0xDDCCBBAA 1 0 1 rfl rfl
    (by decide) (by decide) (by decide)
  refine ⟨op, op', m', hop, hop', ?_⟩
  rw [hrun, hbytes]
  have hcell : Width.w64.extended true 4 (numberAt (withNumber
      (Memory.byte ⟨⟨#[0x11, 0x22, 0x33, 0x44, 0x55, 0x96]⟩, ⟨0, none⟩⟩)
      (accessStart 0xFFFFFFFF00000001 0) 4 (0xDDCCBBAA : UInt64).toNat) (accessStart 1 1) 4) =
      0xFFFFFFFF96DDCCBB := by decide +kernel
  rw [hcell]
  rfl

end Wasm
