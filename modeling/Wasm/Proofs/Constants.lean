import Wasm.ConstExpr.Eval
import Wasm.Proofs.Floats
import Wasm.Proofs.Varint

/-!
# Wasm.Proofs.Constants

Constant expressions, from their bytes to their values.

* `ConstOp.Accepts`: the bytes that an instruction takes as its immediate, and what they denote.
* `ConstExpr.accepts_read`: which bytes are read as an expression.
* `Constant.Evaluates`: what becomes of a constant, given the globals.
* `ConstExpr.read_evaluate_agree`: the immediate denotes the same where it was read and where it is
  kept, so that the expressions of a decoded module evaluate, unless they ask for a global that
  there is not.
* `ConstExpr.writeSigned_readBack`: the constants that are made of a number denote it.
-/

namespace Wasm

open Reader Leb128

/-! ## Immediates -/

/-- The bytes that an instruction takes as its immediate: any spelling of a number of the right
width, or as many bytes as a float has; and what they denote. -/
inductive ConstOp.Accepts : ConstOp → List UInt8 → Constant → Prop where
  | globalGet {index : UInt32} (h : Spelling .unsigned 32 bs index.toNat) :
      Accepts .globalGet bs (.global index)
  | i32Const {v : Int32} (h : Spelling .signed 32 bs v.toInt) :
      Accepts .i32Const bs (.value (.i32 v.toUInt32))
  | i64Const {v : Int64} (h : Spelling .signed 64 bs v.toInt) :
      Accepts .i64Const bs (.value (.i64 v.toUInt64))
  | f32Const (h : bs.length = 4) : Accepts .f32Const bs (.value (.f32 (.ofNat (leNat bs))))
  | f64Const (h : bs.length = 8) : Accepts .f64Const bs (.value (.f64 (.ofNat (leNat bs))))

theorem ConstOp.accepts_immediate (op : ConstOp) : Reader.Accepts op.immediate op.Accepts := by
  cases op with
  | globalGet =>
    refine exact_u32.ok.map fun bs c => ⟨fun hc => ?_, fun hc => ?_⟩
    · cases hc with
      | globalGet h => exact ⟨_, h, rfl⟩
    · obtain ⟨index, h, rfl⟩ := hc
      exact .globalGet h
  | i32Const =>
    refine exact_s32.ok.map fun bs c => ⟨fun hc => ?_, fun hc => ?_⟩
    · cases hc with
      | i32Const h => exact ⟨_, h, rfl⟩
    · obtain ⟨v, h, rfl⟩ := hc
      exact .i32Const h
  | i64Const =>
    refine exact_s64.ok.map fun bs c => ⟨fun hc => ?_, fun hc => ?_⟩
    · cases hc with
      | i64Const h => exact ⟨_, h, rfl⟩
    · obtain ⟨v, h, rfl⟩ := hc
      exact .i64Const h
  | f32Const =>
    have hbits : Reader.Accepts u32le fun bs v => bs.length = 4 ∧ v = .ofNat (leNat bs) :=
      (accepts_littleEndian (by decide)).map fun bs v => by simp
    refine hbits.map fun bs c => ⟨fun hc => ?_, fun hc => ?_⟩
    · cases hc with
      | f32Const h => exact ⟨_, ⟨h, rfl⟩, rfl⟩
    · obtain ⟨_, ⟨h, rfl⟩, rfl⟩ := hc
      exact .f32Const h
  | f64Const =>
    have hbits : Reader.Accepts u64le fun bs v => bs.length = 8 ∧ v = .ofNat (leNat bs) :=
      (accepts_littleEndian (by decide)).map fun bs v => by simp
    refine hbits.map fun bs c => ⟨fun hc => ?_, fun hc => ?_⟩
    · cases hc with
      | f64Const h => exact ⟨_, ⟨h, rfl⟩, rfl⟩
    · obtain ⟨_, ⟨h, rfl⟩, rfl⟩ := hc
      exact .f64Const h

theorem ConstOp.byte_of_ofByte? {op : ConstOp} (h : ofByte? b = some op) : b = op.byte := by
  unfold ofByte? at h
  split_ifs at h <;> cases h <;> assumption

namespace ConstExpr

/-! ## Reading an expression -/

/-- The part behind the opcode: an immediate, which is kept as it stands, and the terminator. -/
theorem accepts_operand (op : ConstOp) :
    Reader.Accepts (do
      let immediate ← captured op.immediate
      let stop ← offset
      if (← u8) = terminator then return ConstExpr.mk op immediate
      else fail (.unterminatedConst stop)) fun bs e => e.op = op ∧
        bs = e.immediate.toList ++ [terminator] ∧ ∃ c, op.Accepts e.immediate.toList c := by
  have hlast : ∀ immediate, Reader.Accepts (do
      let stop ← offset
      if (← u8) = terminator then return ConstExpr.mk op immediate
      else fail (.unterminatedConst stop)) fun bs e =>
        bs = [terminator] ∧ e = ⟨op, immediate⟩ := by
    refine fun immediate => .offset_bind fun stop => ?_
    refine (Accepts.u8_bind (P := fun b bs e => b = terminator ∧ bs = [] ∧ e = ⟨op, immediate⟩)
      fun b => ?_).congr fun bs e => ?_
    · by_cases hb : b = terminator
      · rw [if_pos hb]
        exact (Accepts.pure _).congr fun bs e => (and_iff_right hb).symm
      · rw [if_neg hb]
        exact (Accepts.fail _).congr fun bs e => by simp [hb]
    · constructor
      · rintro ⟨b, _, rfl, rfl, rfl, rfl⟩
        exact ⟨rfl, rfl⟩
      · rintro ⟨rfl, rfl⟩
        exact ⟨terminator, [], rfl, rfl, rfl, rfl⟩
  refine (op.accepts_immediate.captured.bind hlast).congr fun ds e => ⟨?_, ?_⟩
  · rintro ⟨bs, _, _, rfl, ⟨rfl, c, hc⟩, rfl, rfl⟩
    exact ⟨rfl, rfl, c, hc⟩
  · rintro ⟨rfl, rfl, c, hc⟩
    exact ⟨e.immediate.toList, [terminator], e.immediate, rfl, ⟨rfl, c, hc⟩, rfl, rfl⟩

/-- An expression is read from its opcode, an immediate of it and the terminator, and from nothing
else. -/
theorem accepts_read :
    Reader.Accepts ConstExpr.read fun bs e =>
      bs = e.write ∧ ∃ c, e.op.Accepts e.immediate.toList c := by
  refine .offset_bind fun start => ?_
  refine (Accepts.u8_bind (P := fun b bs e => ConstOp.ofByte? b = some e.op ∧
    bs = e.immediate.toList ++ [terminator] ∧ ∃ c, e.op.Accepts e.immediate.toList c)
    fun b => ?_).congr fun bs e => ?_
  · cases hop : ConstOp.ofByte? b with
    | none => exact (Accepts.fail _).congr fun bs e => by simp
    | some op =>
      refine (accepts_operand op).congr fun bs e => ?_
      rw [Option.some.injEq]
      constructor
      · rintro ⟨rfl, h⟩
        exact ⟨rfl, h⟩
      · rintro ⟨rfl, h⟩
        exact ⟨rfl, h⟩
  · constructor
    · rintro ⟨b, _, rfl, hb, rfl, hc⟩
      exact ⟨by rw [ConstOp.byte_of_ofByte? hb, write], hc⟩
    · rintro ⟨rfl, hc⟩
      exact ⟨e.op.byte, _, rfl, ConstOp.ofByte?_byte e.op, rfl, hc⟩

end ConstExpr

/-! ## Values -/

/-- What becomes of a constant, given the globals. -/
inductive Constant.Evaluates (globals : Array Global) :
    Constant → Except LinkError Value → Prop where
  | value (v : Value) : Evaluates globals (.value v) (.ok v)
  | global (h : globals[index.toNat]? = some g) : Evaluates globals (.global index) (.ok g.value)
  | outOfRange (h : globals.size ≤ index.toNat) :
      Evaluates globals (.global index) (.error (.indexOutOfRange .global index globals.size))

/-- The constant expressions of a module: the initializers of its globals and the offsets of its
segments. -/
def Module.constExprs (m : Module) : List ConstExpr :=
  m.globals.toList.map GlobalDef.init ++ m.elements.toList.map ElementSegment.offset ++
    m.data.toList.map DataSegment.offset

namespace ConstExpr

theorem evaluates_of_constant {e : ConstExpr} (h : e.constant = .ok c) (globals : Array Global) :
    c.Evaluates globals (e.evaluate globals) := by
  unfold evaluate
  rw [h]
  cases c with
  | value v => exact .value v
  | global index =>
    dsimp only
    cases hg : globals[index.toNat]? with
    | some g => exact .global hg
    | none => exact .outOfRange (Array.getElem?_eq_none_iff.mp hg)

/-- An immediate that is kept apart is read to its end exactly if the instruction takes it. -/
theorem runAt_immediate_iff {e : ConstExpr} :
    runAt e.op.immediate e.immediate 0 = .ok c e.immediate.size ↔
      e.op.Accepts e.immediate.toList c := by
  rw [e.op.accepts_immediate]
  constructor
  · rintro ⟨bs, rest, hahead, hstop, hbs⟩
    have hahead : e.immediate.toList = bs ++ rest := hahead
    have hlength := congrArg List.length hahead
    rw [Array.length_toList, hstop, List.length_append] at hlength
    obtain rfl : rest = [] := List.length_eq_zero_iff.mp (by omega)
    rwa [hahead, List.append_nil]
  · intro h
    exact ⟨e.immediate.toList, [], (List.append_nil _).symm, (Nat.zero_add _).symm, h⟩

theorem evaluates_of_accepts {e : ConstExpr} (h : e.op.Accepts e.immediate.toList c)
    (globals : Array Global) : c.Evaluates globals (e.evaluate globals) :=
  evaluates_of_constant (parse_eq_ok.mpr ⟨_, runAt_immediate_iff.mpr h⟩) globals

/-- The expressions of a decoded module have immediates that their instructions take. -/
theorem exists_accepts_of_decode {bytes : Array UInt8} {options : ReadOptions}
    (h : Module.decode bytes options = .ok m) (he : e ∈ m.constExprs) :
    ∃ c, e.op.Accepts e.immediate.toList c := by
  have hparse := Module.parse_of_options (Module.decode_eq_ok_iff.mp h).1
  have hfits (id : SectionId) : m.SectionFits id := ((Module.wellFormed_of_parse hparse).1 id).fits
  have hwf : e.WellFormed := by
    simp only [Module.constExprs, List.mem_append, List.mem_map, Array.mem_toList_iff] at he
    obtain (⟨g, hg, rfl⟩ | ⟨s, hs, rfl⟩) | ⟨s, hs, rfl⟩ := he
    · exact (hfits .globals).fits g hg
    · exact ((hfits .elements).fits s hs).offset
    · exact ((hfits .data).fits s hs).offset
  obtain ⟨c, hc⟩ := hwf
  exact ⟨c, runAt_immediate_iff.mp hc⟩

/-- Reading an expression and evaluating it agree on its immediate, and the expressions of a decoded
module do not fail to evaluate for what they are. -/
theorem read_evaluate_agree :
    (∀ data pos e stop, runAt ConstExpr.read data pos = .ok e stop ↔ ∃ rest c,
      ahead data pos = e.op.byte :: (e.immediate.toList ++ 0x0B :: rest) ∧
        e.op.Accepts e.immediate.toList c ∧ stop = pos + e.immediate.size + 2) ∧
    (∀ data pos e stop, runAt ConstExpr.read data pos = .ok e stop → ∃ c,
      e.op.Accepts e.immediate.toList c ∧
        runAt e.op.immediate data (pos + 1) = .ok c (pos + 1 + e.immediate.size) ∧
        runAt e.op.immediate e.immediate 0 = .ok c e.immediate.size ∧
        ∀ globals, c.Evaluates globals (e.evaluate globals)) ∧
    ∀ bytes options m, Module.decode bytes options = .ok m → ∀ e ∈ m.constExprs, ∀ globals,
      (∃ v, e.evaluate globals = .ok v) ∨ ∃ index, e.op = .globalGet ∧
        e.op.Accepts e.immediate.toList (.global index) ∧ globals.size ≤ index.toNat ∧
        e.evaluate globals = .error (.indexOutOfRange .global index globals.size) := by
  have hread : ∀ data pos e stop, runAt ConstExpr.read data pos = .ok e stop ↔ ∃ rest c,
      ahead data pos = e.op.byte :: (e.immediate.toList ++ 0x0B :: rest) ∧
        e.op.Accepts e.immediate.toList c ∧ stop = pos + e.immediate.size + 2 := by
    intro data pos e stop
    have hlength : e.write.length = e.immediate.size + 2 := by simp [write]
    rw [accepts_read]
    constructor
    · rintro ⟨_, rest, hahead, rfl, rfl, c, hc⟩
      exact ⟨rest, c, by simpa [write, terminator] using hahead, hc, by rw [hlength, Nat.add_assoc]⟩
    · rintro ⟨rest, c, hahead, hc, rfl⟩
      exact ⟨e.write, rest, by simpa [write, terminator] using hahead,
        by rw [hlength, Nat.add_assoc], rfl, c, hc⟩
  refine ⟨hread, ?_, ?_⟩
  · intro data pos e stop hrun
    obtain ⟨rest, c, hahead, hc, -⟩ := (hread data pos e stop).mp hrun
    refine ⟨c, hc, ?_, runAt_immediate_iff.mpr hc, evaluates_of_accepts hc⟩
    exact (e.op.accepts_immediate data (pos + 1) c _).mpr
      ⟨e.immediate.toList, 0x0B :: rest, ahead_succ hahead, rfl, hc⟩
  · intro bytes options m hdecode e he globals
    obtain ⟨c, hc⟩ := exists_accepts_of_decode hdecode he
    have hevaluates := evaluates_of_accepts hc globals
    generalize hresult : e.evaluate globals = result at hevaluates
    cases hevaluates with
    | value v => exact .inl ⟨v, rfl⟩
    | global hg => exact .inl ⟨_, rfl⟩
    | @outOfRange index hindex =>
      have hop : e.op = .globalGet := by
        generalize e.op = op at hc
        cases hc
        rfl
      exact .inr ⟨index, hop, hc, hindex, rfl⟩

/-- A module whose only global asks for another one that there is not. -/
def orphan : Module where
  globals := #[⟨⟨.i32, false⟩, ⟨.globalGet, #[0x85, 0x00]⟩⟩]

/-- A float whose bytes look like terminators is read whole. A global that there is not is noticed
when the expression that asks for it is evaluated. -/
theorem read_evaluate_agree_orphan :
    runAt ConstExpr.read #[0x0B, 0x43, 0x0B, 0x0B, 0x0B, 0x0B, 0x0B, 0x0B] 1 =
        .ok ⟨.f32Const, #[0x0B, 0x0B, 0x0B, 0x0B]⟩ 7 ∧
      (⟨.f32Const, #[0x0B, 0x0B, 0x0B, 0x0B]⟩ : ConstExpr).evaluate #[] =
        .ok (.f32 0x0B0B0B0B) ∧
      Module.decode orphan.encode = .ok orphan ∧
      (⟨.globalGet, #[0x85, 0x00]⟩ : ConstExpr).evaluate #[] =
        .error (.indexOutOfRange .global 5 0) := by
  obtain ⟨hread, hagree, hmodule⟩ := read_evaluate_agree
  have hfloat : runAt ConstExpr.read #[0x0B, 0x43, 0x0B, 0x0B, 0x0B, 0x0B, 0x0B, 0x0B] 1 =
      .ok ⟨.f32Const, #[0x0B, 0x0B, 0x0B, 0x0B]⟩ 7 :=
    (hread _ _ _ _).mpr ⟨[0x0B], _, rfl, .f32Const rfl, rfl⟩
  have hdecode : Module.decode orphan.encode = .ok orphan :=
    Module.eq_ok_of_toOption (by decide +kernel)
  refine ⟨hfloat, ?_, hdecode, ?_⟩
  · obtain ⟨c, hc, -, -, hevaluates⟩ := hagree _ _ _ _ hfloat
    have hevaluates := hevaluates #[]
    cases hc with
    | f32Const =>
      generalize ConstExpr.evaluate _ #[] = result at hevaluates ⊢
      cases hevaluates
      decide
  · have hmem : (⟨.globalGet, #[0x85, 0x00]⟩ : ConstExpr) ∈ orphan.constExprs := by
      simp [Module.constExprs, orphan]
    obtain ⟨v, hv⟩ | ⟨index, -, hc, -, herror⟩ := hmodule _ _ _ hdecode _ hmem #[]
    · contradiction
    · cases hc with
      | globalGet hspells =>
        obtain rfl : index = 5 := UInt32.toNat_inj.mp (Int.ofNat.inj hspells.value).symm
        exact herror

/-! ## Constants that are made of a number -/

theorem spelling_int64 (v : Int64) : Spelling .signed 64 (writeSigned v.toInt) v.toInt := by
  have hlow : -(64 * 128 ^ 9) ≤ v.toInt := Int.le_trans (by decide) v.le_toInt
  have hhigh : v.toInt < 64 * 128 ^ 9 := Int.lt_of_lt_of_le v.toInt_lt (by decide)
  exact spelling_writeSigned ⟨v.le_toInt, v.toInt_lt⟩ (length_writeSigned_le_of_lt hlow hhigh)

theorem spelling_int32 (v : Int32) : Spelling .signed 32 (writeSigned v.toInt) v.toInt := by
  have hlow : -(64 * 128 ^ 4) ≤ v.toInt := Int.le_trans (by decide) v.le_toInt
  have hhigh : v.toInt < 64 * 128 ^ 4 := Int.lt_of_lt_of_le v.toInt_lt (by decide)
  exact spelling_writeSigned ⟨v.le_toInt, v.toInt_lt⟩ (length_writeSigned_le_of_lt hlow hhigh)

/-- A reader of signed integers reads the writer's spelling whatever follows, and reads the number
from no fewer bytes. -/
theorem readBack_of_spelling {toInt : α → Int} {r : Reader α} (hr : Exact .signed bits toInt r)
    (h : Spelling .signed bits (writeSigned (toInt v)) (toInt v)) :
    (∀ data pos rest, ahead data pos = writeSigned (toInt v) ++ rest →
      r.runAt data pos = .ok v (pos + (writeSigned (toInt v)).length)) ∧
    ∀ data pos k, r.runAt data pos = .ok v (pos + k) → (writeSigned (toInt v)).length ≤ k := by
  constructor
  · intro data pos rest hahead
    exact (hr.ok data pos v _).mpr ⟨_, rest, hahead, rfl, h⟩
  · intro data pos k hrun
    obtain ⟨bs, rest, -, hk, hspells⟩ := (hr.ok data pos v _).mp hrun
    rw [Nat.add_left_cancel hk]
    exact hspells.length_writeSigned_le

theorem accepts_i32Const (v : Int32) :
    (i32Const v).op.Accepts (i32Const v).immediate.toList (.value (.i32 v.toUInt32)) :=
  .i32Const (spelling_int32 v)

/-- What the writer of signed integers writes is read back, and no spelling is shorter. So a
constant that is made of a number denotes it, and is read back from its bytes. -/
theorem writeSigned_readBack :
    (∀ v : Int64, (writeSigned v.toInt).length ≤ 10 ∧
      (∀ data pos rest, ahead data pos = writeSigned v.toInt ++ rest →
        runAt s64 data pos = .ok v (pos + (writeSigned v.toInt).length)) ∧
      ∀ data pos k, runAt s64 data pos = .ok v (pos + k) → (writeSigned v.toInt).length ≤ k) ∧
    ∀ v : Int32, (writeSigned v.toInt).length ≤ 5 ∧
      (∀ data pos rest, ahead data pos = writeSigned v.toInt ++ rest →
        runAt s32 data pos = .ok v (pos + (writeSigned v.toInt).length)) ∧
      (∀ data pos k, runAt s32 data pos = .ok v (pos + k) → (writeSigned v.toInt).length ≤ k) ∧
      (∀ globals, (i32Const v).evaluate globals = .ok (.i32 v.toUInt32)) ∧
      ∀ data pos rest, ahead data pos = 0x41 :: ((i32Const v).immediate.toList ++ 0x0B :: rest) →
        runAt ConstExpr.read data pos =
          .ok (i32Const v) (pos + (i32Const v).immediate.size + 2) := by
  refine ⟨fun v => ⟨(spelling_int64 v).length, readBack_of_spelling exact_s64 (spelling_int64 v)⟩,
    fun v => ?_⟩
  obtain ⟨hread, hshortest⟩ := readBack_of_spelling exact_s32 (spelling_int32 v)
  refine ⟨(spelling_int32 v).length, hread, hshortest, fun globals => ?_, fun data pos rest h => ?_⟩
  · have hevaluates := evaluates_of_accepts (accepts_i32Const v) globals
    generalize (i32Const v).evaluate globals = result at hevaluates
    cases hevaluates
    rfl
  · refine (accepts_read data pos _ _).mpr ⟨_, rest, ?_, ?_, rfl, _, accepts_i32Const v⟩
    · rw [h]
      simp [write, terminator, i32Const, ConstOp.byte]
    · simp [write, Nat.add_assoc]

/-- A negative number of three bytes, alone and as a constant; and the smallest of 64 bits, which
takes ten. -/
theorem writeSigned_readBack_negative :
    runAt s64 #[0x9B, 0xF1, 0x59, 0xFF] 0 = .ok (-624485) 3 ∧
      (i32Const (-624485)).evaluate #[] = .ok (.i32 (-624485)) ∧
      runAt ConstExpr.read #[0x41, 0x9B, 0xF1, 0x59, 0x0B, 0x0B] 0 = .ok (i32Const (-624485)) 5 ∧
      ∀ data pos, runAt s64 data pos ≠ .ok Int64.minValue (pos + 9) := by
  obtain ⟨hlong, hshort⟩ := writeSigned_readBack
  have hbytes : writeSigned (-624485 : Int64).toInt = [0x9B, 0xF1, 0x59] := by cbv
  have hconst : (i32Const (-624485)).immediate.toList = [0x9B, 0xF1, 0x59] := by cbv
  have hten : (writeSigned Int64.minValue.toInt).length = 10 := by cbv
  refine ⟨?_, ?_, ?_, fun data pos hrun => ?_⟩
  · have hread := (hlong (-624485)).2.1 #[0x9B, 0xF1, 0x59, 0xFF] 0 [0xFF]
    rw [hbytes] at hread
    exact hread rfl
  · exact (hshort (-624485)).2.2.2.1 #[]
  · have hread := (hshort (-624485)).2.2.2.2 #[0x41, 0x9B, 0xF1, 0x59, 0x0B, 0x0B] 0 [0x0B]
    rw [← Array.length_toList, hconst] at hread
    exact hread rfl
  · have hlength := (hlong Int64.minValue).2.2 data pos 9 hrun
    rw [hten] at hlength
    contradiction

end ConstExpr

end Wasm
