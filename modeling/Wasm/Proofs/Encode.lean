import Wasm.Module.Read
import Wasm.Proofs.Codec

/-!
# Wasm.Proofs.Encode

The entries of a module's sections, written: every number in its shortest spelling, the immediate
of a constant expression as it stands. Beside each writer stands what makes an entry well-formed,
and the theorem that the writer and the entry's reader are a codec.

* `FuncType.write`, `Limits.write`, …, `CodeBody.write`: the writers.
* `FuncType.WellFormed`, `Limits.WellFormed`, …, `CodeBody.WellFormed`: what the format can hold.
* `FuncType.codec`, `Limits.codec`, …, `CodeBody.codec`: reading and writing belong together.
-/

namespace Wasm

open Reader Leb128

/-! ## Types -/

def ValType.write (t : ValType) : List UInt8 := [t.byte]

/-- A value type is one byte. -/
theorem ValType.codec : Codec (ValType.read {}) ValType.write fun _ => True where
  reads t _ := by
    refine .offset_bind fun start => .u8_bind ?_
    simp only [ValType.ofByte?_byte, Bool.not_true, Bool.and_false, Bool.false_eq_true, if_false]
    exact .pure t
  yields := by
    refine .offset_bind fun start => yields_u8.bind fun b n hn => ?_
    cases ValType.ofByte? b with
    | none => exact .fail _
    | some t =>
      refine .ite (fun _ => .fail _) fun _ => .pure ⟨trivial, ?_⟩
      rw [hn]
      exact Nat.le_refl 1

def FuncType.write (t : FuncType) : List UInt8 :=
  0x60 :: (Write.vec ValType.write t.params ++ Write.vec ValType.write t.results)

/-- There are as many parameters and results as a count can say. -/
structure FuncType.WellFormed (t : FuncType) : Prop where
  params : t.params.length < UInt32.size
  results : t.results.length < UInt32.size

/-- Parameters and results are two vectors behind a byte that announces them. -/
theorem FuncType.codec : Codec (FuncType.read {}) FuncType.write FuncType.WellFormed where
  reads t h := by
    have hparams := ValType.codec.vec.reads t.params.toArray ⟨h.params, fun _ _ => trivial⟩
    have hresults := ValType.codec.vec.reads t.results.toArray ⟨h.results, fun _ _ => trivial⟩
    refine .offset_bind fun start => .u8_bind ?_
    rw [if_neg (by decide)]
    exact hparams.bind (hresults.map fun results => FuncType.mk t.params results.toList)
  yields := by
    refine .offset_bind fun start => yields_u8.bind fun form n hn => ?_
    refine .ite (fun _ => .fail _) fun _ => ?_
    refine ValType.codec.vec.yields.bind fun params k hk => ?_
    refine ValType.codec.vec.yields.bind fun results l hl => .pure ?_
    refine ⟨⟨hk.1.size, hl.1.size⟩, ?_⟩
    simp only [FuncType.write, List.length_cons, List.length_append]
    omega

/-! ## Limits -/

def Limits.write : Limits → List UInt8
  | ⟨min, none⟩ => 0 :: writeUnsigned min.toNat
  | ⟨min, some max⟩ => 1 :: (writeUnsigned min.toNat ++ writeUnsigned max.toNat)

/-- A maximum is not below the minimum. -/
def Limits.WellFormed (l : Limits) : Prop :=
  ∀ max ∈ l.max, l.min ≤ max

/-- The byte in front says whether a maximum follows. -/
theorem Limits.codec : Codec Limits.read Limits.write Limits.WellFormed where
  reads l h := by
    obtain ⟨min, max⟩ := l
    have hmin := reads_u32_writeUnsigned min
    cases max with
    | none =>
      refine .offset_bind fun start => .u8_bind ?_
      rw [if_pos rfl]
      exact hmin.map fun min => Limits.mk min none
    | some max =>
      have hmax := reads_u32_writeUnsigned max
      have hle : ¬ max < min := UInt32.not_lt.mpr (h max rfl)
      refine .offset_bind fun start => .u8_bind ?_
      rw [if_neg (by decide), if_pos rfl, ← List.append_nil (writeUnsigned max.toNat)]
      refine hmin.bind (hmax.bind ?_)
      rw [if_neg hle]
      exact .pure _
  yields := by
    refine .offset_bind fun start => yields_u8.bind fun flag n hn => ?_
    refine .ite (fun _ => ?_) fun _ => .ite (fun _ => ?_) fun _ => .fail _
    · refine yields_u32.bind fun min k hk => .pure ⟨fun _ h => (nomatch h), ?_⟩
      rw [Limits.write, List.length_cons]
      omega
    · refine yields_u32.bind fun min k hk => yields_u32.bind fun max l hl => ?_
      refine .ite (fun _ => .fail _) fun hle => .pure ⟨?_, ?_⟩
      · intro max' h
        injection h with h
        rw [← h]
        exact UInt32.not_lt.mp hle
      · rw [Limits.write, List.length_cons, List.length_append]
        omega

/-- The limits of a table, behind the kind of its elements. -/
def Limits.writeTable (l : Limits) : List UInt8 := 0x70 :: l.write

/-- Limits of a table stand behind the type of its elements, which there is only one of. -/
theorem Limits.codec_table : Codec Limits.readTable Limits.writeTable Limits.WellFormed where
  reads l h := by
    refine .offset_bind fun start => .u8_bind ?_
    rw [if_neg (by decide)]
    exact Limits.codec.reads l h
  yields := by
    refine .offset_bind fun start => yields_u8.bind fun element n hn => ?_
    refine .ite (fun _ => .fail _) fun _ => Limits.codec.yields.mono fun l k hk => ?_
    refine ⟨hk.1, ?_⟩
    rw [Limits.writeTable, List.length_cons]
    omega

/-! ## Imports and exports -/

def GlobalType.write (t : GlobalType) : List UInt8 :=
  [t.valType.byte, if t.mutable then 1 else 0]

/-- A value type and a byte for mutability. -/
theorem GlobalType.codec : Codec (GlobalType.read {}) GlobalType.write fun _ => True where
  reads t _ := by
    obtain ⟨type, mutable⟩ := t
    refine (ValType.codec.reads type trivial).bind (.offset_bind fun start => .u8_bind ?_)
    cases mutable with
    | false =>
      rw [if_neg Bool.false_ne_true, if_pos rfl]
      exact .pure _
    | true =>
      rw [if_pos rfl, if_neg (by decide), if_pos rfl]
      exact .pure _
  yields := by
    refine ValType.codec.yields.bind fun type n hn => .offset_bind fun start => ?_
    obtain ⟨-, hn⟩ := hn
    refine yields_u8.bind fun flag k hk => ?_
    have hlen : ∀ mutable, (GlobalType.write ⟨type, mutable⟩).length ≤ n + (k + 0) := by
      intro mutable
      rw [hk]
      exact Nat.add_le_add_right hn 1
    refine .ite (fun _ => ?_) fun _ => .ite (fun _ => ?_) fun _ => .fail _
    · exact .pure ⟨trivial, hlen false⟩
    · exact .pure ⟨trivial, hlen true⟩

def ImportDesc.write : ImportDesc → List UInt8
  | .func type => writeUnsigned type.toNat
  | .table limits => limits.writeTable
  | .memory limits => limits.write
  | .global type => type.write

def ImportDesc.WellFormed : ImportDesc → Prop
  | .table limits | .memory limits => limits.WellFormed
  | .func _ | .global _ => True

/-- What an import is of is read back once the kind is known. -/
theorem ImportDesc.reads (desc : ImportDesc) (h : desc.WellFormed) :
    Reads (ImportDesc.read {} desc.kind) desc.write desc := by
  cases desc with
  | func type => exact (reads_u32_writeUnsigned type).map ImportDesc.func
  | table limits => exact (Limits.codec_table.reads limits h).map ImportDesc.table
  | memory limits => exact (Limits.codec.reads limits h).map ImportDesc.memory
  | global type => exact (GlobalType.codec.reads type trivial).map ImportDesc.global

/-- Whatever is read behind a kind is a description of that kind. -/
theorem ImportDesc.yields (kind : ExternKind) :
    Yields (ImportDesc.read {} kind) fun desc n => desc.WellFormed ∧ desc.write.length ≤ n := by
  cases kind with
  | func => exact yields_u32.bind fun _ _ h => .pure ⟨trivial, h⟩
  | table => exact Limits.codec_table.yields.bind fun _ _ h => .pure h
  | memory => exact Limits.codec.yields.bind fun _ _ h => .pure h
  | global => exact GlobalType.codec.yields.bind fun _ _ h => .pure h

def Import.write (i : Import) : List UInt8 :=
  Write.name i.module ++ (Write.name i.name ++ i.desc.kind.byte :: i.desc.write)

/-- The names are as long as a length can say, and what is asked for is well-formed. -/
structure Import.WellFormed (i : Import) : Prop where
  module : i.module.utf8ByteSize < UInt32.size
  name : i.name.utf8ByteSize < UInt32.size
  desc : i.desc.WellFormed

/-- Two names, the kind, and a description. -/
theorem Import.codec : Codec (Import.read {}) Import.write Import.WellFormed where
  reads i h := by
    have hmodule := codec_name.reads i.module h.module
    have hname := codec_name.reads i.name h.name
    have hdesc := ImportDesc.reads i.desc h.desc
    refine hmodule.bind (hname.bind (.offset_bind fun start => .u8_bind ?_))
    rw [ExternKind.ofByte?_byte]
    exact hdesc.map (Import.mk i.module i.name)
  yields := by
    refine codec_name.yields.bind fun module n hn => codec_name.yields.bind fun name k hk => ?_
    refine .offset_bind fun start => yields_u8.bind fun b l hl => ?_
    cases ExternKind.ofByte? b with
    | none => exact .fail _
    | some kind =>
      refine (ImportDesc.yields kind).bind fun desc o ho => .pure ⟨⟨hn.1, hk.1, ho.1⟩, ?_⟩
      simp only [Import.write, List.length_append, List.length_cons]
      omega

def Export.write (e : Export) : List UInt8 :=
  Write.name e.name ++ e.kind.byte :: writeUnsigned e.index.toNat

/-- The name is as long as a length can say. -/
def Export.WellFormed (e : Export) : Prop :=
  e.name.utf8ByteSize < UInt32.size

/-- A name, the kind, and an index. -/
theorem Export.codec : Codec Export.read Export.write Export.WellFormed where
  reads e h := by
    have hindex := reads_u32_writeUnsigned e.index
    refine (codec_name.reads e.name h).bind (.offset_bind fun start => .u8_bind ?_)
    rw [← List.append_nil (writeUnsigned e.index.toNat)]
    refine hindex.bind ?_
    rw [ExternKind.ofByte?_byte]
    exact .pure _
  yields := by
    refine codec_name.yields.bind fun name n hn => .offset_bind fun start => ?_
    refine yields_u8.bind fun b k hk => yields_u32.bind fun index l hl => ?_
    cases ExternKind.ofByte? b with
    | none => exact .fail _
    | some kind =>
      refine .pure ⟨hn.1, ?_⟩
      simp only [Export.write, List.length_append, List.length_cons]
      omega

/-! ## Constant expressions -/

/-- An immediate is read from its own bytes alone. -/
theorem ConstOp.local_immediate (op : ConstOp) : Local op.immediate := by
  cases op with
  | globalGet => exact local_u32.map Constant.global
  | i32Const => exact local_s32.map fun v => Constant.value (.i32 v.toUInt32)
  | i64Const => exact local_s64.map fun v => Constant.value (.i64 v.toUInt64)
  | f32Const => exact local_u32le.map fun v => Constant.value (.f32 v)
  | f64Const => exact local_u64le.map fun v => Constant.value (.f64 v)

def ConstExpr.write (e : ConstExpr) : List UInt8 :=
  e.op.byte :: (e.immediate.toList ++ [ConstExpr.terminator])

/-- The immediate is read from its bytes, with none of them left. -/
def ConstExpr.WellFormed (e : ConstExpr) : Prop :=
  ∃ c, Reader.runAt e.op.immediate e.immediate 0 = .ok c e.immediate.size

/-- An operation, the bytes of its immediate as they stand, and the terminator. The immediate is
kept in the spelling in which it was read. -/
theorem ConstExpr.codec_read : Codec ConstExpr.read ConstExpr.write ConstExpr.WellFormed where
  reads e h := by
    obtain ⟨c, hc⟩ := h
    have hreads := (e.op.local_immediate.reads_toList_iff.mpr hc).captured
    refine .offset_bind fun start => .u8_bind ?_
    rw [ConstOp.ofByte?_byte]
    refine hreads.bind (.offset_bind fun stop => .u8_bind ?_)
    rw [if_pos rfl]
    exact .pure e
  yields := by
    refine .offset_bind fun start => yields_u8.bind fun b n hn => ?_
    cases ConstOp.ofByte? b with
    | none => exact .fail _
    | some op =>
      refine op.local_immediate.yields_captured.bind fun immediate k hk => ?_
      refine .offset_bind fun stop => yields_u8.bind fun last l hl => ?_
      refine .ite (fun _ => .pure ?_) fun _ => .fail _
      obtain ⟨hsize, c, hc⟩ := hk
      refine ⟨⟨c, op.local_immediate.reads_toList_iff.mp hc⟩, ?_⟩
      simp only [ConstExpr.write, List.length_cons, List.length_append, Array.length_toList,
        List.length_nil]
      omega

/-- With all types allowed, nothing more is checked. -/
theorem ConstExpr.codec :
    Codec (ConstExpr.readAllowed {}) ConstExpr.write ConstExpr.WellFormed where
  reads e h := by
    refine .offset_bind fun start => ?_
    rw [← List.append_nil e.write]
    refine (ConstExpr.codec_read.reads e h).bind ?_
    simp only [Bool.not_true, Bool.and_false, Bool.false_eq_true, if_false]
    exact .pure e
  yields := by
    refine .offset_bind fun start => ConstExpr.codec_read.yields.bind fun e n hn => ?_
    exact .ite (fun _ => .fail _) fun _ => .pure hn

/-! ## Globals and segments -/

def GlobalDef.write (g : GlobalDef) : List UInt8 :=
  g.type.write ++ g.init.write

/-- A type and the expression of the initial value. -/
theorem GlobalDef.codec :
    Codec (GlobalDef.read {}) GlobalDef.write fun g => g.init.WellFormed where
  reads g h := by
    have hinit := ConstExpr.codec.reads g.init h
    exact (GlobalType.codec.reads g.type trivial).bind (hinit.map (GlobalDef.mk g.type))
  yields := by
    refine GlobalType.codec.yields.bind fun type n hn => ?_
    refine ConstExpr.codec.yields.bind fun init k hk => .pure ⟨hk.1, ?_⟩
    simp only [GlobalDef.write, List.length_append]
    omega

def ElementSegment.write (s : ElementSegment) : List UInt8 :=
  writeUnsigned s.table.toNat ++
    (s.offset.write ++ Write.vec (fun func => writeUnsigned func.toNat) s.funcs.toList)

structure ElementSegment.WellFormed (s : ElementSegment) : Prop where
  offset : s.offset.WellFormed
  funcs : s.funcs.size < UInt32.size

/-- A table, an offset, and the functions as a vector. -/
theorem ElementSegment.codec :
    Codec (ElementSegment.read {}) ElementSegment.write ElementSegment.WellFormed where
  reads s h := by
    have hfuncs := codec_u32.vec.reads s.funcs ⟨h.funcs, fun _ _ => trivial⟩
    have hoffset := ConstExpr.codec.reads s.offset h.offset
    exact (reads_u32_writeUnsigned s.table).bind
      (hoffset.bind (hfuncs.map (ElementSegment.mk s.table s.offset)))
  yields := by
    refine yields_u32.bind fun table n hn => ConstExpr.codec.yields.bind fun offset k hk => ?_
    refine codec_u32.vec.yields.bind fun funcs l hl => .pure ⟨⟨hk.1, hl.1.size⟩, ?_⟩
    simp only [ElementSegment.write, List.length_append]
    omega

def DataSegment.write (s : DataSegment) : List UInt8 :=
  writeUnsigned s.memory.toNat ++ (s.offset.write ++ Write.lengthPrefixed s.bytes.toList)

structure DataSegment.WellFormed (s : DataSegment) : Prop where
  offset : s.offset.WellFormed
  bytes : s.bytes.size < UInt32.size

/-- A memory, an offset, and the bytes behind their number. -/
theorem DataSegment.codec :
    Codec (DataSegment.read {}) DataSegment.write DataSegment.WellFormed where
  reads s h := by
    have hbytes := codec_lengthPrefixed.reads s.bytes h.bytes
    have hoffset := ConstExpr.codec.reads s.offset h.offset
    exact (reads_u32_writeUnsigned s.memory).bind
      (hoffset.bind (hbytes.map (DataSegment.mk s.memory s.offset)))
  yields := by
    refine yields_u32.bind fun memory n hn => ConstExpr.codec.yields.bind fun offset k hk => ?_
    refine codec_lengthPrefixed.yields.bind fun bytes l hl => .pure ⟨⟨hk.1, hl.1⟩, ?_⟩
    simp only [DataSegment.write, List.length_append]
    omega

/-! ## Function bodies -/

namespace LocalDecl

def write (d : LocalDecl) : List UInt8 :=
  writeUnsigned d.count.toNat ++ d.type.write

/-- The number of locals that the declarations add to those before them. -/
def sum (total : Nat) (decls : List LocalDecl) : Nat :=
  decls.foldl (fun n decl => n + decl.count.toNat) total

/-- Each group adds to the total. -/
theorem le_sum (total : Nat) (decls : List LocalDecl) : total ≤ sum total decls := by
  induction decls generalizing total with
  | nil => exact Nat.le_refl total
  | cons d decls ih => exact Nat.le_trans (Nat.le_add_right total _) (ih _)

/-- A group is read back if the locals up to it can be counted. -/
theorem reads (d : LocalDecl) (h : total + d.count.toNat < UInt32.size) :
    Reads (LocalDecl.read {} total) d.write d := by
  refine .offset_bind fun start => (reads_u32_writeUnsigned d.count).bind ?_
  rw [if_neg (Nat.not_le.mpr h)]
  exact (ValType.codec.reads d.type trivial).map (LocalDecl.mk d.count)

/-- A group is only read if the locals up to it can be counted. -/
theorem yields (total : Nat) : Yields (LocalDecl.read {} total) fun d n =>
    total + d.count.toNat < UInt32.size ∧ d.write.length ≤ n := by
  refine .offset_bind fun start => yields_u32.bind fun count k hk => ?_
  refine .ite (fun _ => .fail _) fun hfits => ValType.codec.yields.bind fun type l hl => ?_
  refine .pure ⟨Nat.not_le.mp hfits, ?_⟩
  simp only [write, List.length_append]
  omega

/-- Groups are read back one after the other; the induction carries the total along. -/
theorem reads_groups {decls : List LocalDecl} (h : sum total decls < UInt32.size)
    (before : Array LocalDecl) :
    Reads (readGroups {} decls.length total before) (decls.flatMap write)
      (before ++ decls.toArray) := by
  induction decls generalizing total before with
  | nil =>
    rw [Array.append_empty]
    exact .pure before
  | cons d decls ih =>
    have hpush : before ++ (d :: decls).toArray = before.push d ++ decls.toArray := by
      apply Array.toList_inj.mp
      simp
    -- The sum only grows, so what is within bounds in the end is so at every declaration.
    have hfits : total + d.count.toNat < UInt32.size := Nat.lt_of_le_of_lt (le_sum _ decls) h
    rw [hpush, List.flatMap_cons]
    exact (d.reads hfits).bind (ih h (before.push d))

/-- Whatever groups are read, there are as many as announced, and their total can be counted. -/
theorem yields_groups (n : Nat) (htotal : total < UInt32.size) (before : Array LocalDecl) :
    Yields (readGroups {} n total before) fun all k => ∃ decls : List LocalDecl,
      all = before ++ decls.toArray ∧ decls.length = n ∧ sum total decls < UInt32.size ∧
        (decls.flatMap write).length ≤ k := by
  induction n generalizing total before with
  | zero => exact .pure ⟨[], Array.append_empty.symm, rfl, htotal, Nat.le_refl 0⟩
  | succ n ih =>
    refine (yields total).bind fun d k hd => ?_
    refine (ih hd.1 (before.push d)).mono fun all o ho => ?_
    obtain ⟨decls, rfl, rfl, hsum, hlen⟩ := ho
    refine ⟨d :: decls, ?_, rfl, hsum, ?_⟩
    · apply Array.toList_inj.mp
      simp
    · rw [List.flatMap_cons, List.length_append]
      omega

end LocalDecl

namespace CodeBody

/-- The number of locals is the total of all groups. -/
theorem localCount_eq (c : CodeBody) : c.localCount = LocalDecl.sum 0 c.locals.toList :=
  (Array.foldl_toList _).symm

/-- What the size of a body counts: its declarations and its instructions. -/
def content (c : CodeBody) : List UInt8 :=
  Write.vec LocalDecl.write c.locals.toList ++ c.body.toList

def write (c : CodeBody) : List UInt8 :=
  Write.lengthPrefixed c.content

/-- The locals can be counted, and the size is one that the format can say. -/
structure WellFormed (c : CodeBody) : Prop where
  locals : c.locals.size < UInt32.size
  localCount : c.localCount < UInt32.size
  size : c.content.length < UInt32.size

/-- The size in front covers the groups and the instructions, and the instructions end where it
says. -/
theorem reads (c : CodeBody) (h : c.WellFormed) : Reads (CodeBody.read {}) c.write c := by
  refine Reads.lengthPrefixed h.size fun n hn data pos hbs => ?_
  have hlocals : c.locals.toList.length < UInt32.size := h.locals
  have hcount := reads_u32_ofNat hlocals data pos hbs.left.left
  have hgroups := LocalDecl.reads_groups (c.localCount_eq ▸ h.localCount) #[] data _ hbs.left.right
  have hbody := Reads.bytes c.body.toList data _ hbs.right
  have hstop : pos + n.toNat = pos + (Write.vec LocalDecl.write c.locals.toList).length +
      c.body.toList.length := by
    rw [hn, content, List.length_append, Nat.add_assoc]
  rw [Array.empty_append, Nat.add_assoc, ← Write.length_vec] at hgroups
  have hvec : Reader.runAt (do LocalDecl.readGroups {} (← u32).toNat 0 #[]) data pos =
      .ok c.locals (pos + (Write.vec LocalDecl.write c.locals.toList).length) := by
    rw [runAt_bind_of_ok _ hcount, UInt32.toNat_ofNat_of_lt' hlocals, hgroups]
  -- The body is looked over as a whole, then read from its start.
  refine (runAt_bind_of_ok _ (runAt_offset data pos)).trans ?_
  refine runAt_skip_seek_eq_ok.mpr ⟨hn ▸ hbs.le_size, ?_⟩
  refine (runAt_bind_of_ok _ hvec).trans ((runAt_bind_of_ok _ (runAt_offset data _)).trans ?_)
  rw [hstop, if_neg (by omega)]
  refine (runAt_bind_of_ok _ (runAt_pure _ data _)).trans ?_
  rw [Nat.add_sub_cancel_left]
  refine (runAt_bind_of_ok _ hbody).trans ?_
  rw [runAt_pure, content, List.length_append, Nat.add_assoc]

/-- What is read is well-formed; written again, its size may be spelled shorter. -/
theorem yields : Yields (CodeBody.read {}) fun c n => c.WellFormed ∧ c.write.length ≤ n := by
  refine yields_u32.bind fun size n hn data pos c stop hpos hrun => ?_
  replace hrun := (runAt_bind_of_ok _ (runAt_offset data pos)).symm.trans hrun
  obtain ⟨hle, hrun⟩ := runAt_skip_seek_eq_ok.mp hrun
  obtain ⟨locals, past, hvec, hrun⟩ := runAt_bind_eq_ok.mp hrun
  obtain ⟨count, next, hcount, hlocals⟩ := runAt_bind_eq_ok.mp hvec
  obtain ⟨k, rfl, hnext, hk⟩ := yields_u32 data pos count next hpos hcount
  obtain ⟨l, rfl, hpast, decls, rfl, hlen, hsum, hl⟩ :=
    LocalDecl.yields_groups count.toNat (by decide) #[] data _ locals past hnext hlocals
  replace hrun := (runAt_bind_of_ok _ (runAt_offset data _)).symm.trans hrun
  by_cases hover : pos + size.toNat < pos + k + l
  · rw [if_pos hover] at hrun
    contradiction
  · rw [if_neg hover] at hrun
    replace hrun := (runAt_bind_of_ok _ (runAt_pure _ data _)).symm.trans hrun
    obtain ⟨body, hbody, rfl⟩ := runAt_map_eq_ok.mp hrun
    obtain ⟨o, rfl, hlast, hsize, ho⟩ := yields_bytes _ data _ body stop hpast hbody
    -- The shortest spelling of the declarations leaves the body no larger than its size was.
    have hcontent : (content ⟨#[] ++ decls.toArray, body⟩).length ≤ size.toNat := by
      simp only [content, Array.empty_append, List.length_append, Array.length_toList,
        Write.length_vec, hlen]
      omega
    refine ⟨size.toNat, by omega, hlast, ⟨?_, ?_, ?_⟩, ?_⟩
    · rw [Array.empty_append, List.size_toArray, hlen]
      exact count.toNat_lt
    · rw [localCount_eq, Array.empty_append]
      exact hsum
    · exact Nat.lt_of_le_of_lt hcontent size.toNat_lt
    · rw [write, Write.length_lengthPrefixed]
      exact Nat.add_le_add (Nat.le_trans (length_writeUnsigned_mono hcontent) hn) hcontent

/-- Both directions for function bodies. -/
theorem codec : Codec (CodeBody.read {}) write WellFormed :=
  ⟨reads, yields⟩

end CodeBody

end Wasm
