import Wasm.Proofs.Checked
import Wasm.Proofs.CustomSections

/-!
# Wasm.Proofs.Amplification

Counts and lengths are taken from the bytes as they are, but what is decoded never has more items
than the bytes allow.

* `FuncType.checks`, …, `CodeBody.checks`: with their operations checked, the readers for the
  entries of sections do what they do without, and an entry takes a byte of its own beside those for
  all that it holds.
* `Module.decodeChecked`: the decoder, run with checks.
* `Module.itemCount`: all that a module holds, down to the bytes of its names.
* `Module.decode_unamplified`: the checked decoder has no faults, and counts no more items than
  there are bytes behind the header.
-/

namespace Wasm

open Reader

variable {data : Array UInt8} {view : Checked.View} {options : ReadOptions}

/-! ## Types -/

/-- A value type takes one byte. -/
theorem ValType.checks : Checks view pos (ValType.read options) (ValType.read options)
    fun _ n k => n = 1 ∧ k = 0 := by
  refine .offset_bind ((Checks.lift yields_u8).bind fun b n k hn => ?_)
  cases ValType.ofByte? b with
  | none => exact .fail _
  | some type => exact .ite (fun _ => .fail _) fun _ => .pure (by omega)

/-- As an item of a vector it counts once. -/
theorem ValType.checks_item :
    Checks.Item data (ValType.read options) (ValType.read options) fun _ => 1 :=
  .one fun _ _ => ValType.checks.mono fun _ _ _ h _ => by omega

/-- A function type, its parameters and its results. -/
def FuncType.itemCount (t : FuncType) : Nat :=
  1 + t.params.length + t.results.length

/-- The items of both vectors are counted, and each has taken a byte at least. -/
theorem FuncType.checks :
    Checks.Item data (FuncType.read options) (FuncType.read options) itemCount := by
  intro left pos
  refine .offset_bind ((Checks.lift yields_u8).bind fun form n k hn => ?_)
  refine .ite (fun _ => .fail _) fun _ => ?_
  refine (Checks.vec ValType.checks_item).bind fun params l j hl => ?_
  refine (Checks.vec ValType.checks_item).bind fun results o i ho => .pure ?_
  rw [totalWeight_one] at hl ho
  simp only [itemCount, Array.length_toList]
  omega

/-- Limits take bytes, and count nothing. -/
theorem Limits.checks : Checks view pos Limits.read Limits.read fun _ n k => 0 < n ∧ k = 0 := by
  refine .offset_bind ((Checks.lift yields_u8).bind fun flag n k hn => ?_)
  refine .ite (fun _ => ?_) fun _ => .ite (fun _ => ?_) fun _ => .fail _
  · exact Checks.u32.map _ fun _ _ _ _ => by omega
  · refine Checks.u32.bind fun min l j hl => Checks.u32.bind fun max o i ho => ?_
    exact .ite (fun _ => .fail _) fun _ => .pure (by omega)

theorem Limits.checks_table : Checks view pos Limits.readTable Limits.readTable
    fun _ n k => 0 < n ∧ k = 0 := by
  refine .offset_bind ((Checks.lift yields_u8).bind fun element n k hn => ?_)
  exact .ite (fun _ => .fail _) fun _ => Limits.checks.mono fun _ _ _ h _ => by omega

theorem GlobalType.checks : Checks view pos (GlobalType.read options) (GlobalType.read options)
    fun _ n k => n = 2 ∧ k = 0 := by
  refine ValType.checks.bind fun type n k hn => .offset_bind ?_
  refine (Checks.lift yields_u8).bind fun flag l j hl => ?_
  exact .ite (fun _ => .pure (by omega)) fun _ => .ite (fun _ => .pure (by omega)) fun _ => .fail _

/-! ## Imports and exports -/

/-- A description counts nothing by itself. -/
theorem ImportDesc.checks (kind : ExternKind) :
    Checks view pos (ImportDesc.read options kind) (ImportDesc.read options kind)
      fun _ _ k => k = 0 := by
  cases kind with
  | func => exact Checks.u32.map _ fun _ _ _ h => h.2
  | table => exact Limits.checks_table.map _ fun _ _ _ h => h.2
  | memory => exact Limits.checks.map _ fun _ _ _ h => h.2
  | global => exact GlobalType.checks.map _ fun _ _ _ h => h.2

/-- An import and the bytes of its two names. -/
def Import.itemCount (i : Import) : Nat :=
  1 + i.module.utf8ByteSize + i.name.utf8ByteSize

/-- The bytes of both names are counted. -/
theorem Import.checks :
    Checks.Item data (Import.read options) (Import.read options) itemCount := by
  intro left pos
  refine Checks.name.bind fun module n k hn => Checks.name.bind fun name l j hl => ?_
  refine .offset_bind ((Checks.lift yields_u8).bind fun b o i ho => ?_)
  cases ExternKind.ofByte? b with
  | none => exact .fail _
  | some kind =>
    refine (ImportDesc.checks kind).bind fun desc x y hy => .pure ?_
    simp only [itemCount]
    omega

/-- An export and the bytes of its name. -/
def Export.itemCount (e : Export) : Nat :=
  1 + e.name.utf8ByteSize

/-- The bytes of the name are counted. -/
theorem Export.checks : Checks.Item data Export.read Export.read itemCount := by
  intro left pos
  refine Checks.name.bind fun name n k hn => .offset_bind ?_
  refine (Checks.lift yields_u8).bind fun b l j hl => Checks.u32.bind fun index o i ho => ?_
  cases ExternKind.ofByte? b with
  | none => exact .fail _
  | some kind =>
    refine .pure ?_
    simp only [itemCount]
    omega

/-! ## Constant expressions -/

/-- Immediates are read without counting; they are counted with the expression that captures them.
-/
theorem ConstOp.checks_immediate (op : ConstOp) :
    Checks view pos op.immediate op.immediate fun _ _ k => k = 0 := by
  have hu32le : Yields u32le fun _ _ => True := local_u32le.yields.mono fun _ _ _ => trivial
  have hu64le : Yields u64le fun _ _ => True := local_u64le.yields.mono fun _ _ _ => trivial
  cases op with
  | globalGet => exact Checks.u32.map _ fun _ _ _ h => h.2
  | i32Const => exact Checks.s32.map _ fun _ _ _ h => h.2
  | i64Const => exact Checks.s64.map _ fun _ _ _ h => h.2
  | f32Const => exact (Checks.lift hu32le).map _ fun _ _ _ h => h.2
  | f64Const => exact (Checks.lift hu64le).map _ fun _ _ _ h => h.2

namespace ConstExpr

/-- The slice that is captured lies inside the data, because the reader has just passed it. -/
theorem checks_read : Checks view pos ConstExpr.read ConstExpr.read
    fun e n k => e.byteCount = n ∧ k = 0 := by
  refine .offset_bind ((Checks.lift yields_u8).bind fun b n k hn => ?_)
  cases ConstOp.ofByte? b with
  | none => exact .fail _
  | some op =>
    refine (op.checks_immediate.captured).bind fun immediate l j hl => .offset_bind ?_
    refine (Checks.lift yields_u8).bind fun last o i ho => ?_
    refine .ite (fun _ => .pure ?_) fun _ => .fail _
    simp only [byteCount]
    omega

/-- Each byte of an expression is an item. -/
theorem checks : Checks view pos (readAllowed options) (readAllowed options)
    fun e _ k => e.byteCount = k := by
  have htally : Checks view pos (Decoder.tally byteCount ConstExpr.read)
      (Decoder.tally byteCount ConstExpr.read) fun e _ k => e.byteCount = k :=
    checks_read.tally fun e n k h => by omega
  refine .offset_bind (htally.bind fun e n k hk => ?_)
  exact .ite (fun _ => .fail _) fun _ => .pure (by omega)

end ConstExpr

/-! ## Globals and segments -/

/-- A global and the bytes of its initial value. -/
def GlobalDef.itemCount (g : GlobalDef) : Nat :=
  1 + g.init.byteCount

/-- A definition counts itself and what its initial value keeps. -/
theorem GlobalDef.checks :
    Checks.Item data (GlobalDef.read options) (GlobalDef.read options) itemCount := by
  intro left pos
  refine GlobalType.checks.bind fun type n k hn => ?_
  refine ConstExpr.checks.and_le.map _ fun init l j hl => ?_
  simp only [itemCount]
  omega

/-- An element segment, the bytes of its offset, and its function indices. -/
def ElementSegment.itemCount (s : ElementSegment) : Nat :=
  1 + s.offset.byteCount + s.funcs.size

/-- The functions are counted; they are the items of a vector. -/
theorem ElementSegment.checks :
    Checks.Item data (ElementSegment.read options) (ElementSegment.read options) itemCount := by
  intro left pos
  refine Checks.u32.bind fun table n k hn => ConstExpr.checks.and_le.bind fun offset l j hl => ?_
  refine (Checks.vec (.one fun _ _ => Checks.u32)).map _ fun funcs o i ho => ?_
  rw [totalWeight_one] at ho
  simp only [itemCount]
  omega

/-- A data segment, the bytes of its offset, and its bytes. -/
def DataSegment.itemCount (s : DataSegment) : Nat :=
  1 + s.offset.byteCount + s.bytes.size

/-- The bytes are counted; they stand behind their length. -/
theorem DataSegment.checks :
    Checks.Item data (DataSegment.read options) (DataSegment.read options) itemCount := by
  intro left pos
  refine Checks.u32.bind fun memory n k hn => ConstExpr.checks.and_le.bind fun offset l j hl => ?_
  refine Checks.lengthPrefixed.map _ fun bytes o i ho => ?_
  simp only [itemCount]
  omega

/-! ## Function bodies -/

/-- A group counts once, whatever number of locals it declares: that number is never allocated. -/
theorem LocalDecl.checks (total : Nat) :
    Checks.Item data (LocalDecl.read options total) (LocalDecl.read options total)
      fun _ => 1 := by
  refine .one fun left pos => .offset_bind (Checks.u32.bind fun count n k hn => ?_)
  exact .ite (fun _ => .fail _) fun _ => ValType.checks.map _ fun _ _ _ _ => by omega

/-- The declarations of locals are a vector too, whose items depend on those before them. -/
theorem LocalDecl.checks_groups {decls : Array LocalDecl}
    (hleft : decls.size + (data.size - pos) ≤ left) :
    Checks ⟨data, left⟩ pos (readGroups options n total decls)
      (readGroups options n total decls) fun all _ k => all.size ≤ decls.size + k := by
  induction n generalizing pos total decls with
  | zero => exact .pure (Nat.le_refl _)
  | succ n ih =>
    refine (Checks.item (LocalDecl.checks total) (by omega)).bind fun decl l j hl => ?_
    have hpush : (decls.push decl).size + (data.size - (pos + l)) ≤ left := by
      rw [Array.size_push]
      omega
    refine (ih hpush).mono fun all _ _ hall _ => ?_
    rw [Array.size_push] at hall
    omega

/-- A function body, its declarations of locals, and the bytes of its instructions. -/
def CodeBody.itemCount (c : CodeBody) : Nat :=
  1 + c.locals.size + c.body.size

/-- The slice behind the declarations ends where the size says. That it does not begin past its end
is checked before it is taken. -/
theorem CodeBody.checks :
    Checks.Item data (CodeBody.read options) (CodeBody.read options) itemCount := by
  intro left pos
  have hvec (pos : Nat) : Checks ⟨data, left⟩ pos
      (Decoder.vector do LocalDecl.readGroups options (← Reader.u32).toNat 0 #[])
      (Decoder.vector do LocalDecl.readGroups options (← Reader.u32).toNat 0 #[])
      fun all n k => all.size ≤ k ∧ k < n := by
    refine .vector (Checks.u32.bind fun count n k hn => ?_)
    have hleft : (#[] : Array LocalDecl).size + (data.size - (pos + n)) ≤ data.size - pos := by
      rw [Array.size_empty]
      omega
    refine (LocalDecl.checks_groups hleft).mono fun all l j hall hj => ?_
    rw [Array.size_empty] at hall
    omega
  refine Checks.u32.bind fun size n k hn => .offset_bind (.skip_seek fun hle => ?_)
  refine (hvec (pos + n)).bind fun locals l j hl => .offset_bind ?_
  refine .ite (fun _ => .fail _) fun hover => ?_
  refine (Checks.subtract (Nat.not_lt.mp hover)).bind fun length o i ho => ?_
  refine (Checks.bytes length).map _ fun body x y hy => ?_
  simp only [itemCount]
  omega

/-! ## Sections -/

/-- The payload begins where the header ends. -/
theorem SectionHeader.checks : Checks view pos SectionHeader.read SectionHeader.read
    fun header n k => header.payload = pos + n ∧ 0 < n ∧ k = 0 := by
  refine .offset_bind ((Checks.lift yields_u8).bind fun b n k hn => ?_)
  cases SectionId.ofByte? b with
  | none => exact .fail _
  | some id =>
    refine Checks.u32.bind fun size l j hl => .offset_bind (.pure ?_)
    dsimp only
    omega

/-- To go to the end of the bytes is to go forward. -/
theorem Checks.seek_end : Checks view pos (liftM (seek view.bytes.size)) (seek view.bytes.size)
    fun _ _ k => k = 0 where
  ok hpos _ stop hrun := by
    obtain ⟨hle, rfl⟩ := runAt_seek_eq_ok.mp hrun
    exact ⟨view.bytes.size - pos, 0, by omega, hle, Nat.zero_le _, rfl,
      Checked.runAt_liftM_of_ok hrun⟩
  error hpos e stop hrun := ⟨0, hpos, Checked.runAt_liftM_of_error hrun⟩

namespace Module

/-- What a module holds of a section, counted item by item. -/
def sectionItems (m : Module) : SectionId → Nat
  | .custom | .start => 0
  | .types => totalWeight FuncType.itemCount m.types
  | .imports => totalWeight Import.itemCount m.imports
  | .functions => m.funcs.size
  | .tables => m.tables.size
  | .memories => m.memories.size
  | .globals => totalWeight GlobalDef.itemCount m.globals
  | .exports => totalWeight Export.itemCount m.exports
  | .elements => totalWeight ElementSegment.itemCount m.elements
  | .codes => totalWeight CodeBody.itemCount m.codes
  | .data => totalWeight DataSegment.itemCount m.data

/-- All that a module holds: function types with their parameters and results, imports and exports
with the bytes of their names, function indices, tables, memories, globals with the bytes of their
expressions, element segments and data segments with the bytes of their expressions and with their
indices or bytes, and function bodies with their declarations of locals and the bytes of their
instructions. -/
def itemCount (m : Module) : Nat :=
  sectionIds.foldl (fun n id => n + m.sectionItems id) 0

variable {m : Module}

/-- A section adds what it declares. -/
theorem itemCount_withSection_le (acc m : Module) (id : SectionId) :
    (acc.withSection m id).itemCount ≤ acc.itemCount + m.sectionItems id := by
  cases id <;> simp [itemCount, sectionIds, sectionItems, withSection] <;> omega

/-- What is refused has been counted, but no more than there were bytes. -/
theorem checks_atMostOne {c : Checked α} {r : Reader α} (h : Checks.Item data c r weight)
    (start : Nat) (what : Malformation) :
    Checks ⟨data, left⟩ pos (atMostOne c start what) (atMostOne r start what)
      fun items n k => totalWeight weight items ≤ k ∧ k < n :=
  (Checks.vec h).bind fun _ _ _ hk => .ite (fun _ => .fail _) fun _ => .pure hk

/-- A payload is read into its own section, and what is read has been counted. -/
theorem checks_payload (acc : Module) (id : SectionId) :
    Checks ⟨data, left⟩ pos (readPayload options acc id) (readPayload options acc id)
      fun m _ k => ∃ source, m = acc.withSection source id ∧ source.sectionItems id ≤ k := by
  cases id with
  | custom =>
    refine Checks.name.bind fun _ _ _ _ => .look_bind rfl (Checks.seek_end.bind fun _ _ _ _ => ?_)
    exact .pure ⟨acc, rfl, Nat.zero_le _⟩
  | types =>
    exact (Checks.vec FuncType.checks).map _ fun types _ _ h => ⟨{ types }, rfl, h.1⟩
  | imports =>
    exact (Checks.vec Import.checks).map _ fun imports _ _ h => ⟨{ imports }, rfl, h.1⟩
  | functions =>
    exact (Checks.vec (.one fun _ _ => Checks.u32)).map _ fun funcs _ _ h =>
      ⟨{ funcs }, rfl, size_le_of_totalWeight_le h.1⟩
  | tables =>
    refine .offset_bind ?_
    exact (checks_atMostOne (.one fun _ _ => Limits.checks_table) _ _).map _ fun tables _ _ h =>
      ⟨{ tables }, rfl, size_le_of_totalWeight_le h.1⟩
  | memories =>
    refine .offset_bind ?_
    exact (checks_atMostOne (.one fun _ _ => Limits.checks) _ _).map _ fun memories _ _ h =>
      ⟨{ memories }, rfl, size_le_of_totalWeight_le h.1⟩
  | globals =>
    exact (Checks.vec GlobalDef.checks).map _ fun globals _ _ h => ⟨{ globals }, rfl, h.1⟩
  | exports => exact (Checks.vec Export.checks).map _ fun exports _ _ h => ⟨{ exports }, rfl, h.1⟩
  | start =>
    exact Checks.u32.map _ fun func _ _ _ => ⟨{ start := some func }, rfl, Nat.zero_le _⟩
  | elements =>
    exact (Checks.vec ElementSegment.checks).map _ fun elements _ _ h => ⟨{ elements }, rfl, h.1⟩
  | codes => exact (Checks.vec CodeBody.checks).map _ fun codes _ _ h => ⟨{ codes }, rfl, h.1⟩
  | data => exact (Checks.vec DataSegment.checks).map _ fun data _ _ h => ⟨{ data }, rfl, h.1⟩

/-- A section stays inside its bounds, so the difference between its end and the position is never
negative. -/
theorem checks_readWhole (options : ReadOptions) (acc : Module) (id : SectionId)
    (hpos : pos ≤ stop) (hstop : stop ≤ view.bytes.size) :
    Checks view pos (readWhole options acc id stop) (readWhole options acc id stop)
      fun m _ k => m.itemCount ≤ acc.itemCount + k := by
  refine (Checks.within hpos hstop (checks_payload acc id)).bind fun m n k hm => .offset_bind ?_
  refine .ite (fun _ => .fail _) fun _ => .pure ?_
  obtain ⟨source, rfl, hk⟩ := hm
  have hle := itemCount_withSection_le acc source id
  omega

/-- The window of a section lies within the bytes, since these have been passed over before. -/
theorem checks_section (last : UInt8) (acc : Module) :
    Checks view pos (readSection options last acc) (readSection options last acc)
      fun p n k => p.2.itemCount ≤ acc.itemCount + k ∧ 0 < n := by
  refine SectionHeader.checks.bind fun header n k hheader => ?_
  obtain ⟨id, size, payload⟩ := header
  obtain ⟨hpayload, hn, rfl⟩ := hheader
  obtain rfl : payload = pos + n := hpayload
  refine .skip_seek fun hsize => ?_
  have hwhole := checks_readWhole options acc id (Nat.le_add_right _ _) hsize
  refine .ite (fun _ => hwhole.map _ fun m l j hm => ?_) fun _ => .ite (fun _ => .fail _) fun _ =>
    hwhole.map _ fun m l j hm => ?_
  · dsimp only
    omega
  · dsimp only
    omega

/-- A section takes a byte, so the loop over the sections ends. -/
theorem checks_sections (last : UInt8) (acc : Module) (hn : view.bytes.size ≤ pos + n) :
    Checks view pos (readSections options n last acc) (readSections options n last acc)
      fun m _ k => m.itemCount ≤ acc.itemCount + k := by
  induction n generalizing pos last acc with
  | zero => exact (Checks.finished hn).bind fun _ _ _ _ => .pure (Nat.le_add_right _ _)
  | succ n ih =>
    have hend : atEnd.runAt view.bytes pos = .ok (decide (view.bytes.size ≤ pos)) pos := rfl
    refine .look_bind hend (.ite (fun _ => .pure (Nat.le_add_right _ _)) fun _ => ?_)
    refine (checks_section last acc).bind fun p l j hp => ?_
    obtain ⟨last', acc'⟩ := p
    refine (ih last' acc' (by omega)).mono fun m _ i hm _ => ?_
    dsimp only at hp
    omega

/-! ## Modules -/

/-- Behind the header, the loop takes no more turns than there are bytes. -/
theorem checks_behindHeader (view : Checked.View) (options : ReadOptions)
    (hpos : pos ≤ view.bytes.size) :
    Checks view pos (do readSections options (← remaining) 0 {})
      (do readSections options (← remaining) 0 {}) fun m _ k => m.itemCount ≤ k := by
  have hleft : remaining.runAt view.bytes pos = .ok (view.bytes.size - pos) pos := rfl
  have hempty : itemCount {} = 0 := rfl
  refine .look_bind hleft ((checks_sections 0 {} (by omega)).mono fun m _ k hm _ => ?_)
  rwa [hempty, Nat.zero_add] at hm

theorem yields_u32le : Yields u32le fun _ n => n = 4 :=
  .bind (.bind (yields_bytes 4) fun _ _ hn => .pure hn.2) fun _ _ hn => .pure hn

/-- The header takes eight bytes. -/
theorem yields_readHeader : Yields readHeader fun _ n => n = 8 := by
  refine yields_u32le.bind fun _ n hn => .ite (fun _ => .fail _) fun _ => ?_
  exact yields_u32le.bind fun _ k hk => .ite (fun _ => .fail _) fun _ => .pure (by omega)

/-- The checked reader of modules counts no more items than there are bytes behind the header, if
it fails as well. -/
theorem runAt_checked (bytes : Array UInt8) (options : ReadOptions) :
    (∃ m stop count, runAt (read options) bytes 0 = .ok m stop ∧
      Checked.runAt (read options) ⟨bytes, 0⟩ ⟨0, 0⟩ = .ok m ⟨stop, count⟩ ∧
      m.itemCount ≤ count ∧ 8 + count ≤ bytes.size) ∨
    ∃ e stop count, runAt (read options) bytes 0 = .error e stop ∧
      Checked.runAt (read options) ⟨bytes, 0⟩ ⟨0, 0⟩ = .error (.read e) ⟨stop, count⟩ ∧
      count ≤ bytes.size - 8 := by
  cases hheader : readHeader.runAt bytes 0 with
  | error e stop =>
    refine .inr ⟨e, stop, 0, ?_, ?_, Nat.zero_le _⟩
    · rw [read, liftM_self, runAt_bind, hheader]
    · exact Checked.runAt_bind_of_error _ (Checked.runAt_liftM_of_error hheader 0)
  | ok _ next =>
    obtain ⟨_, rfl, hle, rfl⟩ := yields_readHeader bytes 0 _ next (Nat.zero_le _) hheader
    rw [read, read, liftM_self, Reader.runAt_bind_of_ok _ hheader,
      Checked.runAt_bind_of_ok _ (Checked.runAt_liftM_of_ok hheader 0)]
    have hrest := checks_behindHeader ⟨bytes, 0⟩ options hle
    cases hrun : runAt (do readSections options (← remaining) 0 {}) bytes (0 + 8) with
    | ok m stop =>
      obtain ⟨n, k, rfl, hstop, hk, hm, hchecked⟩ := hrest.ok hle m stop hrun
      dsimp only at hstop
      refine .inl ⟨m, _, k, rfl, ?_, hm, by omega⟩
      rw [hchecked, Nat.zero_add k]
    | error e stop =>
      obtain ⟨k, hk, hchecked⟩ := hrest.error hle e stop hrun
      dsimp only at hk
      refine .inr ⟨e, stop, k, rfl, ?_, by omega⟩
      rw [hchecked, Nat.zero_add k]

/-- Decode a binary module with every operation checked: the answer, unless there is a fault, and
the number of items that have been decoded until then. -/
def decodeChecked (bytes : Array UInt8) (options : ReadOptions := {}) :
    Except Checked.Fault (Except DecodeError Module) × Nat :=
  match Checked.runAt (read options) ⟨bytes, 0⟩ ⟨0, 0⟩ with
  | .ok m s => (.ok (accept m), s.decoded)
  | .error (.read e) s => (.ok (.error (.read e)), s.decoded)
  | .error (.fault f) s => (.error f, s.decoded)

/-- Decoding goes on to accept what was read. -/
theorem decode_of_runAt_eq_ok {bytes : Array UInt8}
    (h : runAt (read options) bytes 0 = .ok m stop) : decode bytes options = m.accept := by
  rw [decode, parse, h]

/-- An error of reading is the error of decoding. -/
theorem decode_of_runAt_eq_error {bytes : Array UInt8}
    (h : runAt (read options) bytes 0 = .error e stop) :
    decode bytes options = .error (.read e) := by
  rw [decode, parse, h]

/-- No count and no length in the bytes makes the decoder do more than the bytes allow. With every
slice and every difference checked, with every vector checked to decode no more items than bytes are
left when it starts, and with as many turns for the loop over the sections as there are bytes behind
the header, the decoder has no fault and answers as it does without checks. It decodes no more items
than there are bytes behind the header, and so many are all that a module holds. -/
theorem decode_unamplified (bytes : Array UInt8) (options : ReadOptions) :
    ∃ count, decodeChecked bytes options = (.ok (decode bytes options), count) ∧
      count ≤ bytes.size - 8 ∧
      ∀ m, decode bytes options = .ok m → 8 ≤ bytes.size ∧ m.itemCount ≤ count := by
  obtain ⟨m, stop, count, hread, hchecked, hm, hcount⟩ |
      ⟨e, stop, count, hread, hchecked, hcount⟩ := runAt_checked bytes options
  · have hdecode := decode_of_runAt_eq_ok hread
    refine ⟨count, ?_, by omega, fun m' hm' => ?_⟩
    · rw [decodeChecked, hchecked, hdecode]
    · rw [hdecode] at hm'
      obtain ⟨rfl, -⟩ := accept_eq_ok_iff.mp hm'
      exact ⟨by omega, hm⟩
  · have hdecode := decode_of_runAt_eq_error hread
    refine ⟨count, ?_, hcount, fun m' hm' => ?_⟩
    · rw [decodeChecked, hchecked, hdecode]
    · rw [hdecode] at hm'
      contradiction

/-- A function section that announces `2 ^ 32 - 1` functions and has one. -/
def announcing : Array UInt8 :=
  #[0x00, 0x61, 0x73, 0x6D, 0x01, 0x00, 0x00, 0x00,
    0x03, 0x06, 0xFF, 0xFF, 0xFF, 0xFF, 0x0F, 0x00]

/-- Seventeen items from fifty-nine bytes; and a vector that announces more than there are bytes
ends at the end of the data. -/
theorem decode_unamplified_longAnswer :
    (decode longAnswer = .ok answer ∧ answer.itemCount = 17 ∧
      ∃ count, decodeChecked longAnswer = (.ok (.ok answer), count) ∧ 17 ≤ count ∧ count ≤ 51) ∧
    ∃ count, decodeChecked announcing = (.ok (.error (.read (.unexpectedEof 16))), count) ∧
      count ≤ 8 := by
  have hdecode : decode longAnswer = .ok answer := eq_ok_of_toOption (by decide +kernel)
  have hitems : answer.itemCount = 17 := by decide +kernel
  have hannouncing : decode announcing = .error (.read (.unexpectedEof 16)) := rfl
  constructor
  · obtain ⟨count, hchecked, hcount, hm⟩ := decode_unamplified longAnswer {}
    rw [hdecode] at hchecked
    exact ⟨hdecode, hitems, count, hchecked, hitems ▸ (hm answer hdecode).2, hcount⟩
  · obtain ⟨count, hchecked, hcount, -⟩ := decode_unamplified announcing {}
    rw [hannouncing] at hchecked
    exact ⟨count, hchecked, hcount⟩

end Module

end Wasm
