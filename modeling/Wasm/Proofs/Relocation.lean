import Wasm.Proofs.RoundTrip

/-!
# Wasm.Proofs.Relocation

What is read does not depend on where it stands.

* `HasTail data x rest`: the bytes of `data` from `x` on are `rest`.
* `Reader.Moves x y V r r'`: where `r` reads from a position past `x`, `r'` reads from one as far
  past `y`, if the bytes from there on are the same; what they read is related by `V`, and they
  stop as far past `x` and `y`.
* `Module.moves_sections`: the loop over the sections reads the same module from the same sections,
  wherever they stand.

Readers see absolute positions: they use them in their errors, go back to them, and cut the bytes
off at them. So positions are values that `Moves` relates, by `Placed`; everything else that is
read is equal.
-/

namespace Wasm

/-! ## Bytes up to the end -/

/-- The bytes from `x` on are `rest`. -/
def HasTail (data : Array UInt8) (x : Nat) (rest : List UInt8) : Prop :=
  ∃ pre : List UInt8, data.toList = pre ++ rest ∧ pre.length = x

namespace HasTail

/-- What stands before the tail and the tail make up the data. -/
theorem size_eq (h : HasTail data x rest) : data.size = x + rest.length := by
  obtain ⟨pre, hdata, rfl⟩ := h
  rw [← Array.length_toList, hdata, List.length_append]

/-- A byte of the tail, by its distance from where the tail begins. -/
theorem getElem? (h : HasTail data x rest) (k : Nat) : data[x + k]? = rest[k]? := by
  obtain ⟨pre, hdata, rfl⟩ := h
  rw [← Array.getElem?_toList, hdata, List.getElem?_append_right (Nat.le_add_right _ _),
    Nat.add_sub_cancel_left]

/-- A range inside the tail, by distances as well. -/
theorem extract_eq (h : HasTail data x rest) (k j : Nat) :
    data.extract (x + k) (x + j) = ((rest.drop k).take (j - k)).toArray := by
  obtain ⟨pre, hdata, rfl⟩ := h
  apply Array.toList_inj.mp
  rw [Array.toList_extract, hdata, List.extract_eq_take_drop, Nat.add_sub_add_left,
    List.drop_append, List.drop_eq_nil_of_le (Nat.le_add_right _ _), List.nil_append,
    Nat.add_sub_cancel_left]

/-- Cutting the data off behind `x` cuts the tail off. -/
theorem cut (h : HasTail data x rest) (s : Nat) :
    HasTail (data.extract 0 (x + s)) x (rest.take s) := by
  obtain ⟨pre, hdata, rfl⟩ := h
  refine ⟨pre, ?_, rfl⟩
  rw [Array.toList_extract, hdata, List.extract_eq_take_drop, List.drop_zero, Nat.sub_zero,
    List.take_append, List.take_of_length_le (Nat.le_add_right _ _), Nat.add_sub_cancel_left]

end HasTail

namespace Reader

variable {x y : Nat}

/-- Two positions that are as far past `x` and `y`. -/
def Placed (x y p q : Nat) : Prop :=
  ∃ k, p = x + k ∧ q = y + k

/-- Positions that correspond still do so the same distance on. -/
theorem Placed.add (h : Placed x y p q) (n : Nat) : Placed x y (p + n) (q + n) := by
  obtain ⟨k, rfl, rfl⟩ := h
  exact ⟨k + n, Nat.add_assoc x k n, Nat.add_assoc y k n⟩

/-! ## Readers that can be moved -/

/-- Whatever `r` reads past `x`, `r'` reads as far past `y` if the bytes there are the same, up to
`V`; and they stop at positions that correspond. -/
def Moves (x y : Nat) (V : α → β → Prop) (r : Reader α) (r' : Reader β) : Prop :=
  ∀ data data' rest k a stop, HasTail data x rest → HasTail data' y rest →
    r.runAt data (x + k) = .ok a stop →
    ∃ b j, r'.runAt data' (y + k) = .ok b (y + j) ∧ V a b ∧ stop = x + j

namespace Moves

/-- A reader that takes no bytes can be moved. -/
theorem pure {V : α → β → Prop} (h : V a b) : Moves x y V (Pure.pure a) (Pure.pure b) := by
  intro data data' rest k c stop _ _ hrun
  rw [runAt_pure] at hrun
  injection hrun with hc hstop
  subst hc hstop
  exact ⟨b, k, runAt_pure b data' _, h, rfl⟩

/-- A reader that fails reads nothing that would have to be read elsewhere. -/
theorem fail {V : α → β → Prop} {e : ReadError} {r : Reader β} :
    Moves x y V (Reader.fail e) r := by
  intro data data' rest k a stop _ _ hrun
  rw [runAt_fail] at hrun
  contradiction

/-- The second reader starts at positions that correspond, since the first one stops at such. -/
theorem bind {r : Reader α} {r' : Reader β} {f : α → Reader γ} {f' : β → Reader δ}
    {W : γ → δ → Prop} (hr : Moves x y V r r') (hf : ∀ a b, V a b → Moves x y W (f a) (f' b)) :
    Moves x y W (r >>= f) (r' >>= f') := by
  intro data data' rest k c stop htail htail' hrun
  obtain ⟨a, next, ha, hc⟩ := runAt_bind_eq_ok.mp hrun
  obtain ⟨b, j, hb, hab, rfl⟩ := hr data data' rest k a next htail htail' ha
  obtain ⟨d, i, hd, hcd, rfl⟩ := hf a b hab data data' rest j c stop htail htail' hc
  exact ⟨d, i, runAt_bind_eq_ok.mpr ⟨b, y + j, hb, hd⟩, hcd, rfl⟩

/-- A sequence whose first part reads the same. -/
theorem andThen {r r' : Reader α} {f : α → Reader β} {f' : α → Reader γ} {V : β → γ → Prop}
    (hr : Moves x y Eq r r') (hf : ∀ a, Moves x y V (f a) (f' a)) :
    Moves x y V (r >>= f) (r' >>= f') :=
  hr.bind fun a _ hab => hab ▸ hf a

theorem map {r r' : Reader α} (hr : Moves x y Eq r r') (f : α → β) :
    Moves x y Eq (do return f (← r)) (do return f (← r')) :=
  hr.andThen fun _ => .pure rfl

/-- A condition that does not depend on the place decides the same way in both places. -/
theorem ite {p p' : Prop} [Decidable p] [Decidable p'] {r s : Reader α} {r' s' : Reader β}
    {V : α → β → Prop} (hp : p ↔ p') (hr : Moves x y V r r') (hs : Moves x y V s s') :
    Moves x y V (if p then r else s) (if p' then r' else s') := by
  by_cases h : p
  · rwa [if_pos h, if_pos (hp.mp h)]
  · rwa [if_neg h, if_neg (mt hp.mpr h)]

/-- The position itself moves along. -/
theorem offset : Moves x y (Placed x y) offset offset := by
  intro data data' rest k a stop _ _ hrun
  rw [runAt_offset] at hrun
  injection hrun with ha hstop
  exact ⟨y + k, k, runAt_offset data' _, ⟨k, ha.symm, rfl⟩, hstop.symm⟩

/-- A reader that only uses the position for its errors. -/
theorem offset_bind {f : Nat → Reader α} {f' : Nat → Reader β} {V : α → β → Prop}
    (hf : ∀ p q, Moves x y V (f p) (f' q)) :
    Moves x y V (Reader.offset >>= f) (Reader.offset >>= f') :=
  offset.bind fun p q _ => hf p q

/-- The end of the data moves along, since the tails are the same. -/
theorem size : Moves x y (Placed x y) size size := by
  intro data data' rest k n stop htail htail' hrun
  injection hrun with hn hstop
  exact ⟨data'.size, k, rfl, ⟨rest.length, hn ▸ htail.size_eq, htail'.size_eq⟩, hstop.symm⟩

/-- Whether there are bytes left is the same in both places. -/
theorem atEnd : Moves x y Eq atEnd atEnd := by
  intro data data' rest k b stop htail htail' hrun
  injection hrun with hb hstop
  refine ⟨decide (data'.size ≤ y + k), k, rfl, ?_, hstop.symm⟩
  rw [← hb, htail.size_eq, htail'.size_eq]
  simp only [Nat.add_le_add_iff_left]

/-- The byte is the one at the same distance. -/
theorem u8 : Moves x y Eq u8 u8 := by
  intro data data' rest k b stop htail htail' hrun
  simp only [runAt, Reader.u8, htail.getElem?] at hrun
  cases hb : rest[k]? with
  | none =>
    rw [hb] at hrun
    contradiction
  | some c =>
    rw [hb] at hrun
    injection hrun with hc hstop
    have hrun' : Reader.u8.runAt data' (y + k) = .ok c (y + k + 1) :=
      runAt_u8_of_some ((htail'.getElem? k).trans hb)
    exact ⟨c, k + 1, hrun', hc.symm, hstop.symm⟩

/-- A range of bytes is copied from the same distance. -/
theorem bytes (n : Nat) : Moves x y Eq (bytes n) (bytes n) := by
  intro data data' rest k cs stop htail htail' hrun
  obtain ⟨hle, rfl, rfl⟩ := runAt_bytes_eq_ok.mp hrun
  have hle' : y + k + n ≤ data'.size := by
    rw [htail'.size_eq]
    rw [htail.size_eq] at hle
    omega
  refine ⟨_, k + n, runAt_bytes_eq_ok.mpr ⟨hle', rfl, (Nat.add_assoc y k n).symm⟩, ?_,
    Nat.add_assoc x k n⟩
  rw [Nat.add_assoc, Nat.add_assoc, htail.extract_eq, htail'.extract_eq]

theorem skip (n : Nat) : Moves x y Eq (skip n) (skip n) :=
  (bytes n).map fun _ => ()

/-- To go on from a position, go on from the one that corresponds. -/
theorem seek (h : Placed x y p q) : Moves x y Eq (seek p) (seek q) := by
  obtain ⟨j, rfl, rfl⟩ := h
  intro data data' rest k a stop htail htail' hrun
  obtain ⟨hle, rfl⟩ := runAt_seek_eq_ok.mp hrun
  have hle' : y + j ≤ data'.size := by
    rw [htail'.size_eq]
    rw [htail.size_eq] at hle
    omega
  exact ⟨(), j, runAt_seek_eq_ok.mpr ⟨hle', rfl⟩, rfl, rfl⟩

/-- Cutting the bytes off at corresponding positions. -/
theorem within {r : Reader α} {r' : Reader β} (h : Placed x y p q) (hr : Moves x y V r r') :
    Moves x y V (within p r) (within q r') := by
  obtain ⟨s, rfl, rfl⟩ := h
  intro data data' rest k a stop htail htail' hrun
  exact hr _ _ (rest.take s) k a stop (htail.cut s) (htail'.cut s) hrun

/-- The bytes that were passed over are the same. -/
theorem captured {r : Reader α} {r' : Reader β} (hr : Moves x y V r r') :
    Moves x y Eq (captured r) (captured r') := by
  intro data data' rest k cs stop htail htail' hrun
  simp only [runAt, Reader.captured] at hrun
  cases ha : r data (x + k) with
  | error e next =>
    rw [ha] at hrun
    contradiction
  | ok a next =>
    rw [ha] at hrun
    injection hrun with hcs hstop
    obtain ⟨b, j, hb, -, rfl⟩ := hr data data' rest k a next htail htail' ha
    have hb' : r' data' (y + k) = .ok b (y + j) := hb
    refine ⟨data'.extract (y + k) (y + j), j, ?_, ?_, hstop.symm⟩
    · simp only [runAt, Reader.captured, hb']
    · rw [← hcs, htail.extract_eq, htail'.extract_eq]

/-- By induction on the groups that are left: each of them is a byte and a decision. -/
theorem unsignedGroups (bits left room : Nat) :
    Moves x y Eq (Leb128.unsignedGroups bits left room) (Leb128.unsignedGroups bits left room) := by
  induction left generalizing room with
  | zero => exact .offset_bind fun _ _ => .fail
  | succ left ih =>
    refine u8.andThen fun b => .ite Iff.rfl (.offset_bind fun _ _ => .fail) ?_
    exact .ite Iff.rfl ((ih _).map _) (.pure rfl)

/-- The same for signed integers. -/
theorem signedGroups (bits left room : Nat) :
    Moves x y Eq (Leb128.signedGroups bits left room) (Leb128.signedGroups bits left room) := by
  induction left generalizing room with
  | zero => exact .offset_bind fun _ _ => .fail
  | succ left ih =>
    refine u8.andThen fun b => .ite Iff.rfl (.offset_bind fun _ _ => .fail) ?_
    exact .ite Iff.rfl ((ih _).map _) (.pure rfl)

/-- The loop reads what its groups spell. -/
theorem unsigned (bits : Nat) : Moves x y Eq (Leb128.unsigned bits) (Leb128.unsigned bits) := by
  rw [Leb128.unsigned_eq]
  exact unsignedGroups bits _ _

theorem signed (hpos : 0 < bits) (hbits : bits ≤ 64) :
    Moves x y Eq (Leb128.signed bits) (Leb128.signed bits) := by
  rw [Leb128.signed_eq hpos hbits]
  exact signedGroups bits _ _

theorem u32 : Moves x y Eq u32 u32 :=
  (unsigned 32).map _

theorem lengthPrefixed : Moves x y Eq lengthPrefixed lengthPrefixed :=
  u32.andThen fun n => bytes n.toNat

/-- The check for text does not depend on where it stands. -/
theorem name : Moves x y Eq name name := by
  refine .offset_bind fun _ _ => lengthPrefixed.andThen fun text => ?_
  cases String.fromUTF8? ⟨text⟩ with
  | none => exact .fail
  | some s => exact .pure rfl

/-- Items one after the other, by induction on how many are left. -/
theorem repeated {r r' : Reader α} (hr : Moves x y Eq r r') (n : Nat) (items : Array α) :
    Moves x y Eq (repeated r n items) (repeated r' n items) := by
  induction n generalizing items with
  | zero => exact .pure rfl
  | succ n ih => exact hr.andThen fun a => ih (items.push a)

theorem vec {r r' : Reader α} (hr : Moves x y Eq r r') : Moves x y Eq (vec r) (vec r') :=
  u32.andThen fun n => hr.repeated n.toNat #[]

end Moves

end Reader

open Reader

variable {x y : Nat} (options : ReadOptions)

/-! ## Entries of sections -/

/-- A value type is a byte and a check. -/
theorem ValType.moves : Moves x y Eq (read options) (read options) := by
  refine .offset_bind fun _ _ => Moves.u8.andThen fun b => ?_
  cases ofByte? b with
  | none => exact Moves.fail
  | some t => exact Moves.ite Iff.rfl .fail (.pure rfl)

/-- The immediates of each operation are integers or bytes. -/
theorem ConstOp.moves_immediate (op : ConstOp) : Moves x y Eq op.immediate op.immediate := by
  cases op with
  | globalGet => exact Moves.u32.map Constant.global
  | i32Const => exact ((Moves.signed (by decide) (by decide)).map _).map _
  | i64Const => exact ((Moves.signed (by decide) (by decide)).map _).map _
  | f32Const => exact (((Moves.bytes 4).map _).map _).map _
  | f64Const => exact (((Moves.bytes 8).map _).map _).map _

/-- The immediate is cut out of the bytes between two positions, which move along. -/
theorem ConstExpr.moves_read : Moves x y Eq ConstExpr.read ConstExpr.read := by
  refine .offset_bind fun _ _ => Moves.u8.andThen fun b => ?_
  cases ConstOp.ofByte? b with
  | none => exact Moves.fail
  | some op =>
    refine op.moves_immediate.captured.andThen fun immediate => .offset_bind fun _ _ => ?_
    exact Moves.u8.andThen fun last => .ite Iff.rfl (.pure rfl) .fail

theorem ConstExpr.moves : Moves x y Eq (readAllowed options) (readAllowed options) :=
  .offset_bind fun _ _ => ConstExpr.moves_read.andThen fun _ => .ite Iff.rfl .fail (.pure rfl)

/-- Two vectors of value types after a byte that is checked. -/
theorem FuncType.moves : Moves x y Eq (read options) (read options) := by
  refine .offset_bind fun _ _ => Moves.u8.andThen fun form => .ite Iff.rfl .fail ?_
  exact (ValType.moves options).vec.andThen fun params => (ValType.moves options).vec.map _

/-- The byte in front decides whether there is a maximum. -/
theorem Limits.moves : Moves x y Eq read read := by
  refine .offset_bind fun _ _ => Moves.u8.andThen fun flag => ?_
  refine .ite Iff.rfl (Moves.u32.map _) (.ite Iff.rfl ?_ .fail)
  exact Moves.u32.andThen fun min => Moves.u32.andThen fun max => .ite Iff.rfl .fail (.pure rfl)

theorem Limits.moves_table : Moves x y Eq readTable readTable :=
  .offset_bind fun _ _ => Moves.u8.andThen fun _ => .ite Iff.rfl .fail Limits.moves

theorem GlobalType.moves : Moves x y Eq (read options) (read options) := by
  refine (ValType.moves options).andThen fun type => .offset_bind fun _ _ => ?_
  exact Moves.u8.andThen fun flag => .ite Iff.rfl (.pure rfl) (.ite Iff.rfl (.pure rfl) .fail)

/-- What follows the kind of an import depends on the kind alone. -/
theorem ImportDesc.moves (kind : ExternKind) :
    Moves x y Eq (read options kind) (read options kind) := by
  cases kind with
  | func => exact Moves.u32.map _
  | table => exact Limits.moves_table.map _
  | memory => exact Limits.moves.map _
  | global => exact (GlobalType.moves options).map _

theorem Import.moves : Moves x y Eq (read options) (read options) := by
  refine Moves.name.andThen fun module => Moves.name.andThen fun name => ?_
  refine .offset_bind fun _ _ => Moves.u8.andThen fun b => ?_
  cases ExternKind.ofByte? b with
  | none => exact Moves.fail
  | some kind => exact (ImportDesc.moves options kind).map _

theorem Export.moves : Moves x y Eq read read := by
  refine Moves.name.andThen fun name => .offset_bind fun _ _ => Moves.u8.andThen fun b => ?_
  refine Moves.u32.andThen fun index => ?_
  cases ExternKind.ofByte? b with
  | none => exact Moves.fail
  | some kind => exact Moves.pure rfl

theorem GlobalDef.moves : Moves x y Eq (read options) (read options) :=
  (GlobalType.moves options).andThen fun _ => (ConstExpr.moves options).map _

theorem ElementSegment.moves : Moves x y Eq (read options) (read options) :=
  Moves.u32.andThen fun _ => (ConstExpr.moves options).andThen fun _ => Moves.u32.vec.map _

theorem DataSegment.moves : Moves x y Eq (read options) (read options) :=
  Moves.u32.andThen fun _ => (ConstExpr.moves options).andThen fun _ => Moves.lengthPrefixed.map _

theorem LocalDecl.moves (total : Nat) : Moves x y Eq (read options total) (read options total) :=
  .offset_bind fun _ _ => Moves.u32.andThen fun _ =>
    .ite Iff.rfl .fail ((ValType.moves options).map _)

/-- The total is carried along; no position goes into it. -/
theorem LocalDecl.moves_groups (n total : Nat) (decls : Array LocalDecl) :
    Moves x y Eq (readGroups options n total decls) (readGroups options n total decls) := by
  induction n generalizing total decls with
  | zero => exact .pure rfl
  | succ n ih => exact (LocalDecl.moves options total).andThen fun decl => ih _ _

/-- A body goes by positions: it is read from where it starts to where it stops. -/
theorem CodeBody.moves : Moves x y Eq (read options) (read options) := by
  refine Moves.u32.andThen fun size => Moves.offset.bind fun start start' hstart => ?_
  refine (Moves.skip _).andThen fun _ => (Moves.seek hstart).andThen fun _ => ?_
  have hvec : Moves x y Eq (do LocalDecl.readGroups options (← Reader.u32).toNat 0 #[])
      (do LocalDecl.readGroups options (← Reader.u32).toNat 0 #[]) :=
    Moves.u32.andThen fun count => LocalDecl.moves_groups options _ _ _
  refine hvec.andThen fun locals => ?_
  refine Moves.offset.bind fun pos pos' hpos => ?_
  obtain ⟨k, rfl, rfl⟩ := hstart
  obtain ⟨j, rfl, rfl⟩ := hpos
  have hleft : x + k + size.toNat - (x + j) = y + k + size.toNat - (y + j) := by omega
  have hover : x + k + size.toNat < x + j ↔ y + k + size.toNat < y + j := by omega
  refine .ite hover .fail (Moves.andThen ?_ fun length => (Moves.bytes length).map _)
  exact .pure hleft

namespace Module

/-! ## Sections -/

/-- The position of the error is of no account: only what is read without one has to be moved. -/
theorem moves_atMostOne {r : Reader α} (hr : Moves x y Eq r r) (start start' : Nat)
    (what : Malformation) : Moves x y Eq (atMostOne r start what) (atMostOne r start' what) :=
  hr.vec.andThen fun _ => .ite Iff.rfl .fail (.pure rfl)

/-- Each kind of section is a vector of entries that can be moved, or a single index. -/
theorem moves_payload (m : Module) (id : SectionId) :
    Moves x y Eq (readPayload options m id) (readPayload options m id) := by
  cases id with
  | custom =>
    exact Moves.name.andThen fun _ => Moves.size.bind fun _ _ h =>
      (Moves.seek h).andThen fun _ => .pure rfl
  | types => exact (FuncType.moves options).vec.map _
  | imports => exact (Import.moves options).vec.map _
  | functions => exact Moves.u32.vec.map _
  | tables => exact .offset_bind fun _ _ => (moves_atMostOne Limits.moves_table _ _ _).map _
  | memories => exact .offset_bind fun _ _ => (moves_atMostOne Limits.moves _ _ _).map _
  | globals => exact (GlobalDef.moves options).vec.map _
  | exports => exact Export.moves.vec.map _
  | start => exact Moves.u32.map _
  | elements => exact (ElementSegment.moves options).vec.map _
  | codes => exact (CodeBody.moves options).vec.map _
  | data => exact (DataSegment.moves options).vec.map _

/-- A section that has to end where its size says ends there in the other place as well. -/
theorem moves_readWhole (m : Module) (id : SectionId) (hstop : Placed x y stop stop') :
    Moves x y Eq (readWhole options m id stop) (readWhole options m id stop') := by
  refine ((moves_payload options m id).within hstop).andThen fun m => ?_
  refine Moves.offset.bind fun pos pos' hpos => .ite ?_ .fail (.pure rfl)
  obtain ⟨k, rfl, rfl⟩ := hstop
  obtain ⟨j, rfl, rfl⟩ := hpos
  omega

/-- A section header says where its payload stands; otherwise it is the same. -/
theorem moves_sectionHeader :
    Moves x y (fun h h' => h.id = h'.id ∧ h.size = h'.size ∧ Placed x y h.payload h'.payload)
      SectionHeader.read SectionHeader.read := by
  refine .offset_bind fun _ _ => Moves.u8.andThen fun b => ?_
  cases SectionId.ofByte? b with
  | none => exact Moves.fail
  | some id =>
    exact Moves.u32.andThen fun size => Moves.offset.bind fun _ _ h => .pure ⟨rfl, rfl, h⟩

/-- The end of the section is computed from the position behind its size, so it moves along. -/
theorem moves_section (last : UInt8) (m : Module) :
    Moves x y Eq (readSection options last m) (readSection options last m) := by
  refine moves_sectionHeader.bind fun header header' h => ?_
  obtain ⟨id, size, payload⟩ := header
  obtain ⟨id', size', payload'⟩ := header'
  obtain ⟨rfl, rfl, hpayload⟩ := h
  have hwhole := moves_readWhole options m id (hpayload.add size.toNat)
  refine (Moves.skip _).andThen fun _ => (Moves.seek hpayload).andThen fun _ => ?_
  exact .ite Iff.rfl (hwhole.map _) (.ite Iff.rfl .fail (hwhole.map _))

/-- Sections one after the other, up to the end of the data. -/
theorem moves_sections (n : Nat) (last : UInt8) (m : Module) :
    Moves x y Eq (readSections options n last m) (readSections options n last m) := by
  induction n generalizing last m with
  | zero => exact .pure rfl
  | succ n ih =>
    refine Moves.atEnd.andThen fun _ => .ite Iff.rfl (.pure rfl) ?_
    exact (moves_section options last m).andThen fun p => ih p.1 p.2

end Module

end Wasm
