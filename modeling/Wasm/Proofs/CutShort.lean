import Wasm.Proofs.CustomSections

/-!
# Wasm.Proofs.CutShort

Modules whose bytes end too early.

* `Reader.Starves r`: on data that are cut off before the place where `r` would stop, `r` says that
  it came to their end.
* `Module.Frames ids bs`: the bytes `bs` are sections in a row, with the identifiers `ids`. Only
  their sizes say where they end.
* `Module.only m ids`: the sections of `m` that are listed.
* `Module.decode_cut`: a module that is cut off between two sections has the sections before the
  cut; anywhere else, the decoder says that it came to the end of the bytes.

The decoder makes sure that all bytes of a section are there before it looks at them. So it reads a
section as before, or it comes to the end of the bytes in the section's header or right behind it.
-/

namespace Wasm

open Reader

variable {data p : Array UInt8}

/-! ## Data that are cut off -/

/-- The data `p` are the beginning of `data`, which have a length that positions can say. -/
structure CutOff (data p : Array UInt8) : Prop where
  begins : p.toList <+: data.toList
  size_lt : data.size < UInt64.size

namespace CutOff

/-- What is left after the cut is not longer. -/
theorem size_le (h : CutOff data p) : p.size ≤ data.size := by
  simpa using h.begins.length_le

/-- It stands at the beginning of the data. -/
theorem standsAt (h : CutOff data p) : StandsAt data 0 p.toList := by
  obtain ⟨rest, hrest⟩ := h.begins
  exact ⟨[], rest, hrest.symm, rfl⟩

/-- What stands before the cut stands in the data. -/
theorem standsAt_of (h : CutOff data p) (hbs : StandsAt p pos bs) : StandsAt data pos bs :=
  (StandsAt.of_toList p).of_common h.standsAt hbs (by simpa using hbs.le_size)

/-- What stands in the data and ends before the cut is still there. -/
theorem standsAt_cut (h : CutOff data p) (hbs : StandsAt data pos bs)
    (hle : pos + bs.length ≤ p.size) : StandsAt p pos bs :=
  h.standsAt.of_common (.of_toList p) hbs (by simpa using hle)

end CutOff

/-- The first of the bytes at the end, and those behind them. -/
theorem HasTail.split (h : HasTail data pos (bs ++ rest)) :
    StandsAt data pos bs ∧ HasTail data (pos + bs.length) rest := by
  obtain ⟨pre, hdata, rfl⟩ := h
  refine ⟨⟨pre, rest, hdata, rfl⟩, pre ++ bs, ?_, ?_⟩
  · rw [hdata, List.append_assoc]
  · rw [List.length_append]

theorem HasTail.toList_eq (h : HasTail data 0 rest) : data.toList = rest := by
  obtain ⟨pre, hdata, hlen⟩ := h
  obtain rfl := List.length_eq_zero_iff.mp hlen
  exact hdata

/-- What stands before a tail makes it longer. -/
theorem HasTail.append (hbs : StandsAt data pos bs) (h : HasTail data (pos + bs.length) rest) :
    HasTail data pos (bs ++ rest) := by
  obtain ⟨before, after, hdata, rfl⟩ := hbs
  obtain ⟨pre, hdata', hlen⟩ := h
  rw [← List.length_append] at hlen
  rw [hdata, ← List.append_assoc] at hdata'
  obtain ⟨-, rfl⟩ := List.append_inj hdata' hlen.symm
  exact ⟨before, hdata, rfl⟩

namespace Reader

/-- What a reader has read, it reads from the beginning of the data alone if that goes so far. -/
theorem Local.of_cutOff {r : Reader α} (hr : Local r) (hcut : CutOff data p) (hpos : pos ≤ p.size)
    (hrun : r.runAt data pos = .ok a stop) (hstop : stop ≤ p.size) :
    r.runAt p pos = .ok a stop := by
  obtain ⟨bs, hbs, rfl, hreads⟩ := hr data pos a stop (Nat.le_trans hpos hcut.size_le) hrun
  exact hreads p pos (hcut.standsAt_cut hbs hstop)

/-- The reader comes to the end of the data if they are cut off before the place where it stops. -/
def Starves (r : Reader α) : Prop :=
  ∀ ⦃data p : Array UInt8⦄ ⦃pos : Nat⦄ ⦃a : α⦄ ⦃stop : Nat⦄, CutOff data p → pos ≤ p.size →
    r.runAt data pos = .ok a stop → p.size < stop →
    ∃ offset next, r.runAt p pos = .error (.unexpectedEof offset) next

namespace Starves

theorem pure (a : α) : Starves (Pure.pure a) := by
  intro data p pos b stop hcut hpos hrun hlt
  cases hrun
  omega

theorem fail (e : ReadError) : Starves (Reader.fail e : Reader α) := by
  intro data p pos a stop hcut hpos hrun
  contradiction

/-- A cut falls into the bytes of the first reader, which then starves, or behind them. In this case
the second reader has started at the same place, and starves by itself. -/
theorem bind {r : Reader α} {f : α → Reader β} (hlocal : Local r) (hr : Starves r)
    (hf : ∀ a, Starves (f a)) : Starves (r >>= f) := by
  intro data p pos b stop hcut hpos hrun hlt
  obtain ⟨a, mid, ha, hb⟩ := runAt_bind_eq_ok.mp hrun
  by_cases hmid : mid ≤ p.size
  · rw [runAt_bind_of_ok _ (hlocal.of_cutOff hcut hpos ha hmid)]
    exact hf a hcut hmid hb hlt
  · obtain ⟨offset, next, hend⟩ := hr hcut hpos ha (Nat.lt_of_not_le hmid)
    exact ⟨offset, next, by rw [runAt_bind, hend]⟩

theorem map {r : Reader α} (hlocal : Local r) (hr : Starves r) (f : α → β) :
    Starves (do return f (← r)) :=
  hr.bind hlocal fun a => .pure (f a)

/-- The position is the same before and after the cut. -/
theorem offset_bind {f : Nat → Reader α} (h : ∀ pos, Starves (f pos)) :
    Starves (offset >>= f) := by
  intro data p pos a stop hcut hpos hrun hlt
  rw [runAt_bind_of_ok _ (runAt_offset data pos)] at hrun
  rw [runAt_bind_of_ok _ (runAt_offset p pos)]
  exact h pos hcut hpos hrun hlt

theorem ite {c : Prop} [Decidable c] {r r' : Reader α} (hr : Starves r) (hr' : Starves r') :
    Starves (if c then r else r') := by
  split
  · exact hr
  · exact hr'

/-- Without its byte, a reader of one byte runs into the end. -/
theorem u8 : Starves u8 := by
  intro data p pos b stop hcut hpos hrun hlt
  obtain ⟨bs, -, rfl, hreads⟩ := Local.u8 data pos b stop (Nat.le_trans hpos hcut.size_le) hrun
  obtain rfl := reads_u8_iff.mp hreads
  have hend : p[pos]? = none := by
    simp only [List.length_singleton] at hlt
    simp
    omega
  exact ⟨pos, pos, by simp [runAt, Reader.u8, hend]⟩

/-- Bytes are taken all or none. -/
theorem bytes (n : Nat) : Starves (bytes n) := by
  intro data p pos b stop hcut hpos hrun hlt
  obtain ⟨hle, -, rfl⟩ := runAt_bytes_eq_ok.mp hrun
  have hposition := hcut.size_lt
  refine ⟨pos, pos, ?_⟩
  rw [runAt, Reader.bytes, if_neg (by omega), if_neg (by omega)]

/-- A group that says that another one follows, and is the last before the cut, leads into the end.
-/
theorem unsignedGroups (bits left room : Nat) :
    Starves (Leb128.unsignedGroups bits left room) := by
  induction left generalizing room with
  | zero => exact offset_bind fun _ => .fail _
  | succ left ih =>
    refine u8.bind Local.u8 fun b => .ite (offset_bind fun _ => .fail _) (.ite ?_ (.pure _))
    exact (ih _).map (Leb128.local_unsignedGroups _ _ _) _

theorem u32 : Starves u32 := by
  refine map (Leb128.local_unsigned 32) ?_ _
  rw [Leb128.unsigned_eq]
  exact unsignedGroups _ _ _

theorem u32le : Starves u32le := by
  refine map (Local.littleEndian 4) ?_ _
  exact (bytes 4).map (Local.bytes 4) _

theorem sectionHeader : Starves SectionHeader.read := by
  refine offset_bind fun start => u8.bind Local.u8 fun b => ?_
  cases SectionId.ofByte? b with
  | none => exact .fail _
  | some id => exact u32.bind local_u32 fun size => offset_bind fun _ => .pure _

end Starves

end Reader

/-! ## The header -/

/-- Bytes are the little-endian spelling of their number. -/
theorem leBytes_leNat (bs : List UInt8) : leBytes bs.length (leNat bs) = bs := by
  induction bs with
  | nil => rfl
  | cons b bs ih =>
    have hb := b.toNat_lt
    have hhead : UInt8.ofNat (b.toNat + 256 * leNat bs) = b := by
      apply UInt8.toNat.inj
      rw [UInt8.toNat_ofNat']
      omega
    have htail : (b.toNat + 256 * leNat bs) / 256 = leNat bs := by omega
    rw [leNat, List.length_cons, leBytes, hhead, htail, ih]

/-- Four bytes are known from the number that they spell. -/
theorem eq_leBytes_of_reads_u32le (h : Reads u32le bs n) : bs = leBytes 4 n.toNat := by
  have hlen : bs.length = 4 := by
    have hrun := h bs.toArray 0 (.of_toList bs.toArray)
    obtain ⟨v, hv, -⟩ := runAt_map_eq_ok.mp hrun
    obtain ⟨cs, hcs, -⟩ := runAt_map_eq_ok.mp hv
    obtain ⟨-, -, hstop⟩ := runAt_bytes_eq_ok.mp hcs
    exact Nat.add_left_cancel hstop
  obtain ⟨-, rfl⟩ := h.unique ((Reads.littleEndian hlen).map UInt32.ofNat)
    (.of_toList bs.toArray) (.of_toList bs.toArray)
  have hlt : leNat bs < UInt32.size := by
    match bs, hlen with
    | [a, b, c, d], _ =>
      have ha := a.toNat_lt
      have hb := b.toNat_lt
      have hc := c.toNat_lt
      have hd := d.toNat_lt
      simp only [leNat, UInt32.size]
      omega
  rw [UInt32.toNat_ofNat_of_lt' hlt, ← hlen, leBytes_leNat]

namespace Module

variable {options : ReadOptions} {acc m : Module} {id : SectionId}

theorem starves_readHeader : Starves readHeader :=
  Starves.u32le.bind local_u32le fun _ => .ite (.fail _)
    (Starves.u32le.bind local_u32le fun _ => .ite (.fail _) (.pure _))

/-- What is read as a header is the header. -/
theorem readHeader_eq_ok (hpos : pos ≤ data.size) (hrun : readHeader.runAt data pos = .ok () stop) :
    StandsAt data pos header ∧ stop = pos + header.length := by
  obtain ⟨magic', mid, hmagic, hrun⟩ := runAt_bind_eq_ok.mp hrun
  obtain ⟨bs, hbs, rfl, hreads⟩ := local_u32le data pos magic' mid hpos hmagic
  split at hrun
  · contradiction
  · next heq =>
    obtain rfl := Decidable.not_not.mp heq
    obtain ⟨version', mid, hversion, hrun⟩ := runAt_bind_eq_ok.mp hrun
    obtain ⟨cs, hcs, rfl, hreads'⟩ := local_u32le data _ version' mid hbs.le_size hversion
    split at hrun
    · contradiction
    · next heq =>
      obtain rfl := Decidable.not_not.mp heq
      injection hrun with _ hstop
      rw [header, ← eq_leBytes_of_reads_u32le hreads, ← eq_leBytes_of_reads_u32le hreads',
        List.length_append, ← Nat.add_assoc]
      exact ⟨hbs.append hcs, hstop.symm⟩

/-! ## Sections in a row -/

/-- The bytes are sections in a row that have these identifiers: of each one its identifier, its
size in any spelling, and as many bytes, whatever they say. -/
inductive Frames : List SectionId → List UInt8 → Prop
  | nil : Frames [] []
  | cons (id : SectionId) (size payload : List UInt8) {n : UInt32} (hsize : Reads u32 size n)
      (hn : n.toNat = payload.length) (hrest : Frames ids rest) :
      Frames (id :: ids) (id.byte :: size ++ (payload ++ rest))

/-- As many bytes follow as the size says, at least. -/
theorem Frames.size_le {rest : List UInt8} (h : Frames ids (b :: (bs ++ rest)))
    (hbs : Reads u32 bs n) : n.toNat ≤ rest.length := by
  generalize hall : b :: (bs ++ rest) = all at h
  cases h with
  | nil => contradiction
  | @cons ids rest' id size payload n' hsize hn hrest =>
    injection hall with _ hall
    have hstands : StandsAt (bs ++ rest).toArray 0 (bs ++ rest) := .of_toList _
    have hstands' : StandsAt (bs ++ rest).toArray 0 (size ++ (payload ++ rest')) :=
      hall ▸ hstands
    obtain ⟨rfl, rfl⟩ := hbs.unique hsize hstands.left hstands'.left
    rw [List.append_cancel_left hall, List.length_append, ← hn]
    exact Nat.le_add_right _ _

/-- The sections of a module that are listed, and no others. -/
def only (m : Module) (ids : List SectionId) : Module :=
  ids.foldl (fun acc id => acc.withSection m id) {}

/-- Sections that declare different things do not undo each other. -/
theorem withSection_withSection_of_ne (acc acc' m : Module) {id id' : SectionId} (h : id' ≠ id) :
    acc.withSection (acc'.withSection m id) id' = acc.withSection acc' id' := by
  cases id <;> cases id' <;> trivial

/-- A payload is read into its own section. -/
theorem eq_withSection_of_readPayload
    (hrun : runAt (readPayload options acc id) data pos = .ok m stop) :
    m = acc.withSection m id := by
  cases id with
  | custom =>
    obtain ⟨_, _, -, hrun⟩ := runAt_bind_eq_ok.mp hrun
    obtain ⟨_, _, -, hrun⟩ := runAt_bind_eq_ok.mp hrun
    obtain ⟨_, -, rfl⟩ := runAt_map_eq_ok.mp hrun
    rfl
  | tables | memories =>
    obtain ⟨_, _, -, hrun⟩ := runAt_bind_eq_ok.mp hrun
    obtain ⟨_, -, rfl⟩ := runAt_map_eq_ok.mp hrun
    rfl
  | _ =>
    obtain ⟨_, -, rfl⟩ := runAt_map_eq_ok.mp hrun
    rfl

/-- A section is a frame, and reading it changes its own part of the module. -/
theorem frame_of_readSection (hpos : pos ≤ data.size)
    (hrun : runAt (readSection options last acc) data pos = .ok (last', m) stop) :
    ∃ id size n, StandsAt data pos (id.byte :: size) ∧ Reads u32 size n ∧
      stop = pos + (id.byte :: size).length + n.toNat ∧ stop ≤ data.size ∧
      Follows id last last' ∧ m = acc.withSection m id := by
  obtain ⟨⟨id, n, payload⟩, hheader, hsize, hfollows, hwhole⟩ := readSection_eq_ok hpos hrun
  obtain ⟨size, hstands, hreads, hnext, -⟩ := readSectionHeader_eq_ok hpos hheader
  obtain ⟨rfl, hpayload⟩ := runAt_readWhole_eq_ok.mp hwhole
  obtain rfl : payload = pos + (id.byte :: size).length := hnext
  exact ⟨id, size, n, hstands, hreads, rfl, hsize, hfollows, eq_withSection_of_readPayload hpayload⟩

/-- The identifier and the size of a section are known from the bytes. -/
theorem frame_unique (h : StandsAt data pos (id.byte :: bs)) (hbs : Reads u32 bs n)
    (h' : StandsAt data pos (id'.byte :: bs')) (hbs' : Reads u32 bs' n') :
    id = id' ∧ (id.byte :: bs).length = (id'.byte :: bs').length ∧ n = n' := by
  have heq := runAt_readSectionHeader hbs h
  rw [runAt_readSectionHeader hbs' h'] at heq
  injection heq with hheader hlen
  injection hheader with hid hn
  exact ⟨hid.symm, Nat.add_left_cancel hlen.symm, hn.symm⟩

/-- A section whose bytes are all there is read as before. -/
theorem readSection_of_cutOff (hcut : CutOff data p) (hpos : pos ≤ p.size)
    (hrun : runAt (readSection options last acc) data pos = .ok (last', m) stop)
    (hstop : stop ≤ p.size) : runAt (readSection options last acc) p pos = .ok (last', m) stop :=
  readSection_of_common hcut.standsAt (.of_toList p) (Nat.le_trans hpos hcut.size_le)
    (by simpa using hstop) hrun

/-- If more bytes are missing than those of the header, the end comes when the payload is passed
over. -/
theorem starves_readSection (options : ReadOptions) (last : UInt8) (acc : Module) :
    Starves (readSection options last acc) := by
  intro data p pos a stop hcut hpos hrun hlt
  have hpos' : pos ≤ data.size := Nat.le_trans hpos hcut.size_le
  obtain ⟨header, hheader, hsize, -, hwhole⟩ := readSection_eq_ok hpos' hrun
  obtain ⟨bs, hbs, hreads, hnext, -⟩ := readSectionHeader_eq_ok hpos' hheader
  obtain ⟨rfl, -⟩ := runAt_readWhole_eq_ok.mp hwhole
  simp only [readSection, liftM_self]
  rw [runAt_bind]
  by_cases hle : header.payload ≤ p.size
  · have hbs' : StandsAt p pos (header.id.byte :: bs) :=
      hcut.standsAt_cut hbs (by rwa [← hnext])
    rw [runAt_readSectionHeader hreads hbs', ← hnext]
    obtain ⟨offset, next, hend⟩ := Starves.bytes header.size.toNat hcut hle
      (runAt_bytes_eq_ok.mpr ⟨hsize, rfl, rfl⟩) hlt
    simp only [skip, bind_assoc, runAt_bind, hend]
    exact ⟨offset, next, rfl⟩
  · obtain ⟨offset, next, hend⟩ := Starves.sectionHeader hcut hpos hheader (Nat.lt_of_not_le hle)
    rw [hend]
    exact ⟨offset, next, rfl⟩

/-! ## All sections -/

/-- A section that has been read stays as it is. -/
theorem withSection_of_readSections (hpos : pos ≤ data.size)
    (hrun : runAt (readSections options n last acc) data pos = .ok m stop) (hid : id.byte ≤ last)
    (x : Module) : x.withSection m id = x.withSection acc id := by
  induction n generalizing pos last acc with
  | zero =>
    injection hrun with hm
    rw [hm]
  | succ n ih =>
    obtain hend | hlt := Nat.eq_or_lt_of_le hpos
    · rw [runAt_readSections_end _ _ _ hend] at hrun
      injection hrun with hm
      rw [hm]
    · rw [runAt_readSections_of_lt hlt] at hrun
      obtain ⟨⟨last', acc'⟩, next, hsection, hrest⟩ := runAt_bind_eq_ok.mp hrun
      obtain ⟨id', _, _, -, -, -, hnext, hfollows, hacc⟩ := frame_of_readSection hpos hsection
      obtain ⟨rfl, rfl⟩ | ⟨hlast, rfl⟩ := hfollows
      · rw [ih hnext hrest hid, hacc, withSection]
      · have hne : id ≠ id' := by
          rintro rfl
          exact UInt8.lt_irrefl _ (UInt8.lt_of_le_of_lt hid hlast)
        rw [ih hnext hrest (UInt8.le_trans hid (UInt8.le_of_lt hlast)), hacc,
          withSection_withSection_of_ne _ _ _ hne]

/-- So what is read of a section is in the module at the end. -/
theorem eq_withSection_of_readSections (hpos : pos ≤ data.size) (hfollows : Follows id last last')
    (hacc : acc' = acc.withSection acc' id)
    (hrun : runAt (readSections options n last' acc') data pos = .ok m stop) :
    acc' = acc.withSection m id := by
  obtain ⟨rfl, -⟩ | ⟨-, rfl⟩ := hfollows
  · exact hacc
  · rw [withSection_of_readSections hpos hrun (UInt8.le_refl _), ← hacc]

/-- Data that are cut off behind some sections have these sections. -/
theorem runAt_readSections_frames (hcut : CutOff data p) (hframes : Frames ids frames)
    (htail : HasTail p pos frames) (hn : data.size ≤ pos + n)
    (hrun : runAt (readSections options n last acc) data pos = .ok m stop) :
    runAt (readSections options n last acc) p pos =
      .ok (ids.foldl (fun acc id => acc.withSection m id) acc) p.size := by
  have hsize := htail.size_eq
  have hpos : pos ≤ data.size := by
    have hle := hcut.size_le
    omega
  induction hframes generalizing pos n last acc with
  | nil => exact runAt_readSections_end _ _ _ (by simpa using hsize.symm)
  | @cons ids rest id size payload k hreads hk hrest ih =>
    obtain ⟨hstands, htail⟩ := htail.split
    obtain ⟨-, htail⟩ := htail.split
    have hlt : pos < p.size := Nat.lt_of_lt_of_le (by simp) hstands.le_size
    have hle := hcut.size_le
    obtain ⟨n, rfl⟩ : ∃ k, n = k + 1 := ⟨n - 1, by omega⟩
    rw [runAt_readSections_of_lt (by omega)] at hrun
    obtain ⟨⟨last', acc'⟩, next, hsection, hrun⟩ := runAt_bind_eq_ok.mp hrun
    obtain ⟨id', size', k', hstands', hreads', hstop, hnext, hfollows, hacc⟩ :=
      frame_of_readSection hpos hsection
    -- The section that is read is the frame, since all of its bytes are there.
    obtain ⟨rfl, hlen, rfl⟩ := frame_unique (hcut.standsAt_of hstands) hreads hstands' hreads'
    rw [← hlen, hk] at hstop
    subst hstop
    obtain ⟨hafter, -⟩ := bounds_of_readSection hpos hsection
    have hsize' := htail.size_eq
    have hsection' := readSection_of_cutOff hcut (Nat.le_of_lt hlt) hsection (by omega)
    rw [runAt_readSections_succ hlt hsection', List.foldl_cons,
      ← eq_withSection_of_readSections hnext hfollows hacc hrun]
    exact ih htail (by omega) hrun hsize' hnext

/-- Data that are cut off elsewhere come to their end. -/
theorem frames_or_readSections_eq_error (hcut : CutOff data p) (hpos : pos ≤ p.size)
    (hn : data.size ≤ pos + n)
    (hrun : runAt (readSections options n last acc) data pos = .ok m stop) :
    (∃ ids frames, HasTail p pos frames ∧ Frames ids frames) ∨ ∃ offset next,
      runAt (readSections options n last acc) p pos = .error (.unexpectedEof offset) next := by
  have hle := hcut.size_le
  have hend : HasTail p p.size [] := ⟨p.toList, (List.append_nil _).symm, rfl⟩
  induction n generalizing pos last acc with
  | zero =>
    obtain rfl : pos = p.size := by omega
    exact .inl ⟨[], [], hend, .nil⟩
  | succ n ih =>
    obtain rfl | hlt := Nat.eq_or_lt_of_le hpos
    · exact .inl ⟨[], [], hend, .nil⟩
    rw [runAt_readSections_of_lt (by omega)] at hrun
    obtain ⟨⟨last', acc'⟩, next, hsection, hrun⟩ := runAt_bind_eq_ok.mp hrun
    -- The cut falls behind this section, or into it.
    by_cases hnext : next ≤ p.size
    · obtain ⟨hafter, -⟩ := bounds_of_readSection (Nat.le_trans hpos hle) hsection
      have hsection' := readSection_of_cutOff hcut hpos hsection hnext
      rw [runAt_readSections_succ hlt hsection']
      refine (ih hnext (by omega) hrun).imp_left fun hrest => ?_
      obtain ⟨ids, frames, htail, hframes⟩ := hrest
      obtain ⟨id, size, k, hstands, hreads, rfl, -, -, -⟩ := frame_of_readSection hpos hsection'
      obtain ⟨payload, hk, hpayload⟩ := exists_standsAt hnext
      rw [← hk] at htail
      exact ⟨id :: ids, _, .append hstands (.append hpayload htail),
        .cons id size payload hreads hk.symm hframes⟩
    · obtain ⟨offset, next', herror⟩ :=
        starves_readSection options last acc hcut hpos hsection (Nat.lt_of_not_le hnext)
      refine .inr ⟨offset, next', ?_⟩
      rw [runAt_readSections_of_lt hlt, runAt_bind, herror]

/-! ## Whole modules -/

/-- A module is read as its header and then its sections. -/
theorem read_eq_ok (hrun : runAt (read options) data 0 = .ok m stop) :
    StandsAt data 0 header ∧
      runAt (readSections options data.size 0 {}) data header.length = .ok m stop := by
  obtain ⟨_, _, hread, -⟩ := runAt_bind_eq_ok.mp hrun
  obtain ⟨hheader, -⟩ := readHeader_eq_ok (Nat.zero_le _) hread
  rw [runAt_read hheader (Nat.le_add_left _ _)] at hrun
  exact ⟨hheader, hrun⟩

/-- The sections before the cut are read as before. -/
theorem runAt_read_of_frames (hcut : CutOff data p)
    (hrun : runAt (read options) data 0 = .ok m stop) (hp : p.toList = header ++ frames)
    (hframes : Frames ids frames) : runAt (read options) p 0 = .ok (m.only ids) p.size := by
  obtain ⟨-, hsections⟩ := read_eq_ok hrun
  have hheader : StandsAt p 0 header := ⟨[], frames, hp, rfl⟩
  rw [runAt_read hheader (Nat.le_trans hcut.size_le (Nat.le_add_left _ _))]
  exact runAt_readSections_frames hcut hframes ⟨header, hp, rfl⟩ (Nat.le_add_left _ _) hsections

/-- A cut in the header or in a section is noticed. -/
theorem runAt_read_of_not_frames (hcut : CutOff data p)
    (hrun : runAt (read options) data 0 = .ok m stop)
    (hnot : ¬ ∃ ids frames, p.toList = header ++ frames ∧ Frames ids frames) :
    ∃ offset next, runAt (read options) p 0 = .error (.unexpectedEof offset) next := by
  obtain ⟨hheader, hsections⟩ := read_eq_ok hrun
  by_cases hle : header.length ≤ p.size
  · have hheader' : StandsAt p 0 header := hcut.standsAt_cut hheader (by simpa using hle)
    rw [runAt_read hheader' (Nat.le_trans hcut.size_le (Nat.le_add_left _ _))]
    have hsplit := frames_or_readSections_eq_error hcut hle (Nat.le_add_left _ _) hsections
    refine hsplit.resolve_left ?_
    rintro ⟨ids, frames, htail, hframes⟩
    have hp : HasTail p 0 (header ++ frames) := .append hheader' (by simpa using htail)
    exact hnot ⟨ids, frames, hp.toList_eq, hframes⟩
  · obtain ⟨offset, next, herror⟩ :=
      starves_readHeader hcut (Nat.zero_le _) (reads_header data 0 hheader) (by omega)
    exact ⟨offset, next, by rw [read, liftM_self, runAt_bind, herror]⟩

/-- The exports are those of the section for them, if it is among those that were read. -/
theorem exports_foldl (m acc : Module) (ids : List SectionId) :
    (ids.foldl (fun acc id => acc.withSection m id) acc).exports = acc.exports ∨
      (ids.foldl (fun acc id => acc.withSection m id) acc).exports = m.exports := by
  induction ids generalizing acc with
  | nil => exact .inl rfl
  | cons id ids ih =>
    obtain h | h := ih (acc.withSection m id)
    · cases id <;> simp_all [withSection]
    · exact .inr h

/-- Leaving out sections does not make two exports share a name. -/
theorem nodup_exports_only (h : (m.exports.toList.map (·.name)).Nodup) (ids : List SectionId) :
    ((m.only ids).exports.toList.map (·.name)).Nodup := by
  obtain hexports | hexports := exports_foldl m {} ids
  · rw [only, hexports]
    exact .nil
  · rwa [only, hexports]

/-- What decoding asks beyond reading the sections, if the names are known to be distinct. -/
theorem decode_of_parse (hparse : parse (read options) data = .ok m)
    (hnames : (m.exports.toList.map (·.name)).Nodup) :
    decode data options = if m.funcs.size = m.codes.size then .ok m
      else .error (.functionCodeMismatch m.funcs.size m.codes.size) := by
  split
  · next hsize => exact decode_eq_ok_iff.mpr ⟨hparse, hsize, hnames⟩
  · next hsize => simp only [decode, hparse, accept, ne_eq, hsize, not_false_eq_true, if_true]

/-- A module that is cut off is reported as cut off, or has the sections before the cut. If the cut
is right behind the header or a section, the sections before it are decoded as before and the others
are empty, unless declared functions are left without their bodies. If it is anywhere else, the
decoder says that it came to the end of the bytes. -/
theorem decode_cut {bytes p : Array UInt8} (hcut : CutOff bytes p)
    (hdecode : decode bytes options = .ok m) :
    (∀ ids frames, p.toList = header ++ frames → Frames ids frames →
      decode p options =
        if (m.only ids).funcs.size = (m.only ids).codes.size then .ok (m.only ids)
        else .error (.functionCodeMismatch (m.only ids).funcs.size (m.only ids).codes.size)) ∧
    ((¬ ∃ ids frames, p.toList = header ++ frames ∧ Frames ids frames) →
      ∃ offset, decode p options = .error (.read (.unexpectedEof offset))) := by
  obtain ⟨hparse, -, hnames⟩ := decode_eq_ok_iff.mp hdecode
  obtain ⟨stop, hrun⟩ := parse_eq_ok.mp hparse
  constructor
  · intro ids frames hp hframes
    have hparse' : parse (read options) p = .ok (m.only ids) :=
      parse_eq_ok.mpr ⟨p.size, runAt_read_of_frames hcut hrun hp hframes⟩
    exact decode_of_parse hparse' (nodup_exports_only hnames ids)
  · intro hnot
    obtain ⟨offset, next, herror⟩ := runAt_read_of_not_frames hcut hrun hnot
    exact ⟨offset, by rw [decode, parse, herror]⟩

/-- The cuts are behind the size of the first section, behind the types, and behind the functions,
which then have no bodies. -/
theorem decode_cut_longAnswer :
    decode longAnswer = .ok answer ∧
    (∀ n, CutOff longAnswer (longAnswer.extract 0 n)) ∧
    (∃ offset, decode (longAnswer.extract 0 10) = .error (.read (.unexpectedEof offset))) ∧
    decode (longAnswer.extract 0 20) = .ok { types := answer.types } ∧
    decode (longAnswer.extract 0 24) = .error (.functionCodeMismatch 1 0) := by
  have hdecode : decode longAnswer = .ok answer := eq_ok_of_toOption (by decide +kernel)
  have hcut (n : Nat) : CutOff longAnswer (longAnswer.extract 0 n) := by
    refine ⟨?_, by decide⟩
    rw [Array.toList_extract, List.extract_eq_take_drop]
    exact List.take_prefix _ _
  have hone : Reads u32 [0x01] 1 := local_u32.reads_toList_iff.mpr rfl
  have htypes {ids rest} (hrest : Frames ids rest) : Frames (.custom :: .types :: ids)
      ([0x00, 0x01, 0x00, 0x01, 0x07, 0x81, 0x00, 0x60, 0x01, 0x7F, 0x01, 0x7E] ++ rest) :=
    .cons .custom [0x01] [0x00] hone rfl <|
      .cons .types [0x07] [0x81, 0x00, 0x60, 0x01, 0x7F, 0x01, 0x7E]
        (local_u32.reads_toList_iff.mpr rfl) rfl hrest
  have hfuncs : Frames [.functions] [0x03, 0x02, 0x01, 0x00] :=
    .cons .functions [0x02] [0x01, 0x00] (local_u32.reads_toList_iff.mpr rfl) rfl .nil
  refine ⟨hdecode, hcut, (decode_cut (hcut 10) hdecode).2 ?_, ?_, ?_⟩
  · rintro ⟨ids, frames, hbytes, hframes⟩
    have hheader : (longAnswer.extract 0 10).toList = header ++ [0x00, 0x01] := by decide +kernel
    rw [hheader] at hbytes
    obtain rfl := List.append_cancel_left hbytes
    exact absurd (hframes.size_le hone) (by decide)
  · exact (decode_cut (hcut 20) hdecode).1 _ _ (by decide +kernel) (htypes .nil)
  · exact (decode_cut (hcut 24) hdecode).1 _ _ (by decide +kernel) (htypes hfuncs)

end Module

end Wasm
