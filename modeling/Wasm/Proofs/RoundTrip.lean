import Wasm.Module.Decode
import Wasm.Proofs.Declarations
import Wasm.Proofs.Encode

/-!
# Wasm.Proofs.RoundTrip

Modules, written and read back.

* `Module.encode`: a header and the sections that have something in them, in the order of their
  identifiers.
* `Module.WellFormed`: what the format can hold, section by section and across sections.
* `Module.decode_encode_wellFormed`: a well-formed module is decoded from its encoding; and every
  module that is decoded, from whatever spelling, is well-formed.

A section is handled as one thing throughout: `Module.payload?` is what is written of it,
`Module.SectionFits` what is asked of its entries, `Module.withSection` takes it over from another
module. Reading a section takes over one section and leaves the others (`Module.reads_payload`,
`Module.yields_payload`), and the decoder's loop is followed section by section from there.
-/

namespace Wasm

open Reader Leb128

namespace Module

/-! ## Sections as payloads -/

/-- A vector as the payload of a section, if there is anything in it. -/
def vecPayload? (write : α → List UInt8) (items : Array α) : Option (List UInt8) :=
  if items.isEmpty then none else some (Write.vec write items.toList)

/-- What is written of a section. Nothing is written of one that declares nothing. -/
def payload? (m : Module) : SectionId → Option (List UInt8)
  | .custom => none
  | .types => vecPayload? FuncType.write m.types
  | .imports => vecPayload? Import.write m.imports
  | .functions => vecPayload? (fun type => writeUnsigned type.toNat) m.funcs
  | .tables => vecPayload? Limits.writeTable m.tables
  | .memories => vecPayload? Limits.write m.memories
  | .globals => vecPayload? GlobalDef.write m.globals
  | .exports => vecPayload? Export.write m.exports
  | .start => m.start.map fun func => writeUnsigned func.toNat
  | .elements => vecPayload? ElementSegment.write m.elements
  | .codes => vecPayload? CodeBody.write m.codes
  | .data => vecPayload? DataSegment.write m.data

/-- What the entries of a section satisfy: each of them is well-formed, and there are as many as
can be counted; no more than one of tables and of memories. -/
def SectionFits (m : Module) : SectionId → Prop
  | .custom => True
  | .types => AllFit FuncType.WellFormed m.types
  | .imports => AllFit Import.WellFormed m.imports
  | .functions => AllFit (fun _ => True) m.funcs
  | .tables => m.tables.size ≤ 1 ∧ AllFit Limits.WellFormed m.tables
  | .memories => m.memories.size ≤ 1 ∧ AllFit Limits.WellFormed m.memories
  | .globals => AllFit (fun g => g.init.WellFormed) m.globals
  | .exports => AllFit Export.WellFormed m.exports
  | .start => True
  | .elements => AllFit ElementSegment.WellFormed m.elements
  | .codes => AllFit CodeBody.WellFormed m.codes
  | .data => AllFit DataSegment.WellFormed m.data

/-- The entries of a section fit, and so does the size of its payload. -/
structure SectionWellFormed (m : Module) (id : SectionId) : Prop where
  fits : m.SectionFits id
  size : ∀ payload, m.payload? id = some payload → payload.length < UInt32.size

/-- A module with one section as another one has it. With the imports, they are counted. -/
def withSection (acc m : Module) : SectionId → Module
  | .custom => acc
  | .types => { acc with types := m.types }
  | .imports => { acc with imports := m.imports, imported := acc.imported.addAll m.imports }
  | .functions => { acc with funcs := m.funcs }
  | .tables => { acc with tables := m.tables }
  | .memories => { acc with memories := m.memories }
  | .globals => { acc with globals := m.globals }
  | .exports => { acc with exports := m.exports }
  | .start => { acc with start := m.start }
  | .elements => { acc with elements := m.elements }
  | .codes => { acc with codes := m.codes }
  | .data => { acc with data := m.data }

/-- A section is left out if it would have no entries. -/
theorem vecPayload?_eq_none_iff {write : α → List UInt8} {items : Array α} :
    vecPayload? write items = none ↔ items = #[] := by
  simp [vecPayload?]

theorem eq_vec_of_vecPayload? {write : α → List UInt8} {items : Array α}
    (h : vecPayload? write items = some payload) : payload = Write.vec write items.toList := by
  unfold vecPayload? at h
  split at h
  · contradiction
  · injection h with h
    exact h.symm

/-- The other sections stay as they are. -/
theorem payload?_withSection_of_ne (acc m : Module) {id id' : SectionId} (h : id' ≠ id) :
    (acc.withSection m id).payload? id' = acc.payload? id' := by
  cases id <;> cases id' <;> trivial

/-- A section does not touch what others declare. -/
theorem sectionFits_withSection_of_ne (acc m : Module) {id id' : SectionId} (h : id' ≠ id) :
    (acc.withSection m id).SectionFits id' = acc.SectionFits id' := by
  cases id <;> cases id' <;> trivial

/-- To take over a section in which nothing is declared changes nothing, if there was nothing. -/
theorem withSection_of_payload?_eq_none {acc m : Module} {id : SectionId}
    (hm : m.payload? id = none) (hacc : acc.payload? id = none) : acc.withSection m id = acc := by
  cases id with
  | custom => rfl
  | start =>
    simp only [payload?, Option.map_eq_none_iff] at hm hacc
    simp only [withSection, hm, ← hacc]
  | imports =>
    simp only [payload?, vecPayload?_eq_none_iff] at hm hacc
    have hcounted : acc.imported.addAll acc.imports = acc.imported := by rw [hacc]; rfl
    simp only [withSection, hm, ← hacc, hcounted]
  | _ =>
    simp only [payload?, vecPayload?_eq_none_iff] at hm hacc
    simp only [withSection, hm, ← hacc]

/-! ## Reading one payload -/

/-- A vector of at most one entry is read back. -/
theorem reads_atMostOne {r : Reader α} {write : α → List UInt8} {items : Array α} (place : Nat)
    (what : Malformation) (hr : Codec r write Fits) (hone : items.size ≤ 1)
    (hitems : AllFit Fits items) :
    Reads (atMostOne r place what) (Write.vec write items.toList) items := by
  rw [← List.append_nil (Write.vec _ _)]
  refine (hr.vec.reads items hitems).bind ?_
  rw [if_neg (Nat.not_lt.mpr hone)]
  exact .pure items

/-- A vector of more than one entry is refused. -/
theorem yields_atMostOne {r : Reader α} {write : α → List UInt8} (place : Nat)
    (what : Malformation) (hr : Codec r write Fits) :
    Yields (atMostOne r place what) fun items n =>
      (items.size ≤ 1 ∧ AllFit Fits items) ∧ (Write.vec write items.toList).length ≤ n := by
  refine hr.vec.yields.bind fun items n hn => .ite (fun _ => .fail _) fun hone => ?_
  exact .pure ⟨⟨Nat.not_lt.mp hone, hn.1⟩, hn.2⟩

/-- A section that is one vector. -/
theorem reads_vecPayload {r : Reader (Array α)} {write : α → List UInt8} {items : Array α}
    (hr : Reads r (Write.vec write items.toList) items)
    (h : vecPayload? write items = some payload) (f : Array α → Module) :
    Reads (do return f (← r)) payload (f items) := by
  rw [eq_vec_of_vecPayload? h]
  exact hr.map f

/-- What is written of a section is read back into that section. -/
theorem reads_payload {m : Module} {id : SectionId} (acc : Module) (hfits : m.SectionFits id)
    (h : m.payload? id = some payload) :
    Reads (readPayload {} acc id) payload (acc.withSection m id) := by
  cases id with
  -- Custom sections are not written.
  | custom => contradiction
  | types =>
    exact reads_vecPayload (FuncType.codec.vec.reads _ hfits) h fun types => { acc with types }
  | imports =>
    exact reads_vecPayload (Import.codec.vec.reads _ hfits) h fun imports =>
      { acc with imports, imported := acc.imported.addAll imports }
  | functions =>
    exact reads_vecPayload (codec_u32.vec.reads _ hfits) h fun funcs => { acc with funcs }
  | tables =>
    obtain ⟨hone, hfits⟩ := hfits
    exact .offset_bind fun place => reads_vecPayload
      (reads_atMostOne place _ Limits.codec_table hone hfits) h fun tables => { acc with tables }
  | memories =>
    obtain ⟨hone, hfits⟩ := hfits
    exact .offset_bind fun place => reads_vecPayload
      (reads_atMostOne place _ Limits.codec hone hfits) h fun memories => { acc with memories }
  | globals =>
    exact reads_vecPayload (GlobalDef.codec.vec.reads _ hfits) h fun globals =>
      { acc with globals }
  | exports =>
    exact reads_vecPayload (Export.codec.vec.reads _ hfits) h fun exports => { acc with exports }
  | start =>
    obtain ⟨func, hfunc, rfl⟩ := Option.map_eq_some_iff.mp h
    rw [withSection, hfunc]
    exact (reads_u32_writeUnsigned func).map fun func => { acc with start := some func }
  | elements =>
    exact reads_vecPayload (ElementSegment.codec.vec.reads _ hfits) h fun elements =>
      { acc with elements }
  | codes =>
    exact reads_vecPayload (CodeBody.codec.vec.reads _ hfits) h fun codes => { acc with codes }
  | data =>
    exact reads_vecPayload (DataSegment.codec.vec.reads _ hfits) h fun data => { acc with data }

/-- `m` is `acc` with one section changed. That section fits, and no more than `n` bytes are
written of it. -/
structure Changed (acc m : Module) (id : SectionId) (n : Nat) : Prop where
  eq : ∃ source, m = acc.withSection source id
  fits : m.SectionFits id
  size : ∀ payload, m.payload? id = some payload → payload.length ≤ n

theorem yields_vecPayload {r : Reader (Array α)} {write : α → List UInt8} {P : Array α → Prop}
    {id : SectionId} {f : Array α → Module}
    (hr : Yields r fun items n => P items ∧ (Write.vec write items.toList).length ≤ n)
    (h : ∀ items n, P items → (∀ payload, vecPayload? write items = some payload →
      payload.length ≤ n) → Changed acc (f items) id n) :
    Yields (do return f (← r)) fun m n => Changed acc m id n := by
  refine hr.bind fun items n hn => .pure (h items n hn.1 fun payload hpayload => ?_)
  rw [eq_vec_of_vecPayload? hpayload]
  exact hn.2

/-- The rest of the bytes may be passed over. -/
theorem yields_seek_size : Yields (do seek (← size)) fun _ _ => True := by
  intro data pos _ stop hpos hrun
  obtain ⟨n, _, hsize, hseek⟩ := runAt_bind_eq_ok.mp hrun
  injection hsize with hsize
  obtain ⟨hle, rfl⟩ := runAt_seek_eq_ok.mp hseek
  exact ⟨stop - pos, by omega, hle, trivial⟩

/-- Reading a payload changes the one section. -/
theorem yields_payload (acc : Module) (id : SectionId) :
    Yields (readPayload {} acc id) fun m n => Changed acc m id n := by
  cases id with
  | custom =>
    -- The payload ends where the data was cut off, so to go there uses it up.
    refine codec_name.yields.bind fun _ _ _ => ?_
    rw [← bind_assoc]
    exact yields_seek_size.bind fun _ _ _ => .pure ⟨⟨acc, rfl⟩, trivial, fun _ h => nomatch h⟩
  | types =>
    exact yields_vecPayload FuncType.codec.vec.yields fun types _ hfits hsize =>
      ⟨⟨{ types }, rfl⟩, hfits, hsize⟩
  | imports =>
    exact yields_vecPayload Import.codec.vec.yields fun imports _ hfits hsize =>
      ⟨⟨{ imports }, rfl⟩, hfits, hsize⟩
  | functions =>
    exact yields_vecPayload codec_u32.vec.yields fun funcs _ hfits hsize =>
      ⟨⟨{ funcs }, rfl⟩, hfits, hsize⟩
  | tables =>
    exact .offset_bind fun place => yields_vecPayload (yields_atMostOne place _ Limits.codec_table)
      fun tables _ hfits hsize => ⟨⟨{ tables }, rfl⟩, hfits, hsize⟩
  | memories =>
    exact .offset_bind fun place => yields_vecPayload (yields_atMostOne place _ Limits.codec)
      fun memories _ hfits hsize => ⟨⟨{ memories }, rfl⟩, hfits, hsize⟩
  | globals =>
    exact yields_vecPayload GlobalDef.codec.vec.yields fun globals _ hfits hsize =>
      ⟨⟨{ globals }, rfl⟩, hfits, hsize⟩
  | exports =>
    exact yields_vecPayload Export.codec.vec.yields fun exports _ hfits hsize =>
      ⟨⟨{ exports }, rfl⟩, hfits, hsize⟩
  | start =>
    refine yields_u32.bind fun func n hn =>
      .pure ⟨⟨{ start := some func }, rfl⟩, trivial, fun payload hpayload => ?_⟩
    injection hpayload with hpayload
    rw [← hpayload]
    exact hn
  | elements =>
    exact yields_vecPayload ElementSegment.codec.vec.yields fun elements _ hfits hsize =>
      ⟨⟨{ elements }, rfl⟩, hfits, hsize⟩
  | codes =>
    exact yields_vecPayload CodeBody.codec.vec.yields fun codes _ hfits hsize =>
      ⟨⟨{ codes }, rfl⟩, hfits, hsize⟩
  | data =>
    exact yields_vecPayload DataSegment.codec.vec.yields fun data _ hfits hsize =>
      ⟨⟨{ data }, rfl⟩, hfits, hsize⟩

/-! ## Reading one section -/

variable {options : ReadOptions} {data : Array UInt8} {acc m : Module} {id : SectionId}

/-- A payload is read with the bytes cut off at its end, and ends there. -/
theorem runAt_readWhole_eq_ok :
    runAt (readWhole options acc id stop) data pos = .ok m last ↔
      last = stop ∧ runAt (readPayload options acc id) (data.extract 0 stop) pos = .ok m stop := by
  have hwithin : runAt (within stop (readPayload options acc id)) data pos =
      runAt (readPayload options acc id) (data.extract 0 stop) pos := rfl
  simp only [readWhole, liftM_self, decoderWithin_eq]
  rw [runAt_bind_eq_ok, hwithin]
  constructor
  · intro h
    obtain ⟨m', next, hpayload, hrest⟩ := h
    rw [runAt_bind_of_ok _ (runAt_offset data next)] at hrest
    by_cases hne : next ≠ stop
    · rw [if_pos hne, runAt_fail] at hrest
      contradiction
    · rw [if_neg hne, runAt_pure] at hrest
      injection hrest with hm hlast
      subst hm hlast
      obtain rfl : next = stop := Decidable.not_not.mp hne
      exact ⟨rfl, hpayload⟩
  · intro h
    obtain ⟨rfl, hpayload⟩ := h
    refine ⟨m, last, hpayload, ?_⟩
    rw [runAt_bind_of_ok _ (runAt_offset data last), if_neg (not_not_intro rfl), runAt_pure]

/-- A payload that ends where its section ends is read. -/
theorem runAt_readWhole (hreads : Reads (readPayload options acc id) payload m)
    (hbs : StandsAt data pos payload) (hstop : stop = pos + payload.length) :
    runAt (readWhole options acc id stop) data pos = .ok m stop := by
  have hcut := hreads _ pos (hbs.extract (Nat.le_of_eq hstop.symm))
  rw [← hstop] at hcut
  exact runAt_readWhole_eq_ok.mpr ⟨rfl, hcut⟩

/-- What is read of a section ends where the section ends, and is all that it changes. -/
theorem changed_of_readWhole (hpos : pos ≤ stop) (hstop : stop ≤ data.size)
    (hrun : runAt (readWhole {} acc id stop) data pos = .ok m last) :
    last = stop ∧ Changed acc m id (stop - pos) := by
  obtain ⟨hlast, hpayload⟩ := runAt_readWhole_eq_ok.mp hrun
  have hsize : (data.extract 0 stop).size = stop := by
    rw [Array.size_extract]
    omega
  obtain ⟨n, hn, -, hchanged⟩ :=
    yields_payload acc id (data.extract 0 stop) pos m stop (hsize.symm ▸ hpos) hpayload
  have hlen : n = stop - pos := by omega
  exact ⟨hlast, hlen ▸ hchanged⟩

/-- A section header is its identifier and some spelling of its size. -/
theorem runAt_readSectionHeader {bs : List UInt8} {size : UInt32} (hsize : Reads u32 bs size)
    (hbs : StandsAt data pos (id.byte :: bs)) :
    runAt SectionHeader.read data pos =
      .ok ⟨id, size, pos + (id.byte :: bs).length⟩ (pos + (id.byte :: bs).length) := by
  have hid : u8.runAt data pos = .ok id.byte (pos + 1) := Reads.u8 id.byte data pos hbs.head
  have hnext : pos + (id.byte :: bs).length = pos + 1 + bs.length := by
    rw [List.length_cons]
    omega
  simp only [SectionHeader.read, liftM_self]
  rw [runAt_bind_of_ok _ (runAt_offset data pos), runAt_bind_of_ok _ hid, SectionId.ofByte?_byte,
    hnext]
  exact runAt_bind_of_ok _ (hsize data _ hbs.tail)

/-- A header is a known number and the size of the payload, in any spelling. -/
theorem readSectionHeader_eq_ok {header : SectionHeader} (hpos : pos ≤ data.size)
    (hrun : runAt SectionHeader.read data pos = .ok header next) :
    ∃ bs, StandsAt data pos (header.id.byte :: bs) ∧ Reads u32 bs header.size ∧
      next = pos + (header.id.byte :: bs).length ∧ header.payload = next := by
  simp only [SectionHeader.read, liftM_self] at hrun
  rw [runAt_bind_of_ok _ (runAt_offset data pos)] at hrun
  obtain ⟨b, past, hb, hrun⟩ := runAt_bind_eq_ok.mp hrun
  obtain ⟨first, hfirst, rfl, hreads⟩ := Local.u8 data pos b past hpos hb
  obtain rfl := reads_u8_iff.mp hreads
  cases hid : SectionId.ofByte? b with
  | none =>
    rw [hid] at hrun
    contradiction
  | some id =>
    rw [hid] at hrun
    have hbyte : id.byte = b := by
      simpa using List.find?_some hid
    subst hbyte
    obtain ⟨size, stop, hsize, hrun⟩ := runAt_bind_eq_ok.mp hrun
    obtain ⟨bs, hbs, rfl, hreads⟩ := local_u32 data _ size stop hfirst.le_size hsize
    rw [runAt_bind_of_ok _ (runAt_offset data _), runAt_pure] at hrun
    injection hrun with hheader hnext
    subst hheader hnext
    refine ⟨bs, hfirst.append hbs, hreads, ?_, rfl⟩
    rw [List.length_singleton, List.length_cons]
    omega

/-- A section may come after those up to `last`, and then those up to `last'` have come. Custom
sections may stand anywhere. -/
def Follows (id : SectionId) (last last' : UInt8) : Prop :=
  (id = .custom ∧ last' = last) ∨ (last < id.byte ∧ last' = id.byte)

/-- A section in its place in the order is what its payload makes of it. -/
theorem runAt_readSection {header : SectionHeader}
    (hheader : runAt SectionHeader.read data pos = .ok header header.payload)
    (hsize : header.stop ≤ data.size) (hfollows : Follows header.id last last')
    (hwhole : runAt (readWhole options acc header.id header.stop) data header.payload =
      .ok m stop) :
    runAt (readSection options last acc) data pos = .ok (last', m) stop := by
  rw [readSection, runAt_bind_of_ok _ hheader]
  refine runAt_skip_seek_eq_ok.mpr ⟨hsize, ?_⟩
  obtain ⟨hcustom, rfl⟩ | ⟨hlast, rfl⟩ := hfollows
  · rw [if_pos hcustom, runAt_bind_of_ok _ hwhole, runAt_pure]
  · have hcustom : header.id ≠ .custom := by
      intro hid
      rw [hid] at hlast
      exact absurd hlast (UInt8.not_lt.mpr UInt8.zero_le)
    rw [if_neg hcustom, if_neg (UInt8.not_le.mpr hlast), runAt_bind_of_ok _ hwhole, runAt_pure]

/-- A section is a header, and then something that is skipped, refused or read. -/
theorem readSection_eq_ok (hpos : pos ≤ data.size)
    (hrun : runAt (readSection options last acc) data pos = .ok p stop) :
    ∃ header, runAt SectionHeader.read data pos = .ok header header.payload ∧
      header.stop ≤ data.size ∧ Follows header.id last p.1 ∧
      runAt (readWhole options acc header.id header.stop) data header.payload = .ok p.2 stop := by
  obtain ⟨header, next, hheader, hrun⟩ := runAt_bind_eq_ok.mp hrun
  obtain ⟨bs, -, -, -, rfl⟩ := readSectionHeader_eq_ok hpos hheader
  obtain ⟨hsize, hrun⟩ := runAt_skip_seek_eq_ok.mp hrun
  refine ⟨header, hheader, hsize, ?_⟩
  by_cases hcustom : header.id = .custom
  · rw [if_pos hcustom] at hrun
    obtain ⟨m, hm, rfl⟩ := runAt_map_eq_ok.mp hrun
    exact ⟨.inl ⟨hcustom, rfl⟩, hm⟩
  · rw [if_neg hcustom] at hrun
    by_cases horder : header.id.byte ≤ last
    · rw [if_pos horder] at hrun
      contradiction
    · rw [if_neg horder] at hrun
      obtain ⟨m, hm, rfl⟩ := runAt_map_eq_ok.mp hrun
      exact ⟨.inr ⟨UInt8.not_le.mp horder, rfl⟩, hm⟩

/-- A section that was written is read back. -/
theorem reads_section (acc : Module) (hlast : last < id.byte) (hwf : m.SectionWellFormed id)
    (h : m.payload? id = some payload) :
    Reads (readSection {} last acc) (id.byte :: Write.lengthPrefixed payload)
      (id.byte, acc.withSection m id) := by
  intro data pos hbs
  have hsize : payload.length < UInt32.size := hwf.size payload h
  have hsplit : id.byte :: Write.lengthPrefixed payload =
      id.byte :: writeUnsigned payload.length ++ payload := rfl
  rw [hsplit] at hbs ⊢
  have hheader := runAt_readSectionHeader (reads_u32_ofNat hsize) hbs.left
  have hwhole := runAt_readWhole (reads_payload acc hwf.fits h) hbs.right rfl
  have hstop : pos + (id.byte :: writeUnsigned payload.length).length +
      (UInt32.ofNat payload.length).toNat =
      pos + (id.byte :: writeUnsigned payload.length).length + payload.length := by
    rw [UInt32.toNat_ofNat_of_lt' hsize]
  rw [← hstop] at hwhole
  rw [List.length_append, ← Nat.add_assoc, ← hstop]
  exact runAt_readSection hheader (Nat.le_trans (Nat.le_of_eq hstop) hbs.right.le_size)
    (.inr ⟨hlast, rfl⟩) hwhole

/-- Reading a section changes one section that may follow, to something of a size that can be
said. -/
theorem yields_section (last : UInt8) (acc : Module) :
    Yields (readSection {} last acc) fun p _ =>
      ∃ id n, n < UInt32.size ∧ Follows id last p.1 ∧ Changed acc p.2 id n := by
  intro data pos p stop hpos hrun
  obtain ⟨header, hheader, hsize, hfollows, hwhole⟩ := readSection_eq_ok hpos hrun
  obtain ⟨bs, -, -, hle, -⟩ := readSectionHeader_eq_ok hpos hheader
  obtain ⟨rfl, hchanged⟩ := changed_of_readWhole (Nat.le_add_right _ _) hsize hwhole
  have hlen : header.payload + header.size.toNat - header.payload < UInt32.size := by
    rw [Nat.add_sub_cancel_left]
    exact header.size.toNat_lt
  have hstop : pos ≤ header.stop := by
    rw [SectionHeader.stop]
    omega
  exact ⟨header.stop - pos, (Nat.add_sub_cancel' hstop).symm, hsize, header.id, _, hlen, hfollows,
    hchanged⟩

/-- The sections that are not read keep what they had. -/
theorem Changed.sectionWellFormed (h : Changed acc m id n) (hn : n < UInt32.size)
    (hacc : ∀ id, acc.SectionWellFormed id) (id' : SectionId) : m.SectionWellFormed id' := by
  by_cases hid : id' = id
  · rw [hid]
    exact ⟨h.fits, fun payload hp => Nat.lt_of_le_of_lt (h.size payload hp) hn⟩
  · obtain ⟨source, rfl⟩ := h.eq
    refine ⟨?_, fun payload hp => (hacc id').size payload ?_⟩
    · rw [sectionFits_withSection_of_ne acc source hid]
      exact (hacc id').fits
    · rwa [payload?_withSection_of_ne acc source hid] at hp

/-- The imports have been counted, and none of them as long as their section may still come. -/
structure Tallied (last : UInt8) (m : Module) : Prop where
  eq : m.imported = ImportCounts.addAll {} m.imports
  zero : last < SectionId.imports.byte → m.imported = {}

/-- Sections come in order, so the imports are counted once. -/
theorem Changed.tallied (h : Changed acc m id n) (hfollows : Follows id last last')
    (hacc : acc.Tallied last) : m.Tallied last' := by
  obtain ⟨source, rfl⟩ := h.eq
  have hkept (hlast : last' < SectionId.imports.byte) : last < SectionId.imports.byte := by
    obtain ⟨-, rfl⟩ | ⟨hid, rfl⟩ := hfollows
    · exact hlast
    · exact UInt8.lt_trans hid hlast
  cases id with
  | imports =>
    obtain ⟨hcustom, -⟩ | ⟨hid, rfl⟩ := hfollows
    · contradiction
    · refine ⟨?_, fun hlt => absurd hlt (UInt8.lt_irrefl _)⟩
      rw [withSection, hacc.zero hid]
  | _ => exact ⟨hacc.eq, fun hlast => hacc.zero (hkept hlast)⟩

/-! ## Reading all sections -/

/-- The sections a module is written in, in the order of their identifiers. -/
def sectionIds : List SectionId :=
  [.types, .imports, .functions, .tables, .memories, .globals, .exports, .start, .elements, .codes,
    .data]

/-- A section with its identifier and its size, or nothing. -/
def writeSection (m : Module) (id : SectionId) : List UInt8 :=
  match m.payload? id with
  | none => []
  | some payload => id.byte :: Write.lengthPrefixed payload

/-- The loop over the sections ends with the bytes. -/
theorem runAt_readSections_end (n : Nat) (last : UInt8) (acc : Module) (h : pos = data.size) :
    runAt (readSections options n last acc) data pos = .ok acc data.size := by
  cases n with
  | zero => rw [readSections, finished_eq, pure_bind, runAt_pure, h]
  | succ n =>
    have hend : atEnd.runAt data pos = .ok true pos := by
      simp only [runAt, atEnd, h, Nat.le_refl, decide_true]
    rw [readSections, liftM_self, runAt_bind_of_ok _ hend, if_pos rfl, runAt_pure, h]

/-- Before the end of the bytes, the loop over the sections makes a turn. -/
theorem runAt_readSections_of_lt (hlt : pos < data.size) :
    runAt (readSections options (n + 1) last acc) data pos =
      runAt (readSection options last acc >>= fun p => readSections options n p.1 p.2)
        data pos := by
  have hend : atEnd.runAt data pos = .ok false pos := by
    simp only [runAt, atEnd, Nat.not_le.mpr hlt, decide_false]
  rw [readSections, liftM_self, runAt_bind_of_ok _ hend, if_neg Bool.false_ne_true]

theorem runAt_readSections_succ (hlt : pos < data.size)
    (h : runAt (readSection options last acc) data pos = .ok (last', m) next) :
    runAt (readSections options (n + 1) last acc) data pos =
      runAt (readSections options n last' m) data next := by
  rw [runAt_readSections_of_lt hlt, runAt_bind_of_ok _ h]

/-- Sections that were written in ascending order are read into a module that has nothing in them,
one after the other up to the end of the bytes. -/
theorem runAt_readSections {ids : List SectionId} (hwf : ∀ id, m.SectionWellFormed id)
    (hids : ids.Pairwise (·.byte < ·.byte)) (hlast : ∀ id ∈ ids, last < id.byte)
    (hacc : ∀ id ∈ ids, acc.payload? id = none)
    (hbs : StandsAt data pos (ids.flatMap m.writeSection))
    (hend : pos + (ids.flatMap m.writeSection).length = data.size)
    (hn : (ids.flatMap m.writeSection).length ≤ n) :
    runAt (readSections {} n last acc) data pos =
      .ok (ids.foldl (fun acc id => acc.withSection m id) acc) data.size := by
  -- The sections that are left bound the number of turns by their bytes, since none is without any.
  induction ids generalizing pos n last acc with
  | nil => exact runAt_readSections_end n last acc hend
  | cons id ids ih =>
    obtain ⟨hid, hids⟩ := List.pairwise_cons.mp hids
    obtain ⟨hlast, -⟩ := List.forall_mem_cons.mp hlast
    obtain ⟨hnone, hacc⟩ := List.forall_mem_cons.mp hacc
    rw [List.flatMap_cons] at hbs hend hn
    rw [List.foldl_cons]
    cases hp : m.payload? id with
    | none =>
      -- Nothing was written, and nothing is there to be overwritten.
      have hnil : m.writeSection id = [] := by rw [writeSection, hp]
      rw [hnil, List.nil_append] at hbs hend hn
      rw [withSection_of_payload?_eq_none hp hnone]
      exact ih hids (fun id' h => UInt8.lt_trans hlast (hid id' h)) hacc hbs hend hn
    | some payload =>
      have hcons : m.writeSection id = id.byte :: Write.lengthPrefixed payload := by
        rw [writeSection, hp]
      rw [hcons] at hbs hend hn
      rw [List.length_append, List.length_cons] at hend hn
      obtain ⟨k, rfl⟩ : ∃ k, n = k + 1 := ⟨n - 1, by omega⟩
      have hread := reads_section acc hlast (hwf id) hp data pos hbs.left
      rw [runAt_readSections_succ (by omega) hread]
      refine ih hids hid ?_ hbs.right (by rw [List.length_cons]; omega) (by omega)
      intro id' hid'
      have hne : id' ≠ id := fun heq => UInt8.lt_irrefl _ (heq ▸ hid id' hid')
      rw [payload?_withSection_of_ne acc m hne]
      exact hacc id' hid'

/-- Whatever sections are read, each is left well-formed, and the imports are counted. -/
theorem yields_sections (n : Nat) (last : UInt8) (hacc : ∀ id, acc.SectionWellFormed id)
    (htallied : acc.Tallied last) :
    Yields (readSections {} n last acc) fun m _ => (∀ id, m.SectionWellFormed id) ∧ m.Counted := by
  have hdone : (∀ id, acc.SectionWellFormed id) ∧ acc.Counted :=
    ⟨hacc, counted_iff.mpr htallied.eq⟩
  induction n generalizing last acc with
  | zero => exact .pure hdone
  | succ n ih =>
    have hend : Yields atEnd fun _ _ => True := by
      intro data pos a stop hpos hrun
      injection hrun with _ hstop
      exact ⟨0, hstop.symm, hstop ▸ hpos, trivial⟩
    refine hend.bind fun b _ _ => .ite (fun _ => .pure hdone) fun _ => ?_
    refine (yields_section last acc).bind fun p _ hp => ?_
    obtain ⟨id, k, hk, hfollows, hchanged⟩ := hp
    have hwf := hchanged.sectionWellFormed hk hacc
    have htallied' := hchanged.tallied hfollows htallied
    exact ih p.1 hwf htallied' ⟨hwf, counted_iff.mpr htallied'.eq⟩

/-! ## Modules -/

/-- The bytes that begin every module. -/
def header : List UInt8 :=
  leBytes 4 magic.toNat ++ leBytes 4 version.toNat

/-- A module in its canonical form: the header, and in ascending order the sections that declare
something. -/
def encode (m : Module) : Array UInt8 :=
  (header ++ sectionIds.flatMap m.writeSection).toArray

/-- What makes a module well-formed. Section by section, its entries are well-formed, and every
count, length and size can be said with 32 bits (`Module.SectionWellFormed`); and across sections
there is a body for each declared function, and no two exports share a name. The counters say how
many functions, tables, memories and globals are imported. -/
structure WellFormed (m : Module) : Prop where
  sections : ∀ id, m.SectionWellFormed id
  bodies : m.funcs.size = m.codes.size
  exportNames : (m.exports.toList.map (·.name)).Nodup
  importCounts : m.Counted

/-- The header is read from its eight bytes alone. -/
theorem reads_header : Reads readHeader header () := by
  have hmagic : Reads u32le (leBytes 4 magic.toNat) magic :=
    (Reads.littleEndian (length_leBytes 4 _)).map UInt32.ofNat
  have hversion : Reads u32le (leBytes 4 version.toNat) version :=
    (Reads.littleEndian (length_leBytes 4 _)).map UInt32.ofNat
  rw [readHeader, header, ← List.append_nil (leBytes 4 version.toNat)]
  refine hmagic.bind ?_
  rw [if_neg (not_not_intro rfl)]
  refine hversion.bind ?_
  rw [if_neg (not_not_intro rfl)]
  exact .pure ()

theorem yields_header : Yields readHeader fun _ _ => True := by
  have hu32 : Yields u32le fun _ _ => True := local_u32le.yields.mono fun _ _ _ => trivial
  refine hu32.bind fun _ _ _ => .ite (fun _ => .fail _) fun _ => ?_
  exact hu32.bind fun _ _ _ => .ite (fun _ => .fail _) fun _ => .pure trivial

/-- A module that declares nothing has nothing wrong in its sections. -/
theorem sectionWellFormed_empty (id : SectionId) : SectionWellFormed {} id := by
  cases id with
  | custom | start => exact ⟨trivial, fun _ h => nomatch h⟩
  | tables | memories => exact ⟨⟨Nat.zero_le 1, .empty _⟩, fun _ h => nomatch h⟩
  | _ => exact ⟨.empty _, fun _ h => nomatch h⟩

/-- Taking over all sections gives the module that they are from. -/
theorem foldl_withSection (h : m.Counted) :
    sectionIds.foldl (fun acc id => acc.withSection m id) {} = m := by
  simp only [sectionIds, List.foldl_cons, List.foldl_nil, withSection]
  rw [show ImportCounts.addAll {} #[] = {} from rfl, ← counted_iff.mp h]

/-- The sections that were written are read back, in their order. -/
theorem parse_read_encode (hwf : ∀ id, m.SectionWellFormed id) (hcounted : m.Counted) :
    parse (read {}) m.encode = .ok m := by
  have hbs : StandsAt m.encode 0 (header ++ sectionIds.flatMap m.writeSection) := .of_toList _
  have hsize : header.length + (sectionIds.flatMap m.writeSection).length = m.encode.size :=
    List.length_append.symm
  have hheader := reads_header m.encode 0 hbs.left
  have hcount : remaining.runAt m.encode (0 + header.length) =
      .ok (m.encode.size - (0 + header.length)) (0 + header.length) := rfl
  have hsections (n : Nat) (hn : (sectionIds.flatMap m.writeSection).length ≤ n) :
      runAt (readSections {} n 0 {}) m.encode (0 + header.length) =
        .ok (sectionIds.foldl (fun acc id => acc.withSection m id) {}) m.encode.size :=
    runAt_readSections hwf (by decide) (by decide) (fun id _ => by cases id <;> rfl) hbs.right
      (by omega) hn
  have hread : runAt (read {}) m.encode 0 = .ok m m.encode.size := by
    simp only [read, liftM_self]
    rw [runAt_bind_of_ok _ hheader, runAt_bind_of_ok _ hcount, hsections _ (by omega),
      foldl_withSection hcounted]
  rw [parse, hread]

/-- Whatever was read is well-formed, and its counters are right. -/
theorem wellFormed_of_parse (h : parse (read {}) data = .ok m) :
    (∀ id, m.SectionWellFormed id) ∧ m.Counted := by
  have hyields : Yields (read {}) fun m _ => (∀ id, m.SectionWellFormed id) ∧ m.Counted := by
    refine yields_header.bind fun _ _ _ => ?_
    intro data pos m stop hpos hrun
    obtain ⟨n, next, hsize, hrun⟩ := runAt_bind_eq_ok.mp hrun
    injection hsize with _ hnext
    subst hnext
    exact yields_sections n 0 sectionWellFormed_empty ⟨rfl, fun _ => rfl⟩ data pos m stop hpos hrun
  unfold parse at h
  cases hrun : runAt (read {}) data 0 with
  | error e stop =>
    rw [hrun] at h
    contradiction
  | ok a stop =>
    rw [hrun] at h
    injection h with h
    subst h
    obtain ⟨_, -, -, hwf⟩ := hyields data 0 a stop (Nat.zero_le _) hrun
    exact hwf

/-- There is no first repeated name if there is none at all. -/
theorem firstRepeated?_eq_none_iff [DecidableEq α] {seen xs : List α} :
    firstRepeated? seen xs = none ↔ xs.Nodup ∧ ∀ x ∈ xs, x ∉ seen := by
  induction xs generalizing seen with
  | nil => simp [firstRepeated?]
  | cons x xs ih =>
    rw [firstRepeated?, List.nodup_cons, List.forall_mem_cons]
    by_cases hx : x ∈ seen
    · simp [hx]
    · rw [if_neg hx, ih]
      constructor
      · intro h
        obtain ⟨hnodup, hseen⟩ := h
        have hnot : x ∉ xs := fun hmem => hseen x hmem List.mem_cons_self
        exact ⟨⟨hnot, hnodup⟩, hx, fun y hy hmem => hseen y hy (List.mem_cons_of_mem x hmem)⟩
      · intro h
        obtain ⟨⟨hnot, hnodup⟩, -, hseen⟩ := h
        refine ⟨hnodup, fun y hy hmem => ?_⟩
        cases hmem with
        | head => exact hnot hy
        | tail _ hmem => exact hseen y hy hmem

/-- What is asked of a module beyond its sections. -/
theorem accept_eq_ok_iff {m m' : Module} :
    m'.accept = .ok m ↔ m' = m ∧ m.funcs.size = m.codes.size ∧
      (m.exports.toList.map (·.name)).Nodup := by
  have hnames (names : List String) : firstRepeated? [] names = none ↔ names.Nodup := by
    rw [firstRepeated?_eq_none_iff]
    simp
  unfold accept
  constructor
  · intro h
    split at h
    · contradiction
    · next hsize =>
      split at h
      · contradiction
      · next hnone =>
        injection h with h
        subst h
        exact ⟨rfl, Decidable.not_not.mp hsize, (hnames _).mp hnone⟩
  · intro h
    obtain ⟨rfl, hsize, hnodup⟩ := h
    rw [if_neg (not_not_intro hsize), (hnames _).mpr hnodup]

/-- Decoding is reading and two checks on what was read. -/
theorem decode_eq_ok_iff {options : ReadOptions} :
    decode data options = .ok m ↔ parse (read options) data = .ok m ∧
      m.funcs.size = m.codes.size ∧ (m.exports.toList.map (·.name)).Nodup := by
  unfold decode
  cases hparse : parse (read options) data with
  | error e => simp
  | ok m' => rw [accept_eq_ok_iff, Except.ok.injEq]

/-- Decoding undoes encoding. A well-formed module is decoded from its encoding; and whatever
bytes a module was decoded from, it is well-formed, so that it is decoded from its encoding too. -/
theorem decode_encode_wellFormed (m : Module) :
    (m.WellFormed → decode m.encode = .ok m) ∧
      ∀ bytes, decode bytes = .ok m → m.WellFormed ∧ decode m.encode = .ok m := by
  have hencode : m.WellFormed → decode m.encode = .ok m := fun h =>
    decode_eq_ok_iff.mpr ⟨parse_read_encode h.sections h.importCounts, h.bodies, h.exportNames⟩
  refine ⟨hencode, fun bytes h => ?_⟩
  obtain ⟨hparse, hbodies, hnames⟩ := decode_eq_ok_iff.mp h
  obtain ⟨hsections, hcounted⟩ := wellFormed_of_parse hparse
  have hwf : m.WellFormed := ⟨hsections, hbodies, hnames, hcounted⟩
  exact ⟨hwf, hencode hwf⟩

theorem eq_ok_of_toOption {x : Except ε α} (h : x.toOption = some a) : x = .ok a := by
  cases x with
  | error e => contradiction
  | ok b =>
    injection h with h
    rw [h]

/-- A module with one exported function; its global keeps a longer spelling of 42 than the
shortest. -/
def answer : Module where
  types := #[⟨[.i32], [.i64]⟩]
  funcs := #[0]
  memories := #[⟨1, some 2⟩]
  globals := #[⟨⟨.i32, false⟩, ⟨.i32Const, #[0xAA, 0x00]⟩⟩]
  exports := #[⟨"f", .func, 0⟩]
  codes := #[⟨#[⟨2, .i64⟩], #[0x42, 0x2A, 0x0B]⟩]

/-- `answer` with a custom section, with an empty table section, and with its one type counted in
two bytes. -/
def longAnswer : Array UInt8 :=
  #[0x00, 0x61, 0x73, 0x6D, 0x01, 0x00, 0x00, 0x00,
    0x00, 0x01, 0x00,
    0x01, 0x07, 0x81, 0x00, 0x60, 0x01, 0x7F, 0x01, 0x7E,
    0x03, 0x02, 0x01, 0x00,
    0x04, 0x01, 0x00,
    0x05, 0x04, 0x01, 0x01, 0x01, 0x02,
    0x06, 0x07, 0x01, 0x7F, 0x00, 0x41, 0xAA, 0x00, 0x0B,
    0x07, 0x05, 0x01, 0x01, 0x66, 0x00, 0x00,
    0x0A, 0x08, 0x01, 0x06, 0x01, 0x02, 0x7E, 0x42, 0x2A, 0x0B]

theorem decode_encode_wellFormed_longAnswer :
    decode longAnswer = .ok answer ∧ answer.WellFormed ∧ decode answer.encode = .ok answer := by
  have h : decode longAnswer = .ok answer := eq_ok_of_toOption (by decide +kernel)
  have hwf : answer.WellFormed := ((decode_encode_wellFormed answer).2 longAnswer h).1
  exact ⟨h, hwf, (decode_encode_wellFormed answer).1 hwf⟩

end Module

end Wasm
