import Wasm.Proofs.Relocation

/-!
# Wasm.Proofs.CustomSections

Custom sections say nothing to the decoder: to insert one between two sections changes neither
whether the bytes are a module nor which one.

* `Module.ReadTo`: how far the decoder has come when it stands between two sections, and what it
  has read up to there. `Module.SectionBoundary` is where it can stand.
* `CustomSection c`: the bytes `c` are one custom section.
* `Module.decode_insertAt_iff`: inserting a custom section at a boundary.

The bytes before the boundary are read as before, since a section is read within its own bytes
(`Module.ReadTo.of_common`). The bytes behind it are read as before although they stand elsewhere
(`Module.moves_sections`). In between the decoder stands as it stood before the custom section.
-/

namespace Wasm

open Reader Leb128

variable {data data' : Array UInt8} {pre bs : List UInt8}

/-! ## Bytes with the same beginning -/

/-- What stands in the beginning of the data stands in all data that begin so. -/
theorem StandsAt.of_common (hpre : StandsAt data 0 pre) (hpre' : StandsAt data' 0 pre)
    (hbs : StandsAt data pos bs) (hle : pos + bs.length ≤ pre.length) : StandsAt data' pos bs := by
  obtain ⟨before, after, hdata, rfl⟩ := hbs
  have hboth : StandsAt data 0 (before ++ bs) := by
    refine ⟨[], after, ?_, rfl⟩
    rw [hdata, List.nil_append, List.append_assoc]
  rw [← List.length_append] at hle
  obtain ⟨rest, rfl⟩ := hboth.eq_append_of_length_le hpre hle
  have h := hpre'.left.right
  rwa [Nat.zero_add] at h

theorem extract_eq_of_common (hpre : StandsAt data 0 pre) (hpre' : StandsAt data' 0 pre)
    (hstop : stop ≤ pre.length) : data.extract 0 stop = data'.extract 0 stop := by
  have hsize : 0 + stop ≤ data.size := by
    have hle := hpre.le_size
    omega
  obtain ⟨bs, rfl, hbs⟩ := exists_standsAt hsize
  have hbs' : StandsAt data' 0 bs := hpre.of_common hpre' hbs (by omega)
  have heq := hbs.extract_eq
  have heq' := hbs'.extract_eq
  rw [Nat.zero_add] at heq heq'
  rw [heq, heq']

/-- The data with bytes put in at a position. -/
def insertAt (data : Array UInt8) (pos : Nat) (bs : List UInt8) : Array UInt8 :=
  (data.toList.take pos ++ (bs ++ data.toList.drop pos)).toArray

section

variable (hpos : pos ≤ data.size)

include hpos

theorem length_take_toList : (data.toList.take pos).length = pos := by
  rw [List.length_take, Array.length_toList]
  exact Nat.min_eq_left hpos

theorem standsAt_insertAt (bs : List UInt8) : StandsAt (insertAt data pos bs) pos bs :=
  ⟨data.toList.take pos, data.toList.drop pos, rfl, length_take_toList hpos⟩

theorem hasTail_drop : HasTail data pos (data.toList.drop pos) :=
  ⟨data.toList.take pos, (List.take_append_drop pos _).symm, length_take_toList hpos⟩

theorem hasTail_insertAt (bs : List UInt8) :
    HasTail (insertAt data pos bs) (pos + bs.length) (data.toList.drop pos) := by
  refine ⟨data.toList.take pos ++ bs, ?_, ?_⟩
  · rw [List.append_assoc]
    rfl
  · rw [List.length_append, length_take_toList hpos]

end

/-! ## Custom sections -/

/-- A custom section: its identifier, its size in any spelling, a name in UTF-8 after its length in
any spelling, and then any bytes. -/
inductive CustomSection : List UInt8 → Prop
  | mk (size len : List UInt8) {n k : UInt32} (name : String) (rest : List UInt8)
      (hsize : Reads u32 size n)
      (hn : n.toNat = (len ++ (name.toUTF8.data.toList ++ rest)).length)
      (hlen : Reads u32 len k) (hk : k.toNat = name.toUTF8.size) :
      CustomSection
        (SectionId.custom.byte :: (size ++ (len ++ (name.toUTF8.data.toList ++ rest))))

/-- A name after any spelling of its length. -/
theorem reads_name {len : List UInt8} {k : UInt32} {s : String} (hlen : Reads u32 len k)
    (hk : k.toNat = s.toUTF8.size) : Reads Reader.name (len ++ s.toUTF8.data.toList) s := by
  have htext : Reads lengthPrefixed (len ++ s.toUTF8.data.toList) s.toUTF8.data := by
    refine hlen.bind ?_
    rw [hk]
    exact Reads.bytes s.toUTF8.data.toList
  refine .offset_bind fun start => ?_
  rw [← List.append_nil (len ++ _)]
  refine htext.bind ?_
  rw [fromUTF8?_toUTF8]
  exact .pure s

namespace Module

variable {options : ReadOptions} {acc m : Module} {id : SectionId}

/-- The name is read, and the rest of the payload passed over. -/
theorem runAt_customPayload (options : ReadOptions) (acc : Module) {name : List UInt8} {s : String}
    (hname : Reads Reader.name name s) (hbs : StandsAt data pos (name ++ rest))
    (hstop : stop = pos + (name ++ rest).length) :
    runAt (readWhole options acc .custom stop) data pos = .ok acc stop := by
  have hcut : StandsAt (data.extract 0 stop) pos (name ++ rest) :=
    hbs.extract (Nat.le_of_eq hstop.symm)
  have hsize : (data.extract 0 stop).size = stop := by
    have hle := hbs.le_size
    rw [Array.size_extract]
    omega
  have hseek : (seek (data.extract 0 stop).size).runAt (data.extract 0 stop)
      (pos + name.length) = .ok () stop :=
    runAt_seek_eq_ok.mpr ⟨Nat.le_refl _, hsize.symm⟩
  have hcount : size.runAt (data.extract 0 stop) (pos + name.length) =
      .ok (data.extract 0 stop).size (pos + name.length) := rfl
  refine runAt_readWhole_eq_ok.mpr ⟨rfl, ?_⟩
  simp only [readPayload, liftM_self]
  rw [runAt_bind_of_ok _ (hname _ pos hcut.left), runAt_bind_of_ok _ hcount,
    runAt_bind_of_ok _ hseek, runAt_pure]

/-- Behind a custom section the decoder stands as it stood before. -/
theorem runAt_customSection {c : List UInt8} (hc : CustomSection c) (hbs : StandsAt data pos c)
    (last : UInt8) : runAt (readSection options last acc) data pos = .ok (last, acc)
      (pos + c.length) := by
  cases hc with
  | mk size len name rest hsize hn hlen hk =>
    rw [← List.append_assoc len, ← List.cons_append] at hbs
    rw [← List.append_assoc len] at hn ⊢
    rw [← List.cons_append, List.length_append, ← Nat.add_assoc, ← hn]
    have hwhole := runAt_customPayload options acc (reads_name hlen hk) hbs.right (congrArg _ hn)
    have hheader := runAt_readSectionHeader hsize hbs.left
    refine runAt_readSection hheader ?_ (.inl ⟨rfl, rfl⟩) hwhole
    have hle := hbs.right.le_size
    rw [← hn] at hle
    exact hle

/-! ## Section boundaries -/

/-- The decoder comes to `pos` between two sections: behind the header, or behind a section that it
can read. By then it has read `m` from sections up to `last`. -/
inductive ReadTo (options : ReadOptions) (data : Array UInt8) : UInt8 → Module → Nat → Prop
  | start (hheader : StandsAt data 0 header) : ReadTo options data 0 {} header.length
  | next {m m' : Module} (hprev : ReadTo options data last m pos) (hlt : pos < data.size)
      (hrun : runAt (readSection options last m) data pos = .ok (last', m') stop) :
      ReadTo options data last' m' stop

/-- A place between two sections to which the decoder comes, or the end behind the last one. -/
def SectionBoundary (options : ReadOptions) (data : Array UInt8) (pos : Nat) : Prop :=
  ∃ last m, ReadTo options data last m pos

/-- A section takes up some bytes. -/
theorem bounds_of_readSection (hpos : pos ≤ data.size)
    (hrun : runAt (readSection options last acc) data pos = .ok p stop) :
    pos < stop ∧ stop ≤ data.size := by
  obtain ⟨header, hheader, hsize, -, hwhole⟩ := readSection_eq_ok hpos hrun
  obtain ⟨bs, -, -, hnext, -⟩ := readSectionHeader_eq_ok hpos hheader
  obtain ⟨rfl, -⟩ := runAt_readWhole_eq_ok.mp hwhole
  rw [List.length_cons] at hnext
  refine ⟨?_, hsize⟩
  rw [SectionHeader.stop]
  omega

/-- A section is read within its own bytes. -/
theorem readSection_of_common (hpre : StandsAt data 0 pre) (hpre' : StandsAt data' 0 pre)
    (hpos : pos ≤ data.size) (hstop : stop ≤ pre.length)
    (hrun : runAt (readSection options last acc) data pos = .ok (last', m) stop) :
    runAt (readSection options last acc) data' pos = .ok (last', m) stop := by
  obtain ⟨⟨id, size, payload⟩, hheader, hsize, hfollows, hwhole⟩ := readSection_eq_ok hpos hrun
  obtain ⟨bs, hbs, hreads, hnext, -⟩ := readSectionHeader_eq_ok hpos hheader
  obtain ⟨rfl, hpayload⟩ := runAt_readWhole_eq_ok.mp hwhole
  obtain rfl : payload = pos + (id.byte :: bs).length := hnext
  replace hstop : pos + (id.byte :: bs).length + size.toNat ≤ pre.length := hstop
  have hbs' : StandsAt data' pos (id.byte :: bs) := hpre.of_common hpre' hbs (by omega)
  have hsize' : pos + (id.byte :: bs).length + size.toNat ≤ data'.size := by
    have hle := hpre'.le_size
    omega
  have hcommon := extract_eq_of_common hpre hpre' hstop
  exact runAt_readSection (runAt_readSectionHeader hreads hbs') hsize' hfollows
    (runAt_readWhole_eq_ok.mpr ⟨rfl, hcommon ▸ hpayload⟩)

theorem ReadTo.le_size (h : ReadTo options data last m pos) : pos ≤ data.size := by
  cases h with
  | start hheader => simpa using hheader.le_size
  | next hprev hlt hrun => exact (bounds_of_readSection (Nat.le_of_lt hlt) hrun).2

/-- How the decoder comes to a position is a matter of the bytes before it. -/
theorem ReadTo.of_common (hpre : StandsAt data 0 pre) (hpre' : StandsAt data' 0 pre)
    (h : ReadTo options data last m pos) (hpos : pos ≤ pre.length) :
    ReadTo options data' last m pos := by
  induction h with
  | start hheader => exact .start (hpre.of_common hpre' hheader (by omega))
  | next hprev hlt hrun ih =>
    obtain ⟨hlt', -⟩ := bounds_of_readSection (Nat.le_of_lt hlt) hrun
    have hsize := hpre'.le_size
    exact .next (ih (by omega)) (by omega)
      (readSection_of_common hpre hpre' (Nat.le_of_lt hlt) hpos hrun)

/-- The loop over the sections does not run out of turns, however many it has beyond the number of
bytes. -/
theorem runAt_readSections_of_le (hpos : pos ≤ data.size) (hn : data.size ≤ pos + n)
    (hn' : data.size ≤ pos + n') :
    runAt (readSections options n last acc) data pos =
      runAt (readSections options n' last acc) data pos := by
  induction n generalizing pos n' last acc with
  | zero =>
    have hend : pos = data.size := by omega
    rw [runAt_readSections_end _ _ _ hend, runAt_readSections_end _ _ _ hend]
  | succ n ih =>
    obtain hend | hlt := Nat.eq_or_lt_of_le hpos
    · rw [runAt_readSections_end _ _ _ hend, runAt_readSections_end _ _ _ hend]
    · obtain ⟨k, rfl⟩ : ∃ k, n' = k + 1 := ⟨n' - 1, by omega⟩
      rw [runAt_readSections_of_lt hlt, runAt_readSections_of_lt hlt, runAt_bind, runAt_bind]
      cases hrun : runAt (readSection options last acc) data pos with
      | ok p next =>
        obtain ⟨hnext, hle⟩ := bounds_of_readSection hpos hrun
        exact ih hle (by omega) (by omega)
      | error e next => rfl

/-- Behind the header, the sections are read. -/
theorem runAt_read (hheader : StandsAt data 0 header) (hn : data.size ≤ header.length + n) :
    runAt (read options) data 0 = runAt (readSections options n 0 {}) data header.length := by
  have hread : readHeader.runAt data 0 = .ok () header.length := by
    simpa using reads_header data 0 hheader
  have hleft : remaining.runAt data header.length =
      .ok (data.size - header.length) header.length := rfl
  have hle : header.length ≤ data.size := by
    simpa using hheader.le_size
  simp only [read, liftM_self]
  rw [runAt_bind_of_ok _ hread, runAt_bind_of_ok _ hleft,
    runAt_readSections_of_le hle (Nat.le_of_eq (Nat.add_sub_cancel' hle).symm) hn]

/-- From a boundary on, decoding goes on with what was read up to there. -/
theorem ReadTo.parse_eq_ok_iff (h : ReadTo options data last acc pos)
    (hn : data.size ≤ pos + n) :
    parse (read options) data = .ok m ↔
      ∃ stop, runAt (readSections options n last acc) data pos = .ok m stop := by
  rw [parse_eq_ok]
  induction h generalizing n with
  | start hheader =>
    rw [runAt_read hheader hn]
  | next hprev hlt hrun ih =>
    have hle := (bounds_of_readSection (Nat.le_of_lt hlt) hrun).2
    rw [ih (n := data.size + 1) (by omega), runAt_readSections_succ hlt hrun,
      runAt_readSections_of_le hle (Nat.le_add_left _ _) hn]

/-- The sections behind a position are read alike wherever they stand. -/
theorem exists_readSections_of_hasTail (htail : HasTail data x rest)
    (htail' : HasTail data' y rest)
    (h : ∃ stop, runAt (readSections options n last acc) data x = .ok m stop) :
    ∃ stop, runAt (readSections options n last acc) data' y = .ok m stop := by
  obtain ⟨stop, hrun⟩ := h
  obtain ⟨_, j, hrun', rfl, -⟩ :=
    moves_sections options n last acc data data' rest 0 m stop htail htail' hrun
  exact ⟨y + j, hrun'⟩

/-- Custom sections are transparent: with one inserted between two sections, behind the header or
at the end, bytes are decoded to the same module as without it, or to none as without it. -/
theorem decode_insertAt_iff {bytes : Array UInt8} {pos : Nat} {c : List UInt8}
    (hpos : SectionBoundary options bytes pos) (hc : CustomSection c) (m : Module) :
    decode (insertAt bytes pos c) options = .ok m ↔ decode bytes options = .ok m := by
  obtain ⟨last, acc, hto⟩ := hpos
  have hle : pos ≤ bytes.size := hto.le_size
  have hstands : StandsAt (insertAt bytes pos c) pos c := standsAt_insertAt hle c
  have hlt : pos < (insertAt bytes pos c).size := by
    have hsize := hstands.le_size
    cases hc
    rw [List.length_cons] at hsize
    omega
  -- The decoder comes to the boundary and past the custom section.
  have hpre : StandsAt bytes 0 (bytes.toList.take pos) :=
    ⟨[], bytes.toList.drop pos, (List.take_append_drop pos _).symm, rfl⟩
  have hpre' : StandsAt (insertAt bytes pos c) 0 (bytes.toList.take pos) := ⟨[], _, rfl, rfl⟩
  have hto' : ReadTo options (insertAt bytes pos c) last acc (pos + c.length) :=
    .next (hto.of_common hpre hpre' (Nat.le_of_eq (length_take_toList hle).symm)) hlt
      (runAt_customSection hc hstands last)
  -- What is left is the same on both sides.
  have hparse : parse (read options) (insertAt bytes pos c) = .ok m ↔
      parse (read options) bytes = .ok m := by
    rw [hto.parse_eq_ok_iff (n := bytes.size + (insertAt bytes pos c).size) (by omega),
      hto'.parse_eq_ok_iff (n := bytes.size + (insertAt bytes pos c).size) (by omega)]
    exact ⟨exists_readSections_of_hasTail (hasTail_insertAt hle c) (hasTail_drop hle),
      exists_readSections_of_hasTail (hasTail_drop hle) (hasTail_insertAt hle c)⟩
  rw [decode_eq_ok_iff, decode_eq_ok_iff, hparse]

/-- A custom section with the name `é` and one more byte. Its size is spelled longer than need
be. -/
def aside : List UInt8 := [0x00, 0x84, 0x00, 0x02, 0xC3, 0xA9, 0xFF]

theorem decode_insertAt_iff_longAnswer :
    SectionBoundary {} longAnswer 20 ∧ CustomSection aside ∧
      decode (insertAt longAnswer 20 aside) = .ok answer := by
  have hheader : StandsAt longAnswer 0 header :=
    ⟨[], longAnswer.toList.drop 8, by decide +kernel, rfl⟩
  have hcustom : runAt (readSection {} 0 {}) longAnswer 8 = .ok (0, {}) 11 := rfl
  have htypes : runAt (readSection {} 0 {}) longAnswer 11 =
      .ok (1, { types := answer.types }) 20 := rfl
  have hpos : SectionBoundary {} longAnswer 20 :=
    ⟨1, _, .next (.next (.start hheader) (by decide) hcustom) (by decide) htypes⟩
  have hc : CustomSection aside :=
    .mk [0x84, 0x00] [0x02] "é" [0xFF] (local_u32.reads_toList_iff.mpr rfl) (by decide +kernel)
      (local_u32.reads_toList_iff.mpr rfl) (by decide +kernel)
  have hdecode : decode longAnswer = .ok answer := eq_ok_of_toOption (by decide +kernel)
  exact ⟨hpos, hc, (decode_insertAt_iff hpos hc answer).mpr hdecode⟩

end Module

end Wasm
