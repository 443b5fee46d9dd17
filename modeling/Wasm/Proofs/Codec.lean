import Wasm.Proofs.Leb128

/-!
# Wasm.Proofs.Codec

Writers beside readers.

* `Yields r P`: `P` holds of whatever `r` reads and of the number of bytes it takes for it.
* `Codec r write Fits`: `r` reads back what `write` makes of a value that fits; and whatever `r`
  reads fits, and is read from no fewer bytes than `write` makes of it.
* `Write.lengthPrefixed`, `Write.name`, `Write.vec`: the writers for what a length or a count
  introduces, with their codecs.

The second half of a codec is an inequality because the readers accept longer spellings of a
number than the writers give. It is what bounds the sizes of a written value by sizes that were
read.
-/

namespace Wasm.Reader

open Leb128

/-! ## What a reader yields -/

/-- Whatever `r` reads satisfies `P`, together with the number of bytes it takes. -/
def Yields (r : Reader α) (P : α → Nat → Prop) : Prop :=
  ∀ data pos a stop, pos ≤ data.size → r.runAt data pos = .ok a stop →
    ∃ n, stop = pos + n ∧ stop ≤ data.size ∧ P a n

namespace Yields

/-- A reader that takes no bytes. -/
theorem pure (h : P a 0) : Yields (Pure.pure a) P := by
  intro data pos b stop hpos hrun
  rw [runAt_pure] at hrun
  injection hrun with hb hstop
  subst hb hstop
  exact ⟨0, rfl, hpos, h⟩

/-- A reader that fails yields nothing. -/
theorem fail (e : ReadError) : Yields (Reader.fail e) P := by
  intro data pos a stop _ hrun
  rw [runAt_fail] at hrun
  contradiction

/-- The bytes of two readers add up. -/
theorem bind {r : Reader α} {f : α → Reader β} (hr : Yields r P)
    (hf : ∀ a n, P a n → Yields (f a) fun b k => Q b (n + k)) : Yields (r >>= f) Q := by
  intro data pos b stop hpos hrun
  obtain ⟨a, next, ha, hb⟩ := runAt_bind_eq_ok.mp hrun
  obtain ⟨n, rfl, hnext, hn⟩ := hr data pos a next hpos ha
  obtain ⟨k, rfl, hstop, hk⟩ := hf a n hn data _ b stop hnext hb
  exact ⟨n + k, Nat.add_assoc pos n k, hstop, hk⟩

/-- A reader that only uses the position for its errors. -/
theorem offset_bind {f : Nat → Reader α} (h : ∀ pos, Yields (f pos) P) :
    Yields (offset >>= f) P := by
  intro data pos a stop hpos hrun
  rw [runAt_bind_of_ok f (runAt_offset data pos)] at hrun
  exact h pos data pos a stop hpos hrun

/-- In each branch the condition may be used. -/
theorem ite {p : Prop} [Decidable p] {r r' : Reader α} (hr : p → Yields r P)
    (hr' : ¬ p → Yields r' P) : Yields (if p then r else r') P := by
  by_cases hp : p
  · rw [if_pos hp]
    exact hr hp
  · rw [if_neg hp]
    exact hr' hp

/-- Less may be said of what is read. -/
theorem mono {r : Reader α} (hr : Yields r P) (h : ∀ a n, P a n → Q a n) : Yields r Q := by
  intro data pos a stop hpos hrun
  obtain ⟨n, hstop, hle, hn⟩ := hr data pos a stop hpos hrun
  exact ⟨n, hstop, hle, h a n hn⟩

end Yields

/-- A local reader takes the bytes that it reads from. -/
theorem Local.yields {r : Reader α} (hr : Local r) :
    Yields r fun a n => ∃ bs, bs.length = n ∧ Reads r bs a := by
  intro data pos a stop hpos hrun
  obtain ⟨bs, hbs, rfl, hreads⟩ := hr data pos a stop hpos hrun
  exact ⟨bs.length, rfl, hbs.le_size, bs, rfl, hreads⟩

theorem yields_u8 : Yields u8 fun _ n => n = 1 := by
  refine Local.u8.yields.mono fun b n h => ?_
  obtain ⟨bs, rfl, hreads⟩ := h
  rw [reads_u8_iff.mp hreads, List.length_singleton]

/-- An integer may be spelled longer than need be, but not shorter than its shortest spelling. -/
theorem yields_u32 : Yields u32 fun v n => (writeUnsigned v.toNat).length ≤ n := by
  refine local_u32.yields.mono fun v n h => ?_
  obtain ⟨bs, rfl, hreads⟩ := h
  exact hreads.length_writeUnsigned_le

theorem yields_bytes (n : Nat) : Yields (bytes n) fun bs k => bs.size = n ∧ k = n := by
  intro data pos bs stop _ hrun
  obtain ⟨hle, rfl, rfl⟩ := runAt_bytes_eq_ok.mp hrun
  refine ⟨n, rfl, hle, ?_, rfl⟩
  rw [Array.size_extract]
  omega

/-- Bytes that are captured can be read again. -/
theorem Local.yields_captured {r : Reader α} (hr : Local r) :
    Yields (Reader.captured r) fun bs n => bs.size = n ∧ ∃ a, Reads r bs.toList a := by
  intro data pos bs stop hpos hrun
  obtain ⟨a, hbs, rfl, hreads⟩ := hr.captured hrun hpos
  exact ⟨bs.size, rfl, hbs.le_size, rfl, a, hreads⟩

/-! ## Codecs -/

/-- `r` reads back what `write` makes of a value that fits. Whatever `r` reads fits, and `write`
makes no more bytes of it than it was read from. -/
structure Codec (r : Reader α) (write : α → List UInt8) (Fits : α → Prop) : Prop where
  reads (a : α) (h : Fits a) : Reads r (write a) a
  yields : Yields r fun a n => Fits a ∧ (write a).length ≤ n

/-- A number that fits 32 bits, in its shortest spelling. -/
theorem reads_u32_ofNat (h : n < UInt32.size) : Reads u32 (writeUnsigned n) (UInt32.ofNat n) := by
  have hreads := reads_u32_writeUnsigned (UInt32.ofNat n)
  rwa [UInt32.toNat_ofNat_of_lt' h] at hreads

/-- Integers are written in their shortest spelling. -/
theorem codec_u32 : Codec u32 (fun v => writeUnsigned v.toNat) fun _ => True where
  reads v _ := reads_u32_writeUnsigned v
  yields := yields_u32.mono fun _ _ h => ⟨trivial, h⟩

end Wasm.Reader

namespace Wasm.Write

open Leb128

/-- Bytes after their length. -/
def lengthPrefixed (bs : List UInt8) : List UInt8 :=
  writeUnsigned bs.length ++ bs

/-- A text in UTF-8 after its length in bytes. -/
def name (s : String) : List UInt8 :=
  lengthPrefixed s.toUTF8.data.toList

/-- Items after their count. -/
def vec (write : α → List UInt8) (items : List α) : List UInt8 :=
  writeUnsigned items.length ++ items.flatMap write

theorem length_lengthPrefixed (bs : List UInt8) :
    (lengthPrefixed bs).length = (writeUnsigned bs.length).length + bs.length :=
  List.length_append

theorem length_vec (write : α → List UInt8) (items : List α) :
    (vec write items).length = (writeUnsigned items.length).length + (items.flatMap write).length :=
  List.length_append

end Wasm.Write

namespace Wasm.Reader

open Leb128

/-! ## Compound readers -/

/-- What a reader reads after a length that fits. -/
theorem Reads.lengthPrefixed {f : UInt32 → Reader α} {bs : List UInt8}
    (hlen : bs.length < UInt32.size) (h : ∀ n : UInt32, n.toNat = bs.length → Reads (f n) bs a) :
    Reads (Reader.u32 >>= f) (Write.lengthPrefixed bs) a :=
  (reads_u32_ofNat hlen).bind (h _ (UInt32.toNat_ofNat_of_lt' hlen))

/-- Bytes behind their number, which has to fit 32 bits. -/
theorem codec_lengthPrefixed :
    Codec lengthPrefixed (fun bs => Write.lengthPrefixed bs.toList)
      fun bs => bs.size < UInt32.size where
  reads bs h := by
    have hlen : bs.toList.length < UInt32.size := h
    refine Reads.lengthPrefixed hlen fun n hn => ?_
    rw [hn]
    exact Reads.bytes bs.toList
  yields := by
    refine yields_u32.bind fun len n hn => ?_
    refine (yields_bytes len.toNat).mono fun bs k hk => ?_
    obtain ⟨hsize, rfl⟩ := hk
    have hlen : bs.toList.length = len.toNat := hsize
    refine ⟨hsize ▸ len.toNat_lt, ?_⟩
    rw [Write.length_lengthPrefixed, hlen]
    exact Nat.add_le_add_right hn _

/-- Text is read back from its bytes. -/
theorem fromUTF8?_toUTF8 (s : String) : String.fromUTF8? s.toUTF8 = some s := by
  unfold String.fromUTF8?
  exact dif_pos s.isValidUTF8

/-- Bytes that are text are the bytes of that text, since there is one spelling only. -/
theorem toUTF8_of_fromUTF8? {b : ByteArray} (h : String.fromUTF8? b = some s) : s.toUTF8 = b := by
  unfold String.fromUTF8? at h
  split at h
  · injection h with h
    rw [← h]
    rfl
  · contradiction

/-- A name is text behind the number of its bytes. -/
theorem codec_name : Codec name Write.name fun s => s.utf8ByteSize < UInt32.size where
  reads s h := by
    have hsize : s.toUTF8.data.size < UInt32.size := h
    have hread := codec_lengthPrefixed.reads s.toUTF8.data hsize
    refine Reads.offset_bind fun start => ?_
    rw [Write.name, ← List.append_nil (Write.lengthPrefixed _)]
    refine hread.bind ?_
    rw [fromUTF8?_toUTF8]
    exact Reads.pure s
  yields := by
    refine .offset_bind fun start => codec_lengthPrefixed.yields.bind fun text n hn => ?_
    cases hs : String.fromUTF8? ⟨text⟩ with
    | none => exact .fail _
    | some s =>
      have htext : s.toUTF8 = ⟨text⟩ := toUTF8_of_fromUTF8? hs
      have hsize : s.utf8ByteSize = text.size := by
        rw [← String.size_toByteArray]
        exact congrArg ByteArray.size htext
      refine .pure ?_
      rw [Write.name, htext, hsize]
      exact hn

/-- The items can be counted with 32 bits, and each of them fits. -/
structure AllFit (Fits : α → Prop) (items : Array α) : Prop where
  size : items.size < UInt32.size
  fits : ∀ a ∈ items, Fits a

theorem AllFit.empty (Fits : α → Prop) : AllFit Fits #[] :=
  ⟨Nat.zero_lt_of_lt (UInt32.toNat_lt 0), fun a ha => absurd ha (Array.not_mem_empty a)⟩

/-- A row of items, each of which is read back. -/
theorem Codec.readsAll {r : Reader α} {write : α → List UInt8} (hr : Codec r write Fits)
    {items : List α} (h : ∀ a ∈ items, Fits a) : ReadsAll r (items.flatMap write) items := by
  induction items with
  | nil => exact .nil
  | cons a items ih =>
    obtain ⟨ha, hitems⟩ := List.forall_mem_cons.mp h
    exact .cons (hr.reads a ha) (ih hitems)

/-- Items are read one after the other behind those that are there; the induction is on how many are
left. -/
theorem Codec.yields_repeated {r : Reader α} {write : α → List UInt8} (hr : Codec r write Fits)
    (n : Nat) (items : Array α) :
    Yields (repeated r n items) fun all k => ∃ more : List α, all = items ++ more.toArray ∧
      more.length = n ∧ (∀ a ∈ more, Fits a) ∧ (more.flatMap write).length ≤ k := by
  induction n generalizing items with
  | zero => exact .pure ⟨[], (Array.append_empty).symm, rfl, by simp, by simp⟩
  | succ n ih =>
    refine hr.yields.bind fun a k ha => (ih (items.push a)).mono fun all l hall => ?_
    obtain ⟨hfits, hlen⟩ := ha
    obtain ⟨more, rfl, rfl, hmore, hle⟩ := hall
    refine ⟨a :: more, ?_, rfl, List.forall_mem_cons.mpr ⟨hfits, hmore⟩, ?_⟩
    · apply Array.toList_inj.mp
      simp
    · rw [List.flatMap_cons, List.length_append]
      exact Nat.add_le_add hlen hle

/-- A vector of what a codec reads is read by a codec. -/
theorem Codec.vec {r : Reader α} {write : α → List UInt8} (hr : Codec r write Fits) :
    Codec (Reader.vec r) (fun items => Write.vec write items.toList) (AllFit Fits) where
  reads items h := by
    have hlen : items.toList.length < UInt32.size := h.size
    have hall : ∀ a ∈ items.toList, Fits a := fun a ha => h.fits a (Array.mem_toList_iff.mp ha)
    exact (reads_u32_ofNat hlen).vec (hr.readsAll hall) (UInt32.toNat_ofNat_of_lt' hlen).symm
  yields := by
    refine yields_u32.bind fun count n hn => ?_
    refine (hr.yields_repeated count.toNat #[]).mono fun all k hk => ?_
    obtain ⟨items, rfl, hlen, hitems, hle⟩ := hk
    rw [Array.empty_append]
    refine ⟨⟨?_, fun a ha => hitems a (List.mem_toArray.mp ha)⟩, ?_⟩
    · rw [List.size_toArray, hlen]
      exact count.toNat_lt
    · rw [Write.length_vec, hlen]
      exact Nat.add_le_add hn hle

end Wasm.Reader
