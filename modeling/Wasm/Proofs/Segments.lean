import Mathlib
import Wasm.Proofs.Imported

/-!
# Wasm.Proofs.Segments

What the segments of a module make of its table and its memory. They are put there one after the
other, so that each place has what the last segment puts there that covers it.

* `Patch` is a segment whose offset is known; `Patch.last?` is what a list of them puts at a place.
* `Patch.Puts` is what the loops over element and data segments have in common. They succeed or fail
  whatever the order, and the order is of no account where no two segments meet (`Puts.perm`).
* `Table.Filled` and `Memory.Filled` give sizes and contents in closed form, and
  `Module.link_initialized` says that linking leads to them.
-/

namespace Wasm

/-! ## Patches -/

/-- An offset has to be a 32-bit integer. -/
theorem Link.segmentOffset_eq_ok :
    segmentOffset kind offset globals = .ok bits ↔ offset.evaluate globals = .ok (.i32 bits) := by
  simp only [segmentOffset, exceptBind_eq_ok]
  constructor
  · rintro ⟨v, hv, h⟩
    split at h
    · cases h
      exact hv
    · contradiction
  · intro h
    exact ⟨_, h, rfl⟩

/-- Items that are put in a row from an offset on. -/
structure Patch (α : Type) where
  offset : Nat
  items : List α

namespace Patch

variable {α β σ ι : Type}

/-- The item that is put at a place, if the patch covers it. -/
def item? (p : Patch α) (i : Nat) : Option α :=
  if p.offset ≤ i then p.items[i - p.offset]? else none

/-- The place behind the last item. -/
def stop (p : Patch α) : Nat := p.offset + p.items.length

/-- No place is covered by both patches. -/
def Disjoint (p q : Patch α) : Prop := ∀ i, p.item? i = none ∨ q.item? i = none

/-- The last of the items that patches put at a place. -/
def last? (ps : List (Patch α)) (i : Nat) : Option α := (ps.filterMap (·.item? i)).getLast?

/-- The most that one of the patches needs. -/
def most (need : Patch α → Nat) (ps : List (Patch α)) : Nat := (ps.map need).foldr max 0

/-- The patch of a segment: its offset is a 32-bit integer, taken as unsigned. -/
def ofSegment (globals : Array Global) (offset : ConstExpr) (items : List α) : Option (Patch α) :=
  match offset.evaluate globals with
  | .ok (.i32 bits) => some ⟨bits.toNat, items⟩
  | _ => none

theorem item?_nil (offset i : Nat) : (⟨offset, []⟩ : Patch α).item? i = none := by
  simp [item?]

/-- The first item stands at the offset, the others behind it. -/
theorem item?_cons (offset i : Nat) (a : α) (as : List α) :
    (⟨offset, a :: as⟩ : Patch α).item? i =
      if i = offset then some a else (⟨offset + 1, as⟩ : Patch α).item? i := by
  obtain h | rfl | h := Nat.lt_trichotomy i offset
  · have hnot : ¬ offset ≤ i := by omega
    have hnot' : ¬ offset + 1 ≤ i := by omega
    simp [item?, hnot, hnot', Nat.ne_of_lt h]
  · simp [item?]
  · have hshift : i - offset = (i - (offset + 1)) + 1 := by omega
    simp [item?, Nat.le_of_lt h, Nat.succ_le_of_lt h, Nat.ne_of_gt h, hshift]

theorem Disjoint.symm {p q : Patch α} (h : p.Disjoint q) : q.Disjoint p := fun i => (h i).symm

/-- Patches do not meet if one of them ends before the other one begins. -/
theorem Disjoint.of_stop_le {p q : Patch α} (h : p.stop ≤ q.offset) : p.Disjoint q := by
  intro i
  rw [stop] at h
  by_cases hi : q.offset ≤ i
  · have hpast : p.items.length ≤ i - p.offset := by omega
    exact .inl (by simp [item?, hpast])
  · exact .inr (if_neg hi)

/-- What is put later goes before what was put earlier. -/
theorem last?_cons (p : Patch α) (ps : List (Patch α)) (i : Nat) :
    last? (p :: ps) i = (last? ps i).or (p.item? i) := by
  cases h : p.item? i with
  | none => simp [last?, h]
  | some a => simp [last?, h, List.getLast?_cons]

/-- The patch of a segment is there once its offset is known. -/
theorem ofSegment_eq_some (kind : SegmentKind) {offset : ConstExpr} {items : List α} :
    ofSegment globals offset items = some p ↔
      ∃ bits, Link.segmentOffset kind offset globals = .ok bits ∧ p = ⟨bits.toNat, items⟩ := by
  simp only [Link.segmentOffset_eq_ok, ofSegment]
  split
  · next bits h => simp [h, eq_comm]
  · next h =>
    constructor
    · intro hnone
      contradiction
    · rintro ⟨bits, hbits, -⟩
      exact absurd hbits (h bits)

/-! ## Patches one after the other -/

/-- What shows at a place is what the last patch puts there. -/
theorem view_foldl {put : σ → Patch α → σ} (view : σ → β) {f : α → β}
    (h : ∀ s p, view (put s p) = (p.item? i).elim (view s) f) (ps : List (Patch α)) (s : σ) :
    view (ps.foldl put s) = (last? ps i).elim (view s) f := by
  induction ps generalizing s with
  | nil => rfl
  | cons p ps ih =>
    rw [List.foldl_cons, ih, last?_cons, h]
    cases last? ps i <;> rfl

/-- What grows to what a patch needs grows to the most that one of them needs. -/
theorem extent_foldl {put : σ → Patch α → σ} {extent : σ → Nat} {need : Patch α → Nat}
    (h : ∀ s p, extent (put s p) = max (extent s) (need p)) (ps : List (Patch α)) (s : σ) :
    extent (ps.foldl put s) = max (extent s) (most need ps) := by
  induction ps generalizing s with
  | nil => exact (Nat.max_zero _).symm
  | cons p ps ih =>
    rw [List.foldl_cons, ih, h, Nat.max_assoc]
    rfl

/-- What no patch changes is not changed. -/
theorem keeps_foldl {put : σ → Patch α → σ} (field : σ → β) (h : ∀ s p, field (put s p) = field s)
    (ps : List (Patch α)) (s : σ) : field (ps.foldl put s) = field s := by
  induction ps generalizing s with
  | nil => rfl
  | cons p ps ih => rw [List.foldl_cons, ih, h]

/-- Patches commute where no place is covered by both. -/
def Commutes (put : σ → Patch α → σ) : Prop :=
  ∀ s p q, p.Disjoint q → put (put s p) q = put (put s q) p

/-- Neighbours that do not meet can be exchanged, and so can all patches in the end. The induction
is on the permutation; that the patches stay apart is carried along. -/
theorem Commutes.foldl_perm {put : σ → Patch α → σ} {ps ps' : List (Patch α)} (h : Commutes put)
    (hdisjoint : ps.Pairwise Disjoint) (hperm : ps.Perm ps') (s : σ) :
    ps.foldl put s = ps'.foldl put s := by
  induction hperm generalizing s with
  | nil => rfl
  | cons p hperm ih => exact ih hdisjoint.of_cons (put s p)
  | swap p q ps =>
    have hqp : q.Disjoint p := (List.pairwise_cons.mp hdisjoint).1 p List.mem_cons_self
    rw [List.foldl_cons, List.foldl_cons, List.foldl_cons, List.foldl_cons, h s q p hqp]
  | trans hperm hperm' ih ih' =>
    have hdisjoint' := hperm.pairwise hdisjoint Disjoint.symm
    rw [ih hdisjoint, ih' hdisjoint']

/-- A loop puts segments into a store one after the other, if there is one. Each has to fit into the
store, which does not depend on those before it. -/
structure Puts (loop : List ι → Option σ → Except ε (Option σ)) (fits : ι → σ → Patch α → Prop)
    (patch? : ι → Option (Patch α)) (put : σ → Patch α → σ) : Prop where
  nil : ∀ x, loop [] x = .ok x
  cons : ∀ seg segs x y, loop (seg :: segs) x = .ok y ↔
    ∃ s p, x = some s ∧ fits seg s p ∧ loop segs (some (put s p)) = .ok y
  patch : ∀ seg s p, fits seg s p → patch? seg = some p
  stable : ∀ seg s p q, fits seg (put s q) p ↔ fits seg s p

namespace Puts

variable {loop : List ι → Option σ → Except ε (Option σ)} {fits : ι → σ → Patch α → Prop}
  {patch? : ι → Option (Patch α)} {put : σ → Patch α → σ}

/-- The loop succeeds if every segment fits, and then the store has all of their patches. -/
theorem eq_ok_iff (h : Puts loop fits patch? put) : loop segs x = .ok y ↔
    (∀ seg ∈ segs, ∃ s p, x = some s ∧ fits seg s p) ∧
      y = x.map fun s => (segs.filterMap patch?).foldl put s := by
  induction segs generalizing x with
  | nil => simp [h.nil, eq_comm]
  | cons seg segs ih =>
    rw [h.cons, List.forall_mem_cons]
    constructor
    · -- What fits into the store after the first patch fits into it as it was.
      rintro ⟨s, p, rfl, hfits, hrest⟩
      obtain ⟨hfits', rfl⟩ := ih.mp hrest
      refine ⟨⟨⟨s, p, rfl, hfits⟩, fun seg' hseg' => ?_⟩, ?_⟩
      · obtain ⟨_, p', heq, hp'⟩ := hfits' seg' hseg'
        cases heq
        exact ⟨s, p', rfl, (h.stable _ _ _ _).mp hp'⟩
      · rw [List.filterMap_cons_some (h.patch _ _ _ hfits)]
        rfl
    · rintro ⟨⟨⟨s, p, rfl, hfits⟩, hfits'⟩, rfl⟩
      refine ⟨s, p, rfl, hfits, ih.mpr ⟨fun seg' hseg' => ?_, ?_⟩⟩
      · obtain ⟨_, p', heq, hp'⟩ := hfits' seg' hseg'
        cases heq
        exact ⟨put s p, p', rfl, (h.stable _ _ _ _).mpr hp'⟩
      · rw [List.filterMap_cons_some (h.patch _ _ _ hfits)]
        rfl

/-- In a loop that goes through, every segment has had an offset. -/
theorem isSome_patch? (h : Puts loop fits patch? put) (hloop : loop segs x = .ok y) :
    ∀ seg ∈ segs, (patch? seg).isSome := by
  intro seg hseg
  obtain ⟨s, p, -, hfits⟩ := (h.eq_ok_iff.mp hloop).1 seg hseg
  rw [h.patch _ _ _ hfits, Option.isSome_some]

/-- The order of segments that do not meet is of no account. -/
theorem perm (h : Puts loop fits patch? put) (hcomm : Commutes put)
    (hdisjoint : (segs.filterMap patch?).Pairwise Disjoint) (hperm : segs'.Perm segs)
    (hloop : loop segs x = .ok y) : loop segs' x = .ok y := by
  obtain ⟨hfits, rfl⟩ := h.eq_ok_iff.mp hloop
  refine h.eq_ok_iff.mpr ⟨fun seg hseg => hfits seg (hperm.mem_iff.mp hseg), ?_⟩
  congr 1
  funext s
  exact Commutes.foldl_perm hcomm hdisjoint (hperm.symm.filterMap _) s

end Puts

end Patch

/-! ## Tables -/

namespace Table

/-- What is in a slot, nothing where there is none. -/
def slot (t : Table) (i : Nat) : Option UInt32 := t.slots[i]?.join

/-- Put a patch into a table, with new slots where it runs past the end. -/
def patch (t : Table) (p : Patch UInt32) : Table :=
  { t.extend p.stop with slots := putFuncs (t.extend p.stop).slots p.offset p.items }

/-- A table was extended to its minimum and to the end of every patch, and its slots have what the
last patch puts there, or else what was there. -/
structure Filled (ps : List (Patch UInt32)) (t₀ t : Table) : Prop where
  limits : t.limits = t₀.limits
  size : t.size = max (max t₀.size t₀.limits.min.toNat) (Patch.most Patch.stop ps)
  slots : ∀ i < t.size, t.slots[i]? = some ((Patch.last? ps i).or t₀.slots[i]?.join)

/-- A table is extended, never cut. -/
theorem size_extend (t : Table) (n : Nat) : (t.extend n).size = max t.size n := by
  simp only [size, extend, Array.size_append, Array.size_replicate]
  omega

/-- New slots are empty. -/
theorem slot_extend (t : Table) (n i : Nat) : (t.extend n).slot i = t.slot i := by
  by_cases hi : i < t.size
  · rw [slot, t.getElem?_extend n hi, slot]
  · have hle : t.slots.size ≤ i := Nat.le_of_not_lt hi
    rw [slot, slot, extend, Array.getElem?_append_right hle, Array.getElem?_eq_none hle,
      Array.getElem?_replicate]
    split <;> rfl

/-- Function indices are put in a row, and leave the other slots. -/
theorem join_getElem?_putFuncs (slots : Array (Option UInt32))
    (h : offset + fs.length ≤ slots.size) :
    (putFuncs slots offset fs)[i]?.join =
      ((⟨offset, fs⟩ : Patch UInt32).item? i).or slots[i]?.join := by
  induction fs generalizing slots offset with
  | nil => rw [Patch.item?_nil, putFuncs, Option.none_or]
  | cons f fs ih =>
    rw [List.length_cons] at h
    rw [putFuncs, ih _ (by rw [Array.size_setIfInBounds]; omega), Patch.item?_cons,
      Array.getElem?_setIfInBounds]
    by_cases hi : i = offset
    · have hbelow : i < slots.size := by omega
      have hnext : (⟨i + 1, fs⟩ : Patch UInt32).item? i = none := by simp [Patch.item?]
      subst hi
      simp [hbelow, hnext]
    · simp [hi, Ne.symm hi]

theorem limits_patch (t : Table) (p : Patch UInt32) : (t.patch p).limits = t.limits := rfl

/-- A patch reaches to its end at least. -/
theorem size_patch (t : Table) (p : Patch UInt32) : (t.patch p).size = max t.size p.stop :=
  (size_putFuncs _ _ _).trans (t.size_extend _)

/-- A slot holds what the patch puts there, or what it has held. -/
theorem slot_patch (t : Table) (p : Patch UInt32) (i : Nat) :
    (t.patch p).slot i = (p.item? i).or (t.slot i) := by
  have hroom : p.stop ≤ (t.extend p.stop).size := by
    rw [size_extend]
    exact Nat.le_max_right _ _
  rw [← t.slot_extend p.stop i]
  exact join_getElem?_putFuncs _ hroom

/-- Inside the table, a slot is there, empty or not. -/
theorem getElem?_of_slot {t : Table} (hi : i < t.size) : t.slots[i]? = some (t.slot i) := by
  have hget : t.slots[i]? = some t.slots[i] := Array.getElem?_eq_getElem hi
  rw [slot, hget, Option.join_some]

/-- A table is its limits, its size and its slots. -/
theorem eq_of_slot {t t' : Table} (hlimits : t.limits = t'.limits) (hsize : t.size = t'.size)
    (hslot : ∀ i, t.slot i = t'.slot i) : t = t' := by
  have hslots : t.slots = t'.slots := by
    apply Array.ext_getElem?
    intro i
    by_cases hi : i < t.size
    · rw [getElem?_of_slot hi, getElem?_of_slot (hsize ▸ hi), hslot]
    · have hle : t.size ≤ i := Nat.le_of_not_lt hi
      have hle' : t'.size ≤ i := hsize ▸ hle
      rw [Array.getElem?_eq_none hle, Array.getElem?_eq_none hle']
  cases t
  cases t'
  congr

/-- Patches that do not meet can be put in either order. -/
theorem commutes_patch : Patch.Commutes patch := by
  intro t p q hdisjoint
  apply eq_of_slot
  · rfl
  · rw [size_patch, size_patch, size_patch, size_patch, Nat.max_right_comm]
  · intro i
    rw [slot_patch, slot_patch, slot_patch, slot_patch]
    -- One of the patches has no item here.
    obtain h | h := hdisjoint i <;> simp [h]

/-- The minimum has to be within the cap, and is then reached. -/
theorem ensureMin_eq_ok {t t' : Table} :
    t.ensureMin = .ok t' ↔ t.limits.min.toNat ≤ t.cap ∧ t.extend t.limits.min.toNat = t' := by
  unfold ensureMin
  dsimp only
  split
  · next h => simp [Nat.not_le.mpr h]
  · next h => simp [Nat.le_of_not_lt h]

/-- After all patches and the extension to the minimum, sizes and slots have their closed form. -/
theorem filled_of_ensureMin {t₀ t : Table} (h : (ps.foldl patch t₀).ensureMin = .ok t) :
    Filled ps t₀ t := by
  have hlimits : (ps.foldl patch t₀).limits = t₀.limits :=
    Patch.keeps_foldl Table.limits limits_patch ps t₀
  have hsize := Patch.extent_foldl size_patch ps t₀
  obtain rfl : (ps.foldl patch t₀).extend t₀.limits.min.toNat = t := by
    rw [← hlimits]
    exact (ensureMin_eq_ok.mp h).2
  constructor
  case limits => exact hlimits
  case size => rw [size_extend, hsize, Nat.max_right_comm]
  case slots =>
    intro i hi
    have hslot : (ps.foldl patch t₀).slot i = (Patch.last? ps i).elim (t₀.slot i) some := by
      refine Patch.view_foldl (fun t : Table => t.slot i) (fun t p => ?_) ps t₀
      rw [slot_patch]
      cases p.item? i <;> rfl
    rw [getElem?_of_slot hi, slot_extend, hslot, slot]
    cases Patch.last? ps i <;> rfl

end Table

/-! ## Memories -/

theorem pageSize_pos : 0 < pageSize := by decide

theorem size_zeroPage : zeroPage.size = pageSize := Array.size_replicate

theorem byteAt_eq (data : ByteArray) (i : Nat) : byteAt data i = data.data[i]?.getD 0 := by
  unfold byteAt
  split
  · next hi =>
    have hget : data.data[i]? = some data.data[i] := Array.getElem?_eq_getElem hi
    rw [hget]
    rfl
  · next hi =>
    have hget : data.data[i]? = none := Array.getElem?_eq_none (Nat.le_of_not_lt hi)
    rw [hget]
    rfl

/-- A page of zeros does not change any byte, since there was zero past the end. -/
theorem byteAt_append_zeroPage (data : ByteArray) (i : Nat) :
    byteAt (data ++ zeroPage) i = byteAt data i := by
  rw [byteAt_eq, byteAt_eq, ByteArray.data_append, Array.getElem?_append]
  split
  · rfl
  · next hi =>
    rw [Array.getElem?_eq_none (Nat.le_of_not_lt hi), zeroPage, Array.getElem?_replicate]
    split <;> rfl

/-- Nor do several. -/
theorem byteAt_addPages (data : ByteArray) (n i : Nat) :
    byteAt (addPages data n) i = byteAt data i := by
  induction n generalizing data with
  | zero => rfl
  | succ n ih => rw [addPages, ih, byteAt_append_zeroPage]

theorem size_addPages (data : ByteArray) (n : Nat) :
    (addPages data n).size = data.size + n * pageSize := by
  induction n generalizing data with
  | zero => simp [addPages]
  | succ n ih =>
    rw [addPages, ih, ByteArray.size_append, size_zeroPage, Nat.succ_mul]
    omega

/-- A byte is put at one place. -/
theorem byteAt_putByte (data : ByteArray) (b : UInt8) (hi : i < data.size) :
    byteAt (putByte data i b) k = if k = i then b else byteAt data k := by
  have hset : (putByte data i b).data = data.data.set i b hi := by
    rw [putByte, dif_pos hi]
    rfl
  rw [byteAt_eq, byteAt_eq, hset, Array.getElem?_set]
  by_cases hk : k = i
  · simp [hk]
  · simp [hk, Ne.symm hk]

/-- Bytes are put in a row, and leave the others. -/
theorem byteAt_putBytes (data : ByteArray) (h : offset + bs.length ≤ data.size) :
    byteAt (putBytes data offset bs) i =
      ((⟨offset, bs⟩ : Patch UInt8).item? i).getD (byteAt data i) := by
  induction bs generalizing data offset with
  | nil => rw [Patch.item?_nil, putBytes, Option.getD_none]
  | cons b bs ih =>
    rw [List.length_cons] at h
    rw [putBytes, ih _ (by rw [size_putByte]; omega), Patch.item?_cons,
      byteAt_putByte data b (by omega)]
    by_cases hi : i = offset
    · have hnext : (⟨i + 1, bs⟩ : Patch UInt8).item? i = none := by simp [Patch.item?]
      subst hi
      simp [hnext]
    · simp [hi]

namespace Memory

/-- The number of pages that a patch needs. -/
def pagesFor (p : Patch UInt8) : Nat := p.stop ⌈/⌉ pageSize

/-- Put a patch into a memory, with new pages where it runs past the end. -/
def patch (m : Memory) (p : Patch UInt8) : Memory :=
  (m.extend (pagesFor p)).write p.offset p.items

/-- A memory was extended by whole pages to its minimum and to the end of every patch, and its bytes
are what the last patch puts there, or else what was there. -/
structure Filled (ps : List (Patch UInt8)) (m₀ m : Memory) : Prop where
  limits : m.limits = m₀.limits
  pages : m.pages = max (max m₀.pages m₀.limits.min.toNat) (Patch.most pagesFor ps)
  size : m.size = m.pages * pageSize + m₀.size % pageSize
  bytes : ∀ i, m.byte i = (Patch.last? ps i).getD (m₀.byte i)

/-- A memory is made of its pages and of what is left over; an imported one may have a rest. -/
theorem size_eq (m : Memory) : m.size = m.pages * pageSize + m.size % pageSize := by
  rw [pages, Nat.mul_comm, Nat.div_add_mod]

/-- Pages are added on top of the rest. -/
theorem size_extend (m : Memory) (n : Nat) :
    (m.extend n).size = max m.pages n * pageSize + m.size % pageSize := by
  have hsize : (m.extend n).size = m.size + (n - m.pages) * pageSize := size_addPages _ _
  have hsum : max m.pages n = m.pages + (n - m.pages) := by omega
  have hrest := m.size_eq
  rw [hsize, hsum, Nat.add_mul]
  omega

/-- A memory is extended to a number of pages, never cut. -/
theorem pages_extend (m : Memory) (n : Nat) : (m.extend n).pages = max m.pages n := by
  rw [pages, size_extend, Nat.mul_comm, Nat.mul_add_div pageSize_pos,
    Nat.div_eq_of_lt (Nat.mod_lt _ pageSize_pos), Nat.add_zero]

theorem size_write (m : Memory) (address : Nat) (bytes : List UInt8) :
    (m.write address bytes).size = m.size :=
  size_putBytes _ _ _

/-- A patch adds the pages that it needs. -/
theorem size_patch (m : Memory) (p : Patch UInt8) :
    (m.patch p).size = max m.pages (pagesFor p) * pageSize + m.size % pageSize :=
  (size_write _ _ _).trans (m.size_extend _)

theorem limits_patch (m : Memory) (p : Patch UInt8) : (m.patch p).limits = m.limits := by
  obtain ⟨data, limits⟩ := m
  rfl

theorem pages_patch (m : Memory) (p : Patch UInt8) :
    (m.patch p).pages = max m.pages (pagesFor p) := by
  rw [patch, pages, size_write, ← pages, pages_extend]

/-- What is left over beside whole pages stays. -/
theorem mod_size_patch (m : Memory) (p : Patch UInt8) :
    (m.patch p).size % pageSize = m.size % pageSize := by
  rw [size_patch, Nat.mul_comm, Nat.mul_add_mod, Nat.mod_mod]

/-- With the pages that it needs, a patch lies inside the memory. -/
theorem stop_le_size_extend (m : Memory) (p : Patch UInt8) :
    p.stop ≤ (m.extend (pagesFor p)).size := by
  have hceil : p.stop ≤ pagesFor p * pageSize := by
    rw [Nat.mul_comm]
    exact (ceilDiv_le_iff_le_mul pageSize_pos).mp (Nat.le_refl (pagesFor p))
  have hmax : pagesFor p * pageSize ≤ max m.pages (pagesFor p) * pageSize :=
    Nat.mul_le_mul_right _ (Nat.le_max_right _ _)
  rw [size_extend]
  omega

/-- A byte is what the patch puts there, or what it was. -/
theorem byte_patch (m : Memory) (p : Patch UInt8) (i : Nat) :
    (m.patch p).byte i = (p.item? i).getD (m.byte i) := by
  rw [byte, byte, ← byteAt_addPages m.data (pagesFor p - m.pages)]
  exact byteAt_putBytes _ (m.stop_le_size_extend p)

/-- A memory is its limits, its size and its bytes. -/
theorem eq_of_byte {m m' : Memory} (hlimits : m.limits = m'.limits) (hsize : m.size = m'.size)
    (hbyte : ∀ i, m.byte i = m'.byte i) : m = m' := by
  have hdata : m.data.data = m'.data.data := by
    apply Array.ext hsize
    intro i hi hi'
    have hi₀ := hbyte i
    rw [byte, byte, byteAt_eq, byteAt_eq, Array.getElem?_eq_getElem hi,
      Array.getElem?_eq_getElem hi'] at hi₀
    exact hi₀
  obtain ⟨⟨bytes⟩, limits⟩ := m
  obtain ⟨⟨bytes'⟩, limits'⟩ := m'
  obtain rfl : bytes = bytes' := hdata
  obtain rfl : limits = limits' := hlimits
  rfl

/-- Patches that do not meet can be put in either order. -/
theorem commutes_patch : Patch.Commutes patch := by
  intro m p q hdisjoint
  apply eq_of_byte
  · rw [limits_patch, limits_patch, limits_patch, limits_patch]
  · rw [size_patch, size_patch (m.patch q), pages_patch, pages_patch, mod_size_patch,
      mod_size_patch, Nat.max_right_comm]
  · intro i
    rw [byte_patch, byte_patch, byte_patch, byte_patch]
    obtain h | h := hdisjoint i <;> simp [h]

/-- The minimum has to be within the cap, and is then reached. -/
theorem ensureMin_eq_ok {m m' : Memory} :
    m.ensureMin = .ok m' ↔ m.limits.min.toNat ≤ m.cap ∧ m.extend m.limits.min.toNat = m' := by
  unfold ensureMin
  dsimp only
  split
  · next h => simp [Nat.not_le.mpr h]
  · next h => simp [Nat.le_of_not_lt h]

/-- After all patches and the extension to the minimum, sizes and bytes have their closed form. -/
theorem filled_of_ensureMin {m₀ m : Memory} (h : (ps.foldl patch m₀).ensureMin = .ok m) :
    Filled ps m₀ m := by
  have hlimits : (ps.foldl patch m₀).limits = m₀.limits :=
    Patch.keeps_foldl Memory.limits limits_patch ps m₀
  have hpages := Patch.extent_foldl pages_patch ps m₀
  have hrest : (ps.foldl patch m₀).size % pageSize = m₀.size % pageSize :=
    Patch.keeps_foldl (fun m : Memory => m.size % pageSize) mod_size_patch ps m₀
  obtain rfl : (ps.foldl patch m₀).extend m₀.limits.min.toNat = m := by
    rw [← hlimits]
    exact (ensureMin_eq_ok.mp h).2
  constructor
  case limits => exact hlimits
  case pages => rw [pages_extend, hpages, Nat.max_right_comm]
  case size => rw [size_extend, hrest, pages_extend]
  case bytes =>
    intro i
    have hbyte : (ps.foldl patch m₀).byte i = (Patch.last? ps i).elim (m₀.byte i) id := by
      refine Patch.view_foldl (fun m : Memory => m.byte i) (fun m p => ?_) ps m₀
      rw [byte_patch]
      cases p.item? i <;> rfl
    have hextend : ((ps.foldl patch m₀).extend m₀.limits.min.toNat).byte i =
        (ps.foldl patch m₀).byte i := byteAt_addPages _ _ _
    rw [hextend, hbyte]
    cases Patch.last? ps i <;> rfl

end Memory

/-! ## Segments -/

/-- What an element segment puts into the table. -/
def ElementSegment.patch? (globals : Array Global) (seg : ElementSegment) : Option (Patch UInt32) :=
  Patch.ofSegment globals seg.offset seg.funcs.toList

/-- What a data segment puts into the memory. -/
def DataSegment.patch? (globals : Array Global) (seg : DataSegment) : Option (Patch UInt8) :=
  Patch.ofSegment globals seg.offset seg.bytes.toList

/-- An element segment is for the only table there is, refers to one of `n` functions in each slot,
and does not lead the table past its maximum. -/
structure ElementSegment.Fits (n : Nat) (globals : Array Global) (seg : ElementSegment) (t : Table)
    (p : Patch UInt32) : Prop where
  table : seg.table = 0
  funcs : ∀ f ∈ seg.funcs, f.toNat < n
  patch : seg.patch? globals = some p
  room : p.stop ≤ t.cap

/-- A data segment is for the only memory there is, and does not lead it past its maximum. -/
structure DataSegment.Fits (globals : Array Global) (seg : DataSegment) (m : Memory)
    (p : Patch UInt8) : Prop where
  memory : seg.memory = 0
  patch : seg.patch? globals = some p
  room : p.stop ≤ m.cap * pageSize

/-- A segment is written if it ends within the cap, and is a patch then. -/
theorem Table.writeSegment_eq_ok {t t' : Table} : t.writeSegment bits fs = .ok t' ↔
    (⟨bits.toNat, fs⟩ : Patch UInt32).stop ≤ t.cap ∧ t.patch ⟨bits.toNat, fs⟩ = t' := by
  unfold writeSegment
  simp only [Patch.stop]
  split
  · next h => simp [Nat.not_le.mpr h]
  · next h => simp [Nat.le_of_not_lt h, patch, Patch.stop]

/-- The same for memories, whose cap counts pages. -/
theorem Memory.writeSegment_eq_ok {m m' : Memory} : m.writeSegment bits bs = .ok m' ↔
    (⟨bits.toNat, bs⟩ : Patch UInt8).stop ≤ m.cap * pageSize ∧ m.patch ⟨bits.toNat, bs⟩ = m' := by
  unfold writeSegment
  simp only [Patch.stop]
  split
  · next h => simp [Nat.not_le.mpr h]
  · next h => simp [Nat.le_of_not_lt h, patch, pagesFor, Patch.stop, Nat.ceilDiv_eq_add_pred_div]

/-- There is at most one thing that an index can stand for. -/
theorem getElem?_toList_eq_some {o : Option α} {index : UInt32} :
    o.toList[index.toNat]? = some a ↔ o = some a ∧ index = 0 := by
  have hzero : index.toNat = 0 ↔ index = 0 := by
    rw [← UInt32.toNat_inj, UInt32.toNat_zero]
  cases o with
  | none => simp
  | some b => simp [List.getElem?_singleton, hzero, and_comm]

namespace Link

/-- The loop over element segments is a loop over patches. A segment fits if its table is there, its
functions are, and there is room; none of this depends on segments before it. -/
theorem puts_initTable (n : Nat) (globals : Array Global) :
    Patch.Puts (initTable n globals) (ElementSegment.Fits n globals)
      (ElementSegment.patch? globals) Table.patch where
  nil x := rfl
  cons seg segs x y := by
    rw [initTable, exceptBind_eq_ok]
    constructor
    · rintro ⟨bits, hbits, h⟩
      split at h
      · contradiction
      · next hfind =>
        split at h
        · contradiction
        · next t ht =>
          obtain ⟨rfl, htable⟩ := getElem?_toList_eq_some.mp ht
          obtain ⟨t', ht', h⟩ := exceptBind_eq_ok.mp h
          obtain ⟨hroom, rfl⟩ := Table.writeSegment_eq_ok.mp ht'
          have hfuncs : ∀ f ∈ seg.funcs, f.toNat < n := by
            simpa [Array.find?_eq_none] using hfind
          have hpatch : seg.patch? globals = some ⟨bits.toNat, seg.funcs.toList⟩ :=
            (Patch.ofSegment_eq_some .element).mpr ⟨bits, hbits, rfl⟩
          exact ⟨t, _, rfl, ⟨htable, hfuncs, hpatch, hroom⟩, h⟩
    · rintro ⟨t, p, rfl, ⟨htable, hfuncs, hpatch, hroom⟩, h⟩
      obtain ⟨bits, hbits, rfl⟩ := (Patch.ofSegment_eq_some .element).mp hpatch
      have hfind : seg.funcs.find? (n ≤ ·.toNat) = none := by
        simpa [Array.find?_eq_none] using hfuncs
      have ht : (some t).toList[seg.table.toNat]? = some t :=
        getElem?_toList_eq_some.mpr ⟨rfl, htable⟩
      refine ⟨bits, hbits, ?_⟩
      simp only [hfind, ht]
      exact exceptBind_eq_ok.mpr ⟨_, Table.writeSegment_eq_ok.mpr ⟨hroom, rfl⟩, h⟩
  patch seg t p h := h.patch
  stable seg t p q := ⟨fun h => ⟨h.table, h.funcs, h.patch, h.room⟩,
    fun h => ⟨h.table, h.funcs, h.patch, h.room⟩⟩

/-- So is the loop over data segments. -/
theorem puts_initMemory (globals : Array Global) :
    Patch.Puts (initMemory globals) (DataSegment.Fits globals)
      (DataSegment.patch? globals) Memory.patch where
  nil x := rfl
  cons seg segs x y := by
    rw [initMemory, exceptBind_eq_ok]
    constructor
    · rintro ⟨bits, hbits, h⟩
      split at h
      · contradiction
      · next m hm =>
        obtain ⟨rfl, hmemory⟩ := getElem?_toList_eq_some.mp hm
        obtain ⟨m', hm', h⟩ := exceptBind_eq_ok.mp h
        obtain ⟨hroom, rfl⟩ := Memory.writeSegment_eq_ok.mp hm'
        have hpatch : seg.patch? globals = some ⟨bits.toNat, seg.bytes.toList⟩ :=
          (Patch.ofSegment_eq_some .data).mpr ⟨bits, hbits, rfl⟩
        exact ⟨m, _, rfl, ⟨hmemory, hpatch, hroom⟩, h⟩
    · rintro ⟨m, p, rfl, ⟨hmemory, hpatch, hroom⟩, h⟩
      obtain ⟨bits, hbits, rfl⟩ := (Patch.ofSegment_eq_some .data).mp hpatch
      have hm : (some m).toList[seg.memory.toNat]? = some m :=
        getElem?_toList_eq_some.mpr ⟨rfl, hmemory⟩
      refine ⟨bits, hbits, ?_⟩
      simp only [hm]
      exact exceptBind_eq_ok.mpr ⟨_, Memory.writeSegment_eq_ok.mpr ⟨hroom, rfl⟩, h⟩
  patch seg m p h := h.patch
  stable seg m p q := ⟨fun h => ⟨h.memory, h.patch, h.room⟩, fun h => ⟨h.memory, h.patch, h.room⟩⟩

/-- Functions are made of types and bodies alone. -/
theorem defineFuncs_congr {m m' : Module} (htypes : m.types = m'.types)
    (hcodes : m.codes = m'.codes) :
    defineFuncs m position ts funcs = defineFuncs m' position ts funcs := by
  induction ts generalizing position funcs with
  | nil => rfl
  | cons type ts ih => simp only [defineFuncs, defineFunc, htypes, hcodes, ih]

/-- Tables and memories are what the imports of them were looked up to be. -/
theorem Resolution.map_tables_memories {r r' : Resolved} (h : Resolution imports types is r r') :
    r'.tables.toList.map (fun t => Except.ok (Extern.table t)) =
        r.tables.toList.map (fun t => .ok (.table t)) ++
          (is.filter (·.desc.kind = .table)).map (lookup imports) ∧
      r'.memories.toList.map (fun m => Except.ok (Extern.memory m)) =
        r.memories.toList.map (fun m => .ok (.memory m)) ++
          (is.filter (·.desc.kind = .memory)).map (lookup imports) := by
  induction h with
  | nil r => simp
  | @cons i ext r r₁ rest r' hlookup haccept hrest ih =>
    rw [ih.1, ih.2]
    cases hdesc : i.desc <;> rw [hdesc] at haccept <;> cases haccept <;>
      simp [hdesc, ImportDesc.kind, hlookup]

end Link

/-! ## Linking -/

namespace Module

variable {m : Module} {imports : Imports} {s : IndexSpace}

/-- What the imports of a kind are looked up to be. -/
def lookups (m : Module) (imports : Imports) (kind : ExternKind) : List (Except LinkError Extern) :=
  (m.imports.toList.filter (·.desc.kind = kind)).map (Link.lookup imports)

/-- The tables that linking starts from: imported ones as they are, and empty ones of the module. -/
def initialTables (m : Module) (imports : Imports) : List (Except LinkError Extern) :=
  m.lookups imports .table ++ m.tables.toList.map fun limits => .ok (.table (.empty limits))

/-- The memories that linking starts from: imported ones as they are, and empty ones of the module.
-/
def initialMemories (m : Module) (imports : Imports) : List (Except LinkError Extern) :=
  m.lookups imports .memory ++ m.memories.toList.map fun limits => .ok (.memory (.empty limits))

/-- What the element segments put into the table, in their order. -/
def elementPatches (m : Module) (globals : Array Global) : List (Patch UInt32) :=
  m.elements.toList.filterMap (·.patch? globals)

/-- What the data segments put into the memory, in their order. -/
def dataPatches (m : Module) (globals : Array Global) : List (Patch UInt8) :=
  m.data.toList.filterMap (·.patch? globals)

/-- An index space has the table and the memory that linking starts from, filled by the segments. -/
structure Initialized (m : Module) (imports : Imports) (s : IndexSpace) : Prop where
  elements : ∀ seg ∈ m.elements, (seg.patch? s.globals).isSome
  data : ∀ seg ∈ m.data, (seg.patch? s.globals).isSome
  table : m.initialTables imports = [] ∧ s.table = none ∨
    ∃ t₀ t, m.initialTables imports = [.ok (.table t₀)] ∧ s.table = some t ∧
      Table.Filled (m.elementPatches s.globals) t₀ t
  memory : m.initialMemories imports = [] ∧ s.memory = none ∨
    ∃ memory₀ memory, m.initialMemories imports = [.ok (.memory memory₀)] ∧
      s.memory = some memory ∧ Memory.Filled (m.dataPatches s.globals) memory₀ memory

/-- Stages that go through make up a linking. -/
theorem link_of_stages {r : Link.Resolved} {table : Option Table} {memory : Option Memory}
    (hr : Link.resolve imports m.types m.imports.toList {} = .ok r)
    (htables : (r.tables ++ m.tables.map Table.empty).size ≤ 1)
    (hmemories : (r.memories ++ m.memories.map Memory.empty).size ≤ 1)
    (hglobals : Link.initGlobals m.globals.toList r.globals = .ok s.globals)
    (hfuncs : Link.defineFuncs m 0 m.funcs.toList r.funcs = .ok s.funcs)
    (htable : Link.initTable s.funcs.size s.globals m.elements.toList
      (r.tables ++ m.tables.map Table.empty)[0]? = .ok table)
    (hmemory : Link.initMemory s.globals m.data.toList
      (r.memories ++ m.memories.map Memory.empty)[0]? = .ok memory)
    (htable' : table.mapM Table.ensureMin = .ok s.table)
    (hmemory' : memory.mapM Memory.ensureMin = .ok s.memory) : m.link imports = .ok s := by
  refine exceptBind_eq_ok.mpr ⟨r, hr, ?_⟩
  dsimp only
  rw [if_neg (Nat.not_lt.mpr htables), if_neg (Nat.not_lt.mpr hmemories)]
  refine exceptBind_eq_ok.mpr ⟨_, hglobals, exceptBind_eq_ok.mpr ⟨_, hfuncs, ?_⟩⟩
  refine exceptBind_eq_ok.mpr ⟨_, htable, exceptBind_eq_ok.mpr ⟨_, hmemory, ?_⟩⟩
  exact exceptBind_eq_ok.mpr ⟨_, hmemory', exceptBind_eq_ok.mpr ⟨_, htable', rfl⟩⟩

/-- Linking goes on with the only thing of a kind that there is, if there is one: an import, or one
of the module, which starts empty. -/
theorem start_cases {toExtern : α → Extern} {resolved : Array α} {own : Array Limits}
    {empty : Limits → α} {put : α → α} {finish : α → Except ε β}
    (hresolved : resolved.toList.map (fun a => .ok (toExtern a)) = m.lookups imports kind)
    (hsize : (resolved ++ own.map empty).size ≤ 1)
    (h : ((resolved ++ own.map empty)[0]?.map put).mapM finish = .ok y) :
    let initial := m.lookups imports kind ++ own.toList.map fun l => .ok (toExtern (empty l))
    initial = [] ∧ y = none ∨
      ∃ a b, initial = [.ok (toExtern a)] ∧ y = some b ∧ finish (put a) = .ok b := by
  have hinitial : m.lookups imports kind ++ own.toList.map (fun l => .ok (toExtern (empty l))) =
      (resolved ++ own.map empty).toList.map fun a => .ok (toExtern a) := by
    rw [Array.toList_append, List.map_append, hresolved]
    simp [Function.comp_def]
  dsimp only
  rw [hinitial]
  generalize resolved ++ own.map empty = xs at hsize h
  obtain ⟨xs⟩ := xs
  match xs, hsize with
  | [], _ =>
    cases h
    exact .inl ⟨rfl, rfl⟩
  | [a], _ =>
    obtain ⟨hnone, -⟩ | ⟨_, b, ha, rfl, hb⟩ := optionMapM_eq_ok h
    · contradiction
    · cases ha
      exact .inr ⟨a, b, rfl, rfl, hb⟩

/-- Linking leads to the table and the memory in closed form. -/
theorem initialized_of_link (h : m.link imports = .ok s) : m.Initialized imports s := by
  obtain ⟨r, table, memory, hr, htables, hmemories, -, -, htable, hmemory, htable', hmemory'⟩ :=
    link_eq_ok h
  obtain ⟨hresolved, hresolved'⟩ := (Link.resolve_eq_ok hr).map_tables_memories
  have hputs := Link.puts_initTable s.funcs.size s.globals
  have hputs' := Link.puts_initMemory s.globals
  constructor
  case elements => simpa using hputs.isSome_patch? htable
  case data => simpa using hputs'.isSome_patch? hmemory
  case table =>
    obtain ⟨-, rfl⟩ := hputs.eq_ok_iff.mp htable
    obtain hnone | ⟨t₀, t, hone, hs, hmin⟩ := start_cases hresolved htables htable'
    · exact .inl hnone
    · exact .inr ⟨t₀, t, hone, hs, Table.filled_of_ensureMin hmin⟩
  case memory =>
    obtain ⟨-, rfl⟩ := hputs'.eq_ok_iff.mp hmemory
    obtain hnone | ⟨m₀, m, hone, hs, hmin⟩ := start_cases hresolved' hmemories hmemory'
    · exact .inl hnone
    · exact .inr ⟨m₀, m, hone, hs, Memory.filled_of_ensureMin hmin⟩

/-- Segments that fill the table and the memory like those of a module may stand in their place. -/
theorem link_of_segments {elements : Array ElementSegment} {data : Array DataSegment}
    (h : m.link imports = .ok s)
    (helements : ∀ {start table},
      Link.initTable s.funcs.size s.globals m.elements.toList start = .ok table →
        Link.initTable s.funcs.size s.globals elements.toList start = .ok table)
    (hdata : ∀ {start memory}, Link.initMemory s.globals m.data.toList start = .ok memory →
      Link.initMemory s.globals data.toList start = .ok memory) :
    { m with elements, data }.link imports = .ok s := by
  obtain ⟨r, table, memory, hr, htables, hmemories, hglobals, hfuncs, htable, hmemory, htable',
    hmemory'⟩ := link_eq_ok h
  exact link_of_stages hr htables hmemories hglobals (hfuncs ▸ Link.defineFuncs_congr rfl rfl)
    (helements htable) (hdata hmemory) htable' hmemory'

/-- Linking fills the table and the memory by the segments, each place by the last one that covers
it. Where no two segments of a kind meet, their order does not change what is linked. -/
theorem link_initialized (h : m.link imports = .ok s) :
    m.Initialized imports s ∧
      (∀ elements : Array ElementSegment, elements.toList.Perm m.elements.toList →
        (m.elementPatches s.globals).Pairwise Patch.Disjoint →
          { m with elements }.link imports = .ok s) ∧
      ∀ data : Array DataSegment, data.toList.Perm m.data.toList →
        (m.dataPatches s.globals).Pairwise Patch.Disjoint →
          { m with data }.link imports = .ok s :=
  ⟨initialized_of_link h,
    fun _ hperm hdisjoint => link_of_segments h
      ((Link.puts_initTable _ _).perm Table.commutes_patch hdisjoint hperm) id,
    fun _ hperm hdisjoint => link_of_segments h id
      ((Link.puts_initMemory _).perm Memory.commutes_patch hdisjoint hperm)⟩

/-- A module with element segments that overlap, and one that puts nothing far behind them. Of its
data segments one goes across the end of a page. -/
def overlapping : Module where
  types := #[⟨[], []⟩]
  imports := #[⟨"env", "table", .table ⟨1, none⟩⟩, ⟨"env", "base", .global ⟨.i32, false⟩⟩]
  funcs := #[0, 0, 0]
  memories := #[⟨1, some 2⟩]
  elements := #[⟨0, .i32Const 1, #[0, 1]⟩, ⟨0, ⟨.globalGet, #[0x00]⟩, #[2]⟩, ⟨0, .i32Const 6, #[]⟩]
  data := #[⟨0, .i32Const 65535, #[7, 8]⟩, ⟨0, .i32Const 3, #[9]⟩]
  codes := #[⟨#[], #[0x0B]⟩, ⟨#[], #[0x0B]⟩, ⟨#[], #[0x0B]⟩]

/-- What the imports of `overlapping` are looked up in. -/
def surroundings : Imports :=
  ⟨[("env", ⟨[("table", .table ⟨#[some 5, none, some 7, some 8], ⟨2, none⟩⟩),
    ("base", .global (.ofValue ⟨.i32, false⟩ (.i32 2)))]⟩)]⟩

/-- The globals of `overlapping`. -/
def overlappingGlobals : Array Global := #[.ofValue ⟨.i32, false⟩ (.i32 2)]

theorem elementPatches_overlapping :
    overlapping.elementPatches overlappingGlobals = [⟨1, [0, 1]⟩, ⟨2, [2]⟩, ⟨6, []⟩] := by
  cbv

theorem dataPatches_overlapping :
    overlapping.dataPatches overlappingGlobals = [⟨65535, [7, 8]⟩, ⟨3, [9]⟩] := by
  cbv

/-- The data segments fit into an empty memory, which then has room for its minimum. -/
theorem initMemory_overlapping : ∃ memory memory',
    Link.initMemory overlappingGlobals overlapping.data.toList (some (.empty ⟨1, some 2⟩)) =
      .ok (some memory) ∧ memory.ensureMin = .ok memory' := by
  have hfits : ∀ seg ∈ overlapping.data.toList, ∃ m p,
      some (Memory.empty ⟨1, some 2⟩) = some m ∧ seg.Fits overlappingGlobals m p := by
    have hpage : (⟨65535, [7, 8]⟩ : Patch UInt8).stop ≤ 2 * pageSize := by decide
    have hfirst : (⟨3, [9]⟩ : Patch UInt8).stop ≤ 2 * pageSize := by decide
    simp only [overlapping, List.forall_mem_cons]
    exact ⟨⟨_, ⟨65535, [7, 8]⟩, rfl, rfl, by cbv, hpage⟩, ⟨_, ⟨3, [9]⟩, rfl, rfl, by cbv, hfirst⟩,
      by simp⟩
  -- Whether there is room is a matter of the limits; no page has to be evaluated.
  have hlimits := Patch.keeps_foldl Memory.limits Memory.limits_patch
    (overlapping.dataPatches overlappingGlobals) (.empty ⟨1, some 2⟩)
  refine ⟨_, _, (Link.puts_initMemory overlappingGlobals).eq_ok_iff.mpr ⟨hfits, rfl⟩,
    Memory.ensureMin_eq_ok.mpr ⟨?_, rfl⟩⟩
  rw [Memory.cap, ← dataPatches, hlimits]
  decide

/-- All stages of the linking go through. -/
theorem exists_link_overlapping :
    ∃ s, overlapping.link surroundings = .ok s ∧ s.globals = overlappingGlobals := by
  obtain ⟨memory, memory', hdata, hmin⟩ := initMemory_overlapping
  have hstart : ((#[] : Array Memory) ++ overlapping.memories.map Memory.empty)[0]? =
      some (.empty ⟨1, some 2⟩) := by simp [overlapping]
  refine ⟨⟨?funcs, ?table, some memory', overlappingGlobals⟩, ?linked, rfl⟩
  case linked =>
    apply link_of_stages (r := ⟨#[], #[⟨#[some 5, none, some 7, some 8], ⟨2, none⟩⟩], #[],
      overlappingGlobals⟩)
    case hr => cbv
    case hglobals => cbv
    case hfuncs =>
      cbv
      rfl
    case htable => cbv
    case htable' =>
      cbv
      rfl
    case htables => simp [overlapping]
    case hmemories => simp [overlapping]
    case hmemory => exact hstart.symm ▸ hdata
    case hmemory' => exact exceptBind_eq_ok.mpr ⟨memory', hmin, rfl⟩

/-- Where two element segments meet, the later one counts. The data segment across the end of a page
adds one. -/
theorem link_initialized_overlapping : ∃ s t memory, overlapping.link surroundings = .ok s ∧
    s.table = some t ∧ t.size = 6 ∧ t.slots[1]? = some (some 0) ∧ t.slots[2]? = some (some 2) ∧
    t.slots[3]? = some (some 8) ∧ t.slots[4]? = some none ∧
    s.memory = some memory ∧ memory.pages = 2 ∧ memory.byte 65536 = 8 ∧ memory.byte 3 = 9 ∧
    memory.byte 4 = 0 ∧
    { overlapping with data := overlapping.data.reverse }.link surroundings = .ok s := by
  obtain ⟨s, hlink, hglobals⟩ := exists_link_overlapping
  obtain ⟨⟨-, -, htable, hmemory⟩, -, hdata⟩ := link_initialized hlink
  rw [hglobals, elementPatches_overlapping] at htable
  rw [hglobals, dataPatches_overlapping] at hmemory hdata
  have htables : overlapping.initialTables surroundings =
      [.ok (.table ⟨#[some 5, none, some 7, some 8], ⟨2, none⟩⟩)] := by cbv
  have hmemories : overlapping.initialMemories surroundings =
      [.ok (.memory (.empty ⟨1, some 2⟩))] := by
    simp [initialMemories, lookups, overlapping, ImportDesc.kind]
  obtain ⟨hnone, -⟩ | ⟨t₀, t, ht₀, ht, hslots⟩ := htable
  · cases htables.symm.trans hnone
  obtain ⟨hnone, -⟩ | ⟨m₀, memory, hm₀, hmemory, hbytes⟩ := hmemory
  · cases hmemories.symm.trans hnone
  cases htables.symm.trans ht₀
  cases hmemories.symm.trans hm₀
  have hsize : t.size = 6 := hslots.size
  have hreverse : overlapping.data.reverse.toList.Perm overlapping.data.toList := by
    rw [Array.toList_reverse]
    exact List.reverse_perm _
  have hdisjoint : Patch.Disjoint (⟨65535, [7, 8]⟩ : Patch UInt8) ⟨3, [9]⟩ :=
    (Patch.Disjoint.of_stop_le (by decide)).symm
  exact ⟨s, t, memory, hlink, ht, hsize, hslots.slots 1 (by omega), hslots.slots 2 (by omega),
    hslots.slots 3 (by omega), hslots.slots 4 (by omega), hmemory, hbytes.pages,
    hbytes.bytes 65536, hbytes.bytes 3, hbytes.bytes 4,
    hdata _ hreverse (List.pairwise_pair.mpr hdisjoint)⟩

end Module

end Wasm
