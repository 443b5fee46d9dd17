import Wasm.Proofs.Segments

/-!
# Wasm.Proofs.Growth

Memories and tables over any history of what can be done to them.

* `Edits.after` is the state after some edits, of which those that fail have no effect;
  `Edits.after_induction` carries an invariant along a history.
* `Memory.Edit` lists what changes a memory: growth, the declared minimum, data segments, stores,
  and writes by the host. `Memory.Edit.Exact` says when an edit fails, how far the memory then
  reaches and what its bytes are. It holds in a memory of whole pages below its cap
  (`Memory.Edit.exact`), and every history leads to such a memory (`Memory.paged_after`).
* `Table.Edit.Exact` says the same of tables, whose unit is a slot.
* `storage_history` puts these together.
-/

namespace Wasm

/-! ## Histories of edits -/

namespace Edits

variable {σ ε : Type} {apply : σ → ε → Option σ}

/-- The state after some edits. -/
def after (apply : σ → ε → Option σ) (s : σ) (edits : List ε) : σ :=
  edits.foldl (fun s e => (apply s e).getD s) s

/-- A history goes on from where an earlier one has come to. -/
theorem after_append (s : σ) (edits more : List ε) :
    after apply s (edits ++ more) = after apply (after apply s edits) more :=
  List.foldl_append

/-- What every edit that succeeds keeps holds after all edits. -/
theorem after_induction (P : σ → Prop) (hstep : ∀ s e s', P s → apply s e = some s' → P s')
    (hs : P s) (edits : List ε) : P (after apply s edits) := by
  induction edits generalizing s with
  | nil => exact hs
  | cons e edits ih =>
    have hnext : P ((apply s e).getD s) := by
      cases h : apply s e with
      | none => exact hs
      | some s' => exact hstep s e s' hs h
    exact ih hnext

/-- The outcome of an edit that fails exactly if it requires more than is available, and leads to a
state as described otherwise. -/
def Bounded (required available : Nat) (R : σ → Prop) : Option σ → Prop
  | none => available < required
  | some s => required ≤ available ∧ R s

/-- With enough available, there is a state as described. -/
theorem Bounded.exists_of_le {R : σ → Prop} (h : Bounded required available R o)
    (hroom : required ≤ available) : ∃ s, o = some s ∧ R s := by
  cases o with
  | none => exact absurd hroom (Nat.not_le.mpr h)
  | some s => exact ⟨s, rfl, h.2⟩

/-- Without, the edit fails. -/
theorem Bounded.eq_none_of_lt {R : σ → Prop} (h : Bounded required available R o)
    (hfull : available < required) : o = none := by
  cases o with
  | none => rfl
  | some s => exact absurd h.1 (Nat.not_le.mpr hfull)

/-- An edit that asks for room first is bounded by what it asks for. -/
theorem Bounded.of_ite {c : Prop} [Decidable c] {R : σ → Prop} (hroom : c ↔ required ≤ available)
    (hR : c → R s) : Bounded required available R (if c then some s else none) := by
  by_cases h : c
  · rw [if_pos h]
    exact ⟨hroom.mp h, hR h⟩
  · rw [if_neg h]
    exact Nat.lt_of_not_le fun hle => h (hroom.mpr hle)

/-- The same for one that fails with an error. -/
theorem Bounded.of_toOption {c : Prop} {x : Except α σ} {R : σ → Prop}
    (hok : ∀ s', x = .ok s' ↔ c ∧ s = s') (hroom : c ↔ required ≤ available) (hR : c → R s) :
    Bounded required available R x.toOption := by
  cases x with
  | error a =>
    have hnot : ¬ c := fun hc => by simpa using (hok s).mpr ⟨hc, rfl⟩
    exact Nat.lt_of_not_le fun hle => hnot (hroom.mpr hle)
  | ok s' =>
    obtain ⟨hc, rfl⟩ := (hok s').mp rfl
    exact ⟨hroom.mp hc, hR hc⟩

end Edits

/-! ## Memories -/

namespace Memory

/-- What is done to a memory. -/
inductive Edit where
  | grow (delta : UInt32)
  | ensureMin
  | writeSegment (offset : UInt32) (bytes : List UInt8)
  | store (address offset : UInt32) (bytes : List UInt8)
  | write (address : Nat) (bytes : List UInt8)
  | fill (b : UInt8)

/-- The most bytes that a memory with these limits may have. -/
def maxBytes (limits : Limits) : Nat :=
  65536 * min (limits.max.elim 65536 UInt32.toNat) 65536

/-- The memory is made of whole pages, at most as many as its limits allow. -/
structure Paged (m : Memory) : Prop where
  whole : 65536 ∣ m.size
  bounded : m.size ≤ maxBytes m.limits

namespace Edit

/-- Carry out an edit; `none` when it fails. -/
def apply (m : Memory) : Edit → Option Memory
  | grow delta => m.grow? delta.toNat
  | ensureMin => m.ensureMin.toOption
  | writeSegment offset bytes => (m.writeSegment offset bytes).toOption
  | store address offset bytes => (m.store address offset bytes).toOption
  | write address bytes => m.write? address bytes
  | fill b => some (m.fill b)

/-- The number of bytes that an edit requires. -/
def required (m : Memory) : Edit → Nat
  | grow delta => m.size + 65536 * delta.toNat
  | ensureMin => 65536 * m.limits.min.toNat
  | writeSegment offset bytes => offset.toNat + bytes.length
  | store address offset bytes => address.toNat + offset.toNat + bytes.length
  | write address bytes => address + bytes.length
  | fill _ => m.size

/-- The number of bytes that an edit can have: some extend the memory up to its cap, the others stay
inside it. -/
def available (m : Memory) : Edit → Nat
  | grow _ | ensureMin | writeSegment _ _ => maxBytes m.limits
  | store _ _ _ | write _ _ | fill _ => m.size

/-- The bytes that an edit writes, and where. -/
def patch (m : Memory) : Edit → Patch UInt8
  | grow _ | ensureMin => ⟨0, []⟩
  | writeSegment offset bytes => ⟨offset.toNat, bytes⟩
  | store address offset bytes => ⟨address.toNat + offset.toNat, bytes⟩
  | write address bytes => ⟨address, bytes⟩
  | fill b => ⟨0, List.replicate m.size b⟩

/-- The memory after an edit that succeeds: extended by whole pages to what the edit requires, with
what it writes, the bytes that were there, and zeros elsewhere. -/
structure Result (m : Memory) (e : Edit) (m' : Memory) : Prop where
  limits : m'.limits = m.limits
  size : m'.size = max m.size (65536 * (e.required m ⌈/⌉ 65536))
  written : ∀ i b, (e.patch m).item? i = some b → m'.byte i = b
  kept : ∀ i < m.size, (e.patch m).item? i = none → m'.byte i = m.byte i
  zero : ∀ i ≥ m.size, (e.patch m).item? i = none → m'.byte i = 0

/-- An edit fails exactly if it requires more bytes than it can have. -/
def Exact (m : Memory) (e : Edit) : Prop :=
  Edits.Bounded (e.required m) (e.available m) (e.Result m) (e.apply m)

end Edit

/-- The memory with the given limits after some edits. -/
def after (limits : Limits) (edits : List Edit) : Memory :=
  Edits.after Edit.apply (empty limits) edits

/-- The cap in bytes. -/
theorem cap_mul_pageSize (m : Memory) : m.cap * pageSize = maxBytes m.limits := by
  rw [Nat.mul_comm, maxBytes, cap]
  cases m.limits.max <;> rfl

theorem covers_iff (m : Memory) : m.covers address length ↔ address + length ≤ m.size :=
  decide_eq_true_iff

/-- A store is made if all its bytes lie inside the memory. -/
theorem store_eq_ok {m m' : Memory} : m.store address offset bytes = .ok m' ↔
    address.toNat + offset.toNat + bytes.length ≤ m.size ∧
      m.write (effective address offset) bytes = m' := by
  have hcovers : m.covers (effective address offset) bytes.length ↔
      address.toNat + offset.toNat + bytes.length ≤ m.size := m.covers_iff
  rw [← hcovers, store]
  by_cases h : m.covers (effective address offset) bytes.length
  · simp [h]
  · simp [h]

theorem byte_of_size_le {m : Memory} (h : m.size ≤ i) : m.byte i = 0 :=
  dif_neg (Nat.not_lt.mpr h)

theorem byte_extend (m : Memory) (n i : Nat) : (m.extend n).byte i = m.byte i :=
  byteAt_addPages _ _ _

/-- A write replaces the bytes in its range. -/
theorem byte_write (m : Memory) (h : address + bytes.length ≤ m.size) (i : Nat) :
    (m.write address bytes).byte i =
      ((⟨address, bytes⟩ : Patch UInt8).item? i).getD (m.byte i) :=
  byteAt_putBytes m.data h

namespace Paged

variable {m : Memory}

theorem size_eq_pages (hm : m.Paged) : m.size = 65536 * m.pages :=
  (Nat.mul_div_cancel' hm.whole).symm

/-- In a memory of whole pages, there is no rest to be carried along. -/
theorem size_extend (hm : m.Paged) (n : Nat) : (m.extend n).size = max m.size (65536 * n) := by
  have hsize := hm.size_eq_pages
  simp only [Memory.size_extend, pageSize]
  omega

/-- Bytes inside a memory are inside its pages. -/
theorem ceilDiv_le (hm : m.Paged) (h : n ≤ m.size) : 65536 * (n ⌈/⌉ 65536) ≤ m.size := by
  have hsize := hm.size_eq_pages
  rw [Nat.ceilDiv_eq_add_pred_div]
  omega

end Paged

namespace Edit

variable {m m' : Memory} {e : Edit}

/-- It is enough to know each byte: as written, or as it was. -/
theorem Result.of_byte (hlimits : m'.limits = m.limits)
    (hsize : m'.size = max m.size (65536 * (e.required m ⌈/⌉ 65536)))
    (hbyte : ∀ i, m'.byte i = ((e.patch m).item? i).getD (m.byte i)) : e.Result m m' where
  limits := hlimits
  size := hsize
  written i b h := by rw [hbyte, h, Option.getD_some]
  kept i _ h := by rw [hbyte, h, Option.getD_none]
  zero i hi h := by rw [hbyte, h, Option.getD_none, byte_of_size_le hi]

/-- What only extends the memory adds pages of zeros. -/
theorem result_extend (hm : m.Paged) (hrequired : e.required m ⌈/⌉ 65536 = n)
    (hpatch : e.patch m = ⟨0, []⟩) : e.Result m (m.extend n) := by
  have hsize : (m.extend n).size = max m.size (65536 * (e.required m ⌈/⌉ 65536)) := by
    rw [hm.size_extend, hrequired]
  exact .of_byte rfl hsize fun i => by simp [byte_extend, hpatch, Patch.item?_nil]

/-- What only writes leaves the memory as long as it is. -/
theorem result_write (hm : m.Paged) (hrequired : e.required m = (e.patch m).stop)
    (h : (e.patch m).stop ≤ m.size) :
    e.Result m (m.write (e.patch m).offset (e.patch m).items) := by
  have hpages := hm.ceilDiv_le h
  have hsize : m.size = max m.size (65536 * (e.required m ⌈/⌉ 65536)) := by
    rw [hrequired]
    omega
  exact .of_byte rfl ((size_write _ _ _).trans hsize) fun i => m.byte_write h i

/-- What writes past the end adds as many pages as it needs. -/
theorem result_patch (hm : m.Paged) (hrequired : e.required m = (e.patch m).stop) :
    e.Result m (m.patch (e.patch m)) := by
  have hsize := hm.size_eq_pages
  refine .of_byte (m.limits_patch _) ?_ fun i => m.byte_patch _ i
  simp only [size_patch, pagesFor, hrequired, pageSize]
  omega

/-- Growth requires the bytes that it adds. -/
theorem exact_grow (hm : m.Paged) (delta : UInt32) : (grow delta).Exact m := by
  have hsize := hm.size_eq_pages
  have hcap := m.cap_mul_pageSize
  have hroom : m.canGrow delta.toNat ↔ m.size + 65536 * delta.toNat ≤ maxBytes m.limits := by
    simp only [canGrow, decide_eq_true_eq]
    rw [pageSize] at hcap
    omega
  refine .of_ite hroom fun _ => result_extend hm ?_ rfl
  simp only [required, Nat.ceilDiv_eq_add_pred_div]
  omega

/-- The declared minimum may lie past the cap, and then it is refused. -/
theorem exact_ensureMin (hm : m.Paged) : ensureMin.Exact m := by
  have hcap := m.cap_mul_pageSize
  have hroom : m.limits.min.toNat ≤ m.cap ↔ 65536 * m.limits.min.toNat ≤ maxBytes m.limits := by
    rw [pageSize] at hcap
    omega
  refine .of_toOption (fun _ => ensureMin_eq_ok) hroom fun _ => result_extend hm ?_ rfl
  simp only [required, Nat.ceilDiv_eq_add_pred_div]
  omega

/-- A segment requires the bytes up to its end, even if it is empty. -/
theorem exact_writeSegment (hm : m.Paged) (offset : UInt32) (bytes : List UInt8) :
    (writeSegment offset bytes).Exact m := by
  refine .of_toOption (fun _ => writeSegment_eq_ok) ?_ fun _ => result_patch hm rfl
  simp only [required, available, cap_mul_pageSize, Patch.stop]

/-- In a memory of whole pages every edit is exact. -/
theorem exact (hm : m.Paged) (e : Edit) : e.Exact m := by
  cases e with
  | grow delta => exact exact_grow hm delta
  | ensureMin => exact exact_ensureMin hm
  | writeSegment offset bytes => exact exact_writeSegment hm offset bytes
  | store address offset bytes =>
    exact .of_toOption (fun _ => store_eq_ok) Iff.rfl fun h => result_write hm rfl h
  | write address bytes =>
    exact .of_ite m.covers_iff fun h => result_write hm rfl (m.covers_iff.mp h)
  | fill b =>
    have hstop : ((fill b).patch m).stop = m.size := by simp [patch, Patch.stop]
    exact ⟨Nat.le_refl _, result_write hm hstop.symm (Nat.le_of_eq hstop)⟩

/-- An edit keeps the pages whole and below the cap. -/
theorem Result.paged (h : e.Result m m') (hm : m.Paged)
    (hroom : e.required m ≤ e.available m) : m'.Paged := by
  have havailable : e.available m ≤ maxBytes m.limits := by
    cases e <;> simp [available, hm.bounded]
  have hpages : e.required m ⌈/⌉ 65536 ≤ min (m.limits.max.elim 65536 UInt32.toNat) 65536 :=
    (ceilDiv_le_iff_le_mul (by decide)).mpr (Nat.le_trans hroom havailable)
  constructor
  · rw [h.size]
    obtain hmax | hmax := max_choice m.size (65536 * (e.required m ⌈/⌉ 65536))
    · rw [hmax]
      exact hm.whole
    · rw [hmax]
      exact Nat.dvd_mul_right _ _
  · rw [h.size, h.limits]
    exact Nat.max_le.mpr ⟨hm.bounded, Nat.mul_le_mul_left 65536 hpages⟩

/-- What an edit that succeeds leaves behind. -/
theorem result_of_apply (hm : m.Paged) (h : e.apply m = some m') : m'.Paged ∧ e.Result m m' := by
  have hexact := e.exact hm
  rw [Exact, h] at hexact
  exact ⟨hexact.2.paged hm hexact.1, hexact.2⟩

end Edit

/-- Every history leads to a memory of whole pages below the cap. -/
theorem paged_after (limits : Limits) (edits : List Edit) :
    (after limits edits).Paged ∧ (after limits edits).limits = limits := by
  have hempty : (empty limits).Paged := ⟨⟨0, rfl⟩, Nat.zero_le _⟩
  refine Edits.after_induction (fun m : Memory => m.Paged ∧ m.limits = limits)
    (fun m e m' hm h => ?_) ⟨hempty, rfl⟩ edits
  have hresult := Edit.result_of_apply hm.1 h
  exact ⟨hresult.1, hresult.2.limits.trans hm.2⟩

/-- A memory never gets shorter. -/
theorem size_le_after (limits : Limits) (edits more : List Edit) :
    (after limits edits).size ≤ (after limits (edits ++ more)).size := by
  have hstart := (paged_after limits edits).1
  rw [after, after, Edits.after_append]
  refine (Edits.after_induction (fun m : Memory => m.Paged ∧ (after limits edits).size ≤ m.size)
    (fun m e m' hm h => ?_) ⟨hstart, Nat.le_refl _⟩ more).2
  have hresult := Edit.result_of_apply hm.1 h
  have hsize := hresult.2.size
  exact ⟨hresult.1, by omega⟩

end Memory

/-! ### The instruction that grows the memory -/

/-- In a scope with this memory, `memory.grow` leaves all ones if and only if the growth is refused,
and the previous number of pages otherwise. -/
def Memory.GrowsExactly (m : Memory) : Prop :=
  ∀ (s : Scope) (below : Array UInt64) (c : UInt64), s.space.memory = some m →
    s.stack.cells = below.push c → s.stack.cells.size ≤ s.stack.limit →
    ∃ top : UInt32,
      PlainInstr.memoryGrow.exec s = .ok () { s with
        space.memory := some ((m.grow? c.toUInt32.toNat).getD m)
        stack.cells := below.push top.toUInt64 } ∧
      (top = -1 ↔ m.grow? c.toUInt32.toNat = none) ∧
      ∀ m', m.grow? c.toUInt32.toNat = some m' → top.toNat = m.pages

namespace Exec

variable {s : Scope} {m : Memory}

/-- Growth of a memory that is there. -/
theorem growMemory_eq (hmemory : s.space.memory = some m) (delta : Nat) :
    growMemory delta s = .ok () { s with space.memory := some ((m.grow? delta).getD m) } := by
  obtain ⟨⟨funcs, table, memory, globals⟩, stack, locals⟩ := s
  obtain rfl : memory = some m := hmemory
  rfl

/-- The instruction asks whether there is room, and leaves the answer. -/
theorem memoryGrow_eq (hmemory : s.space.memory = some m) (hcells : s.stack.cells = below.push c) :
    memoryGrow s = (if m.canGrow c.toUInt32.toNat then do
        growMemory c.toUInt32.toNat
        push (.ofNat m.pages)
      else push 0xFFFFFFFF) (s.withCells below) := by
  rw [memoryGrow, pop32_bind hcells, readMemory_bind_of_ok (s := s.withCells below)
    (f := fun m => .ok (if m.canGrow c.toUInt32.toNat then some m.pages else none)) hmemory rfl]
  by_cases h : m.canGrow c.toUInt32.toNat
  · simp only [if_pos h]
  · simp only [if_neg h]

end Exec

/-- The number of pages fits an answer, and is never all ones. -/
theorem Memory.Paged.pages_le {m : Memory} (hm : m.Paged) : m.pages ≤ 65536 := by
  have hbound := hm.bounded
  have hsize := hm.size_eq_pages
  rw [maxBytes] at hbound
  omega

/-- In a memory of whole pages, the instruction is exact. -/
theorem Memory.Paged.growsExactly {m : Memory} (hm : m.Paged) : m.GrowsExactly := by
  intro s below c hmemory hcells hlimit
  have hroom : below.size < s.stack.limit := by
    rw [hcells, Array.size_push] at hlimit
    exact hlimit
  have hpages := hm.pages_le
  rw [PlainInstr.exec, Exec.memoryGrow_eq hmemory hcells]
  generalize c.toUInt32.toNat = delta
  by_cases hgrow : m.canGrow delta
  · have hgrown : m.grow? delta = some (m.extend (m.pages + delta)) := if_pos hgrow
    have htop : (UInt32.ofNat m.pages).toNat = m.pages :=
      UInt32.toNat_ofNat_of_lt' (by simp only [UInt32.size]; omega)
    have hcell : (UInt32.ofNat m.pages).toUInt64 = .ofNat m.pages := by
      rw [← UInt64.toNat_inj, UInt32.toNat_toUInt64, htop]
      exact (UInt64.toNat_ofNat_of_lt' (by simp only [UInt64.size]; omega)).symm
    -- All ones is no number of pages.
    have hne : UInt32.ofNat m.pages ≠ -1 := by
      intro heq
      have hones : (-1 : UInt32).toNat = 4294967295 := rfl
      rw [heq] at htop
      omega
    refine ⟨.ofNat m.pages, ?_, by simp [hne, hgrown], fun _ _ => htop⟩
    rw [if_pos hgrow, hcell]
    simp only [Bind.bind, EStateM.bind, Exec.growMemory_eq (s := s.withCells below) hmemory]
    exact Exec.push_of_lt (s := { s.withCells below with space.memory := _ }) hroom _
  · have hrefused : m.grow? delta = none := if_neg hgrow
    have hspace : s.space = { s.space with memory := some m } := by rw [← hmemory]
    refine ⟨-1, ?_, by simp [hrefused], by simp [hrefused]⟩
    rw [if_neg hgrow, hrefused, Option.getD_none, ← hspace]
    exact Exec.push_of_lt (s := s.withCells below) hroom _

/-! ## Tables -/

namespace Table

/-- What is done to a table. -/
inductive Edit where
  | ensureMin
  | writeSegment (offset : UInt32) (funcs : List UInt32)

/-- The most slots that a table with these limits may have. -/
def maxSlots (limits : Limits) : Nat := limits.max.elim 4294967295 UInt32.toNat

namespace Edit

/-- Carry out an edit; `none` when it fails. -/
def apply (t : Table) : Edit → Option Table
  | ensureMin => t.ensureMin.toOption
  | writeSegment offset funcs => (t.writeSegment offset funcs).toOption

/-- The number of slots that an edit requires. -/
def required (t : Table) : Edit → Nat
  | ensureMin => t.limits.min.toNat
  | writeSegment offset funcs => offset.toNat + funcs.length

/-- The function indices that an edit writes, and where. -/
def patch : Edit → Patch UInt32
  | ensureMin => ⟨0, []⟩
  | writeSegment offset funcs => ⟨offset.toNat, funcs⟩

/-- The table after an edit that succeeds: extended to what the edit requires, with what it writes,
what was there, and empty slots elsewhere. -/
structure Result (t : Table) (e : Edit) (t' : Table) : Prop where
  limits : t'.limits = t.limits
  size : t'.size = max t.size (e.required t)
  written : ∀ i f, e.patch.item? i = some f → t'.slots[i]? = some (some f)
  kept : ∀ i < t.size, e.patch.item? i = none → t'.slots[i]? = t.slots[i]?
  null : ∀ i ≥ t.size, i < t'.size → e.patch.item? i = none → t'.slots[i]? = some none

/-- An edit fails exactly if it requires more slots than the table may have. -/
def Exact (t : Table) (e : Edit) : Prop :=
  Edits.Bounded (e.required t) (maxSlots t.limits) (e.Result t) (e.apply t)

end Edit

/-- The table with the given limits after some edits. -/
def after (limits : Limits) (edits : List Edit) : Table :=
  Edits.after Edit.apply (empty limits) edits

/-- The cap in slots. -/
theorem cap_eq_maxSlots (t : Table) : t.cap = maxSlots t.limits := by
  rw [cap, maxSlots]
  cases t.limits.max <;> rfl

/-- It fits 32 bits. -/
theorem maxSlots_lt (limits : Limits) : maxSlots limits < UInt32.size := by
  rw [maxSlots]
  cases limits.max with
  | none => decide
  | some max => exact max.toNat_lt

theorem slot_of_size_le {t : Table} (h : t.size ≤ i) : t.slot i = none := by
  rw [slot, Array.getElem?_eq_none h, Option.join_none]

namespace Edit

variable {t t' : Table} {e : Edit}

/-- A table whose slots are those of a patch or those that were there. -/
theorem Result.of_slot (hlimits : t'.limits = t.limits)
    (hsize : t'.size = max t.size (e.required t))
    (hslot : ∀ i, t'.slot i = (e.patch.item? i).or (t.slot i)) : e.Result t t' where
  limits := hlimits
  size := hsize
  written i f h := by
    have hi := hslot i
    rw [h, Option.some_or] at hi
    exact Option.join_eq_some_iff.mp hi
  kept i hi h := by
    have hi' : i < t'.size := by omega
    rw [getElem?_of_slot hi', getElem?_of_slot hi, hslot, h, Option.none_or]
  null i hi hi' h := by
    rw [getElem?_of_slot hi', hslot, h, Option.none_or, slot_of_size_le hi]

/-- Every edit of a table is exact. -/
theorem exact (t : Table) (e : Edit) : e.Exact t := by
  cases e with
  | ensureMin =>
    refine .of_toOption (fun _ => ensureMin_eq_ok) (by rw [t.cap_eq_maxSlots]; rfl) fun _ =>
      .of_slot rfl (t.size_extend _) fun i => ?_
    rw [slot_extend, patch, Patch.item?_nil, Option.none_or]
  | writeSegment offset funcs =>
    exact .of_toOption (fun _ => writeSegment_eq_ok) (by rw [t.cap_eq_maxSlots]; rfl) fun _ =>
      .of_slot rfl (t.size_patch _) fun i => t.slot_patch _ i

/-- What an edit that succeeds leaves behind. -/
theorem result_of_apply (h : e.apply t = some t') :
    e.required t ≤ maxSlots t.limits ∧ e.Result t t' := by
  have hexact := e.exact t
  rwa [Exact, h] at hexact

end Edit

/-- Every history leads to a table within its limits. -/
theorem size_after_le (limits : Limits) (edits : List Edit) :
    (after limits edits).size ≤ maxSlots limits ∧ (after limits edits).limits = limits := by
  have hempty : (empty limits).size ≤ maxSlots limits := Nat.zero_le _
  refine Edits.after_induction (fun t : Table => t.size ≤ maxSlots limits ∧ t.limits = limits)
    (fun t e t' ht h => ?_) ⟨hempty, rfl⟩ edits
  have hresult := Edit.result_of_apply h
  have hsize := hresult.2.size
  rw [ht.2] at hresult
  exact ⟨by omega, hresult.2.limits.trans ht.2⟩

/-- A table never gets shorter. -/
theorem size_le_after (limits : Limits) (edits more : List Edit) :
    (after limits edits).size ≤ (after limits (edits ++ more)).size := by
  rw [after, after, Edits.after_append]
  refine Edits.after_induction (fun t : Table => (after limits edits).size ≤ t.size)
    (fun t e t' ht h => ?_) (Nat.le_refl _) more
  have hsize := (Edit.result_of_apply h).2.size
  omega

end Table

/-! ## Both -/

/-- After some edits a memory is made of whole pages below its cap, has not become shorter, and does
exactly what the next edit asks for, or nothing when that fails. -/
structure Memory.Tracks (limits : Limits) (edits : List Edit) : Prop where
  whole : 65536 ∣ (after limits edits).size
  bounded : (after limits edits).size ≤ 65536 * min (limits.max.elim 65536 UInt32.toNat) 65536
  grows : ∀ more, (after limits edits).size ≤ (after limits (edits ++ more)).size
  next : ∀ e, after limits (edits ++ [e]) = (e.apply (after limits edits)).getD (after limits edits)
  exact : ∀ e : Edit, e.Exact (after limits edits)
  instruction : (after limits edits).GrowsExactly

/-- After some edits a table is within its limits, so that 32 bits hold its size, has not become
shorter, and does exactly what the next edit asks for, or nothing when that fails. -/
structure Table.Tracks (limits : Limits) (edits : List Edit) : Prop where
  bounded : (after limits edits).size ≤ limits.max.elim 4294967295 UInt32.toNat
  size : (UInt32.ofNat (after limits edits).size).toNat = (after limits edits).size
  grows : ∀ more, (after limits edits).size ≤ (after limits (edits ++ more)).size
  next : ∀ e, after limits (edits ++ [e]) = (e.apply (after limits edits)).getD (after limits edits)
  exact : ∀ e : Edit, e.Exact (after limits edits)

/-- Memories and tables keep their shape over every history of edits, and each edit does exactly
what it should or nothing. -/
theorem storage_history (limits : Limits) :
    (∀ edits, Memory.Tracks limits edits) ∧ ∀ edits, Table.Tracks limits edits := by
  constructor
  · intro edits
    obtain ⟨hpaged, hlimits⟩ := Memory.paged_after limits edits
    have hbound := hpaged.bounded
    rw [hlimits] at hbound
    exact ⟨hpaged.whole, hbound, Memory.size_le_after limits edits,
      fun e => Edits.after_append _ edits [e], fun e => e.exact hpaged, hpaged.growsExactly⟩
  · intro edits
    have hbound := (Table.size_after_le limits edits).1
    have hsize := Nat.lt_of_le_of_lt hbound (Table.maxSlots_lt limits)
    exact ⟨hbound, UInt32.toNat_ofNat_of_lt' hsize, Table.size_le_after limits edits,
      fun e => Edits.after_append _ edits [e], fun e => e.exact _⟩

/-- An edit that gets the bytes it requires is the next one of the history. -/
theorem Memory.Tracks.result {limits : Limits} {edits : List Edit} (h : Tracks limits edits)
    (e : Edit)
    (hroom : e.required (after limits edits) ≤ e.available (after limits edits)) :
    e.Result (after limits edits) (after limits (edits ++ [e])) := by
  obtain ⟨m', happly, hresult⟩ := (h.exact e).exists_of_le hroom
  rw [h.next, happly]
  exact hresult

/-- A scope with a memory and one operand, and with no room for another one. -/
def Memory.scope (m : Memory) (operand : UInt64) : Scope :=
  ⟨⟨#[], none, some m, #[]⟩, ⟨#[operand], 1⟩, #[]⟩

section

variable {limits : Limits} {edits : List Memory.Edit} (h : Memory.Tracks limits edits) {c : UInt64}

include h

/-- If there is room, the next edit may be to grow. -/
theorem Memory.Tracks.result_grow (hroom : (after limits edits).size + 65536 * c.toUInt32.toNat ≤
      maxBytes (after limits edits).limits) :
    (Edit.grow c.toUInt32).Result (after limits edits)
      (after limits (edits ++ [.grow c.toUInt32])) :=
  h.result (.grow c.toUInt32) hroom

/-- `memory.grow` is that edit. -/
theorem Memory.Tracks.exec_of_le (hroom : (after limits edits).size + 65536 * c.toUInt32.toNat ≤
      maxBytes (after limits edits).limits) :
    PlainInstr.memoryGrow.exec ((after limits edits).scope c) =
      .ok () ((after limits (edits ++ [.grow c.toUInt32])).scope
        (UInt32.ofNat (after limits edits).pages).toUInt64) := by
  obtain ⟨m', happly, -⟩ := (h.exact (.grow c.toUInt32)).exists_of_le hroom
  obtain ⟨top, hexec, -, htop⟩ :=
    h.instruction ((after limits edits).scope c) #[] c rfl rfl (Nat.le_refl 1)
  have hgrown : (after limits edits).grow? c.toUInt32.toNat = some m' := happly
  rw [hexec, h.next, happly, hgrown, ← htop m' hgrown, UInt32.ofNat_toNat]
  rfl

/-- Without room, `memory.grow` leaves the memory as it is. -/
theorem Memory.Tracks.exec_of_lt (hfull : maxBytes (after limits edits).limits <
      (after limits edits).size + 65536 * c.toUInt32.toNat) :
    PlainInstr.memoryGrow.exec ((after limits edits).scope c) =
      .ok () ((after limits edits).scope 0xFFFFFFFF) := by
  have hrefused : (after limits edits).grow? c.toUInt32.toNat = none :=
    (h.exact (.grow c.toUInt32)).eq_none_of_lt hfull
  obtain ⟨top, hexec, htop, -⟩ :=
    h.instruction ((after limits edits).scope c) #[] c rfl rfl (Nat.le_refl 1)
  obtain rfl := htop.mpr hrefused
  rw [hexec, hrefused]
  rfl

end

/-- A memory of one page, which may have three. A segment that runs past the end adds the second
one, `memory.grow` the third one, and then it refuses to. A table with room for one slot takes no
segment that needs two. -/
theorem storage_history_pages :
    let m := Memory.after ⟨1, some 3⟩ [.ensureMin, .writeSegment 65535 [7, 8]]
    m.size = 131072 ∧ m.byte 65535 = 7 ∧ m.byte 65536 = 8 ∧ m.byte 65537 = 0 ∧
    (∃ m' : Memory, PlainInstr.memoryGrow.exec (m.scope 1) = .ok () (m'.scope 2) ∧
      m'.size = 196608 ∧ m'.byte 65536 = 8 ∧ m'.byte 131072 = 0 ∧
      PlainInstr.memoryGrow.exec (m'.scope 1) = .ok () (m'.scope 0xFFFFFFFF)) ∧
    (Table.after ⟨0, some 1⟩ [.writeSegment 0 [7, 8], .writeSegment 1 []]).slots = #[none] := by
  obtain ⟨htracks, -⟩ := storage_history ⟨1, some 3⟩
  have hmax : ∀ edits, Memory.maxBytes (Memory.after ⟨1, some 3⟩ edits).limits = 196608 := by
    intro edits
    rw [(Memory.paged_after ⟨1, some 3⟩ edits).2]
    rfl
  have hfirst := (htracks []).result .ensureMin (by decide)
  have hone : (Memory.after ⟨1, some 3⟩ [.ensureMin]).size = 65536 := hfirst.size
  have hsecond := (htracks [.ensureMin]).result (.writeSegment 65535 [7, 8])
    (by simp [Memory.Edit.required, Memory.Edit.available, hmax])
  have htwo : (Memory.after ⟨1, some 3⟩
      [.ensureMin, .writeSegment 65535 [7, 8]]).size = 131072 := by
    refine hsecond.size.trans ?_
    rw [hone, Nat.ceilDiv_eq_add_pred_div]
    decide
  have hkept := hsecond.written 65536 8 rfl
  have hroom : (Memory.after ⟨1, some 3⟩ [.ensureMin, .writeSegment 65535 [7, 8]]).size +
      65536 * (1 : UInt64).toUInt32.toNat ≤ Memory.maxBytes
        (Memory.after ⟨1, some 3⟩ [.ensureMin, .writeSegment 65535 [7, 8]]).limits := by
    rw [hmax, htwo]
    decide
  have hthird := (htracks _).result_grow hroom
  have hthree : (Memory.after ⟨1, some 3⟩ ([.ensureMin, .writeSegment 65535 [7, 8]] ++
      [.grow (1 : UInt64).toUInt32])).size = 196608 := by
    refine hthird.size.trans ?_
    rw [Memory.Edit.required, htwo, Nat.ceilDiv_eq_add_pred_div]
    decide
  refine ⟨htwo, hsecond.written 65535 7 rfl, hkept,
    hsecond.zero 65537 (by simp [hone]) rfl, ⟨_, ?_, hthree, ?_, ?_, ?_⟩, by decide⟩
  · have hpages : (UInt32.ofNat (Memory.after ⟨1, some 3⟩
        [.ensureMin, .writeSegment 65535 [7, 8]]).pages).toUInt64 = 2 := by
      rw [Memory.pages, htwo]
      decide
    rw [(htracks _).exec_of_le hroom, hpages]
  · exact (hthird.kept 65536 (by simp [htwo]) rfl).trans hkept
  · exact hthird.zero 131072 (by simp [htwo]) rfl
  · exact (htracks _).exec_of_lt (by rw [hmax, hthree]; decide)

end Wasm
