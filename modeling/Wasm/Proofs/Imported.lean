import Wasm.Linker
import Wasm.Proofs.Limits

/-!
# Wasm.Proofs.Imported

What imports keep of the things that an instance exports. Functions are shared and tables are
copied, with the indices that stand in them; what these refer to is up to the instance that imports
them.

* `Import.Takes`: an import is resolved to what an instance exports.
* `ElementSegment.Writes` and `Link.getElem?_initTable`: a slot into which no segment writes keeps
  its index. So it denotes what it did exactly if that index refers to the same function
  (`keepsSlot_iff_of_link`).
* `Instance.touched` is what an execution refers to. Where both instances have the same there, a
  function that is imported does what it does in the instance that exports it
  (`call_imported_of_same`).
-/

namespace Wasm

/-! ## Exports -/

namespace NameMap

variable {α β : Type}

/-- The first entry of a name stays the first one of it. -/
theorem findEntry_filterMap {f : α → Option β} {es : List (String × α)}
    (h : findEntry name es = some a) (hf : f a = some b) :
    findEntry name (es.filterMap fun (key, a) => (f a).map (key, ·)) = some b := by
  induction es with
  | nil => contradiction
  | cons e es ih =>
    obtain ⟨key, a'⟩ := e
    simp only [findEntry] at h
    split at h
    · next hkey =>
      cases h
      simp [hf, findEntry, hkey]
    · next hkey =>
      cases ha' : f a' with
      | none => simpa [ha'] using ih h
      | some b' => simpa [ha', findEntry, hkey] using ih h

theorem mem_of_findEntry {es : List (String × α)} (h : findEntry name es = some a) :
    (name, a) ∈ es := by
  induction es with
  | nil => contradiction
  | cons e es ih =>
    simp only [findEntry] at h
    split at h
    · next hkey =>
      cases h
      simp [← hkey]
    · exact List.mem_cons_of_mem e (ih h)

end NameMap

namespace Instance

/-- What an export refers to can be imported. -/
theorem externs_get?_of_exports {i : Instance} (h : i.exports.get? name = some ref)
    (hext : i.space.get? ref.kind ref.index.toNat = some ext) :
    i.externs.get? name = some ext :=
  NameMap.findEntry_filterMap (f := fun ref : ExportRef => i.space.get? ref.kind ref.index.toNat) h
    hext

/-- The table that can be imported is that of the instance. -/
theorem table_of_externs_get? {i : Instance} (h : i.externs.get? name = some (.table t)) :
    i.space.table = some t := by
  obtain ⟨⟨key, ref⟩, -, href⟩ := List.mem_filterMap.mp (NameMap.mem_of_findEntry h)
  obtain ⟨ext, hext, heq⟩ := Option.map_eq_some_iff.mp href
  obtain ⟨-, rfl⟩ := Prod.mk.inj heq
  unfold IndexSpace.get? at hext
  split at hext <;> obtain ⟨_, hget, hext⟩ := Option.map_eq_some_iff.mp hext <;> cases hext
  exact Option.mem_toList.mp (List.mem_of_getElem? hget)

end Instance

/-- An import is resolved to what an instance exports under a name. -/
structure Import.Takes (imports : Imports) (i : Instance) (name : String) (ext : Extern)
    (imp : Import) : Prop where
  exported : i.externs.get? name = some ext
  found : Link.lookup imports imp = .ok ext

/-! ## Imported tables -/

namespace Link

/-- Tables that were resolved do not get lost, and each that was looked up is among them. -/
theorem Resolution.mem_tables {r r' : Resolved} (h : Resolution imports types is r r') :
    (∀ t ∈ r.tables, t ∈ r'.tables) ∧
      ∀ i ∈ is, ∀ t, lookup imports i = .ok (.table t) → t ∈ r'.tables := by
  induction h with
  | nil r => exact ⟨fun _ ht => ht, by simp⟩
  | @cons i ext r r₁ rest r' hlookup haccept hrest ih =>
    obtain ⟨hkept, htaken⟩ := ih
    refine ⟨fun t ht => hkept t ?_, fun j hj t ht => ?_⟩
    · cases hdesc : i.desc <;> rw [hdesc] at haccept <;> cases haccept <;> simp [ht]
    · obtain rfl | hj := List.mem_cons.mp hj
      · apply hkept
        rw [hlookup] at ht
        cases ht
        cases hdesc : j.desc <;> rw [hdesc] at haccept <;> cases haccept
        exact Array.mem_push_self
      · exact htaken j hj t ht

end Link

namespace Table

theorem getElem?_putFuncs (slots : Array (Option UInt32))
    (h : i < offset ∨ offset + fs.length ≤ i) : (putFuncs slots offset fs)[i]? = slots[i]? := by
  induction fs generalizing slots offset with
  | nil => rfl
  | cons f fs ih =>
    rw [List.length_cons] at h
    rw [putFuncs, ih _ (by omega), Array.getElem?_setIfInBounds_ne (by omega)]

theorem getElem?_extend (t : Table) (size : Nat) (hi : i < t.size) :
    (t.extend size).slots[i]? = t.slots[i]? :=
  Array.getElem?_append_left hi

theorem size_le_extend (t : Table) (size : Nat) : t.size ≤ (t.extend size).size := by
  simp [Table.size, extend]

theorem size_putFuncs (slots : Array (Option UInt32)) (offset : Nat) (fs : List UInt32) :
    (putFuncs slots offset fs).size = slots.size := by
  induction fs generalizing slots offset with
  | nil => rfl
  | cons f fs ih => rw [putFuncs, ih, Array.size_setIfInBounds]

theorem getElem?_writeSegment {t t' : Table} (h : t.writeSegment offset fs = .ok t')
    (hi : i < t.size) (houtside : i < offset.toNat ∨ offset.toNat + fs.length ≤ i) :
    t'.slots[i]? = t.slots[i]? ∧ i < t'.size := by
  simp only [writeSegment] at h
  split at h
  · contradiction
  · cases h
    refine ⟨?_, ?_⟩
    · rw [← t.getElem?_extend (offset.toNat + fs.length) hi]
      exact getElem?_putFuncs _ houtside
    · rw [size, size_putFuncs]
      exact Nat.lt_of_lt_of_le hi (t.size_le_extend _)

theorem getElem?_ensureMin {t t' : Table} (h : t.ensureMin = .ok t') (hi : i < t.size) :
    t'.slots[i]? = t.slots[i]? := by
  simp only [ensureMin] at h
  split at h
  · contradiction
  · cases h
    exact t.getElem?_extend _ hi

end Table

/-- An element segment writes into a slot. -/
def ElementSegment.Writes (globals : Array Global) (i : Nat) (seg : ElementSegment) : Prop :=
  ∃ offset, Link.segmentOffset .element seg.offset globals = .ok offset ∧
    offset.toNat ≤ i ∧ i < offset.toNat + seg.funcs.size

/-- A slot into which no segment writes keeps what is in it. -/
theorem Link.getElem?_initTable {t : Table} (h : initTable n globals segs (some t) = .ok table)
    (hi : i < t.size) (hsegs : ∀ seg ∈ segs, ¬ seg.Writes globals i) :
    ∃ t', table = some t' ∧ t'.slots[i]? = t.slots[i]? ∧ i < t'.size := by
  induction segs generalizing t with
  | nil =>
    cases h
    exact ⟨t, rfl, rfl, hi⟩
  | cons seg segs ih =>
    rw [initTable] at h
    obtain ⟨offset, hoffset, h⟩ := exceptBind_eq_ok.mp h
    split at h
    · contradiction
    · split at h
      · contradiction
      · next t₀ ht₀ =>
        obtain rfl : t = t₀ := Option.some.inj (Option.mem_toList.mp (List.mem_of_getElem? ht₀))
        obtain ⟨t₁, ht₁, h⟩ := exceptBind_eq_ok.mp h
        have houtside : i < offset.toNat ∨ offset.toNat + seg.funcs.toList.length ≤ i := by
          by_contra hinside
          refine hsegs seg List.mem_cons_self ⟨offset, hoffset, ?_, ?_⟩
          · omega
          · rw [← Array.length_toList]
            omega
        obtain ⟨hslot, hi₁⟩ := Table.getElem?_writeSegment ht₁ hi houtside
        obtain ⟨t', htable, hslot', hi'⟩ := ih h hi₁ fun seg hseg =>
          hsegs seg (List.mem_cons_of_mem _ hseg)
        exact ⟨t', htable, hslot'.trans hslot, hi'⟩

/-- Linking takes an imported table as it is, but for the slots that segments write. -/
theorem Module.getElem?_table_of_link {m : Module} {imports : Imports} {imp : Import} {t : Table}
    (hlink : m.link imports = .ok s) (himp : imp ∈ m.imports)
    (hlookup : Link.lookup imports imp = .ok (.table t)) (hi : i < t.size)
    (hsegs : ∀ seg ∈ m.elements, ¬ seg.Writes s.globals i) :
    ∃ t', s.table = some t' ∧ t'.slots[i]? = t.slots[i]? := by
  obtain ⟨r, table, memory, hr, htables, -, -, -, htable, -, hmin, -⟩ := link_eq_ok hlink
  have hmem : t ∈ r.tables :=
    (Link.resolve_eq_ok hr).mem_tables.2 imp (Array.mem_toList_iff.mpr himp) t hlookup
  have honly : (r.tables ++ m.tables.map Table.empty)[0]? = some t := by
    have hmem' : t ∈ r.tables ++ m.tables.map Table.empty := Array.mem_append_left _ hmem
    obtain ⟨k, hk, hget⟩ := Array.mem_iff_getElem.mp hmem'
    obtain rfl : k = 0 := by omega
    rw [Array.getElem?_eq_getElem hk, hget]
  rw [honly] at htable
  obtain ⟨t₁, rfl, hslot, hi₁⟩ := Link.getElem?_initTable htable hi fun seg hseg =>
    hsegs seg (Array.mem_toList_iff.mp hseg)
  obtain ⟨hnone, -⟩ | ⟨_, t', heq, hs, hmin⟩ := optionMapM_eq_ok hmin
  · contradiction
  · cases heq
    exact ⟨t', hs, (Table.getElem?_ensureMin hmin hi₁).trans hslot⟩

namespace IndexSpace

/-- What is in a slot of the table, if there is such a slot. -/
def slot? (s : IndexSpace) (i : Nat) : Option (Option UInt32) := s.table.bind (·.slots[i]?)

/-- A slot denotes in one index space what it denotes in another: nothing, or the same function. -/
def KeepsSlot (s s' : IndexSpace) (i : Nat) : Prop :=
  match s.slot? i with
  | none => True
  | some none => s'.slot? i = some none
  | some (some k) => ∃ k' f, s.funcs[k.toNat]? = some f ∧ s'.slot? i = some (some k') ∧
      s'.funcs[k'.toNat]? = some f

end IndexSpace

/-- A slot of an imported table into which no segment writes has the index that was in it. So it
denotes what it did in the instance that exports the table exactly if that index refers to the same
function in both. -/
theorem keepsSlot_iff_of_link {m : Module} {imports : Imports} {a : Instance} {imp : Import}
    {t : Table} (hlink : m.link imports = .ok s) (himp : imp ∈ m.imports)
    (htakes : imp.Takes imports a name (.table t)) (hi : i < t.size)
    (hsegs : ∀ seg ∈ m.elements, ¬ seg.Writes s.globals i) :
    s.slot? i = a.space.slot? i ∧
      (a.space.KeepsSlot s i ↔ ∀ k : UInt32, a.space.slot? i = some (some k) →
        ∃ f, a.space.funcs[k.toNat]? = some f ∧ s.funcs[k.toNat]? = some f) := by
  have hslot : s.slot? i = a.space.slot? i := by
    obtain ⟨t', ht', hget⟩ := Module.getElem?_table_of_link hlink himp htakes.found hi hsegs
    have ht := Instance.table_of_externs_get? htakes.exported
    rw [IndexSpace.slot?, IndexSpace.slot?, ht', ht, Option.bind_some, Option.bind_some, hget]
  refine ⟨hslot, ?_⟩
  rw [IndexSpace.KeepsSlot, hslot]
  rcases a.space.slot? i with _ | _ | k <;> simp

/-- A module with a table, whose only slot holds the second function. -/
def tableOwner : Module where
  types := #[⟨[], [.i32]⟩]
  funcs := #[0, 0]
  tables := #[⟨1, none⟩]
  exports := #[⟨"t", .table, 0⟩]
  elements := #[⟨0, .i32Const 0, #[1]⟩]
  codes := #[⟨#[], #[0x41, 0x07, 0x0B]⟩, ⟨#[], #[0x41, 0x08, 0x0B]⟩]

/-- A module that imports the table and calls what is in its slot. -/
def tableUser : Module where
  types := #[⟨[], [.i32]⟩]
  imports := #[⟨"lib", "t", .table ⟨1, none⟩⟩]
  funcs := #[0, 0, 0]
  exports := #[⟨"g", .func, 0⟩]
  codes := #[⟨#[], #[0x41, 0x00, 0x11, 0x00, 0x00, 0x0B]⟩, ⟨#[], #[0x41, 0x09, 0x0B]⟩,
    ⟨#[], #[0x41, 0x0A, 0x0B]⟩]

/-- The exports of an instance, under the name of a module. -/
def Instance.under (i : Instance) (module : String) : Imports :=
  (∅ : Imports).insert module i.externs

set_option maxRecDepth 4000 in
/-- The slot holds the index of the function that answers eight. In the module that imports the
table this is the index of its own function, which answers nine. -/
theorem keepsSlot_iff_of_link_tableUser :
    ∃ a s b r, tableOwner.instantiate ∅ {} 0 = some ⟨.ok a, #[]⟩ ∧
      tableUser.link (a.under "lib") = .ok s ∧ s.slot? 0 = a.space.slot? 0 ∧
      ¬ a.space.KeepsSlot s 0 ∧
      tableUser.instantiate (a.under "lib") {} 0 = some ⟨.ok b, #[]⟩ ∧
      b.callExport 9 "g" [] = some r ∧ r.outcome = .ok [.i32 9] := by
  obtain ⟨a, s, b, r, t, c, c', ha, hs, hb, hr, houtcome, hexported, hfound, hsize, hslot, hc, hc',
      hbody⟩ : ∃ a s b r t c c', tableOwner.instantiate ∅ {} 0 = some ⟨.ok a, #[]⟩ ∧
      tableUser.link (a.under "lib") = .ok s ∧
      tableUser.instantiate (a.under "lib") {} 0 = some ⟨.ok b, #[]⟩ ∧
      b.callExport 9 "g" [] = some r ∧ r.outcome = .ok [.i32 9] ∧
      a.externs.get? "t" = some (.table t) ∧
      Link.lookup (a.under "lib") ⟨"lib", "t", .table ⟨1, none⟩⟩ = .ok (.table t) ∧
      t.size = 1 ∧ a.space.slot? 0 = some (some 1) ∧
      a.space.funcs[1]? = some (.code c) ∧ s.funcs[1]? = some (.code c') ∧ c.body ≠ c'.body := by
    refine ⟨?a, ?s, ?b, ?r, ?t, ?c, ?c', ?created, ?linked, ?created', ?called, ?nine, ?exported,
      ?found, ?size, ?slot, ?owned, ?own, ?different⟩
    case created =>
      cbv
      rfl
    case linked =>
      cbv
      rfl
    case created' =>
      cbv
      rfl
    case called =>
      cbv
      rfl
    case nine => rfl
    case exported =>
      cbv
      rfl
    case found => cbv
    case size => rfl
    case slot => rfl
    case owned => rfl
    case own => rfl
    case different => decide
  obtain ⟨hkept, hiff⟩ := keepsSlot_iff_of_link (i := 0) hs (by simp [tableUser])
    ⟨hexported, hfound⟩ (by omega) (by simp [tableUser])
  refine ⟨a, s, b, r, ha, hs, hkept, ?_, hb, hr, houtcome⟩
  rw [hiff]
  intro hsame
  obtain ⟨f, hf, hf'⟩ := hsame 1 hslot
  cases hc.symm.trans hf
  cases hc'.symm.trans hf'
  exact hbody rfl

/-! ## Imported functions -/

/-- A function index of an import stands for what the import was resolved to. -/
theorem Module.getElem?_funcs_of_link {m : Module} {imports : Imports} {imp : Import} {k : Nat}
    (hlink : m.link imports = .ok s) (himp : m.funcImports[k]? = some imp)
    (hlookup : Link.lookup imports imp = .ok (.func f)) : s.funcs[k]? = some f := by
  obtain ⟨r, -, -, hr, -, -, -, hfuncs, -⟩ := link_eq_ok hlink
  obtain ⟨fs, hfs, -, hfound⟩ := (Link.resolve_eq_ok hr).exists_funcs
  obtain ⟨cs, hcs, -⟩ := Link.defineFuncs_eq_ok hfuncs
  have hf : fs[k]? = some f := by
    have hk : (m.funcImports[k]?).map (Link.lookup imports) =
        fs[k]?.map fun f => .ok (.func f) := by
      rw [← List.getElem?_map, ← List.getElem?_map]
      exact congrArg (·[k]?) hfound
    rw [himp, Option.map_some, hlookup, eq_comm, Option.map_eq_some_iff] at hk
    obtain ⟨f', hf', heq⟩ := hk
    cases heq
    exact hf'
  have hk : k < fs.length := (List.getElem?_eq_some_iff.mp hf).1
  rw [hcs, hfs, Array.getElem?_append_left (by simpa using hk)]
  simpa using hf

namespace Instance

/-- What an execution refers to in its first instructions. -/
def touched (i : Instance) (steps : Nat) (index : UInt32) (args : List Value) : List Ref :=
  (List.range steps).flatMap fun n =>
    match i.execute n index args with
    | .running m => m.refs
    | _ => []

theorem mem_touched {i : Instance} (hn : n < steps) (hm : i.execute n index args = .running m)
    (hr : r ∈ m.refs) : r ∈ i.touched steps index args := by
  refine List.mem_flatMap.mpr ⟨n, List.mem_range.mpr hn, ?_⟩
  rwa [hm]

end Instance

/-- An execution in one instance, side by side with one in another that has the same where the first
one refers to. -/
def Comparison.ofTouched {a b : Instance}
    (hsame : ∀ r ∈ a.touched steps index args, r.Same a.space b.space)
    (hconfig : a.config = b.config) (hlimit : a.stack.limit = b.stack.limit) : Comparison where
  left := a
  right := b
  refs := (· ∈ a.touched steps index args)
  excused := fun _ => False
  same := hsame
  depth := .inl (by rw [hconfig])
  height := .inl (by rw [hconfig])
  room := .inl hlimit

/-- A function that is imported is the one that is exported. Its indices refer to what the instance
has that calls it. Where this is the same as in the instance that exports it, the function comes to
the same end; it is enough to look at what the execution there refers to. -/
theorem call_imported_of_same {a b : Instance} {m : Module} {imports : Imports} {imp : Import}
    {index index' : UInt32} (ha : a.Reachable config)
    (hexport : a.exports.get? name = some ⟨.func, index⟩)
    (hcode : a.space.funcs[index.toNat]? = some (.code c))
    (hb : m.instantiate imports config startSteps = some ⟨.ok b, hostCalls⟩)
    (himp : m.funcImports[index'.toNat]? = some imp) (htakes : imp.Takes imports a name ext)
    (hfuel : a.fuel = b.fuel)
    (hsame : ∀ r ∈ a.touched steps index args, r.Same a.space b.space) :
    b.space.funcs[index'.toNat]? = some (.code c) ∧
      (b.call steps index' args).map CallResult.outcome =
        (a.callExport steps name args).map CallResult.outcome := by
  obtain rfl : ext = .func (.code c) := by
    have hext : a.externs.get? name = some (.func (.code c)) :=
      Instance.externs_get?_of_exports hexport (by simp [IndexSpace.get?, hcode])
    exact Option.some.inj (htakes.exported.symm.trans hext)
  have hcode' : b.space.funcs[index'.toNat]? = some (.code c) := by
    obtain ⟨space, exports, hlink, -, hhistory⟩ := Module.history_of_instantiate hb
    have hfuncs : b.space.funcs = space.funcs := (hhistory.evolves rfl).space.funcs
    rw [hfuncs]
    exact Module.getElem?_funcs_of_link hlink himp htakes.found
  refine ⟨hcode', ?_⟩
  have hidle := ha.idle
  have hidle' := (Instance.reachable_of_instantiate hb).idle
  have hconfig : a.config = b.config := by rw [hidle.config, hidle'.config]
  have hstack : a.stack = b.stack := by rw [hidle.stack, hidle'.stack]
  have hfunc : a.space.func index = .ok (.code c) := IndexSpace.func_eq_ok.mpr hcode
  have hfunc' : b.space.func index' = .ok (.code c) := IndexSpace.func_eq_ok.mpr hcode'
  -- Both calls start alike, and have the same wherever the first one refers to. No trap is excused.
  have hresults : (Comparison.ofTouched hsame hconfig (congrArg _ hstack)).Results
      (a.call steps index args) (b.call steps index' args) :=
    Comparison.matches_results ⟨congrArg _ hstack, hfuel⟩
      ⟨hfunc.trans hfunc'.symm, fun f hf => by simp [Comparison.ofTouched, hfunc] at hf⟩
      fun n hn m hm r hr => Instance.mem_touched hn hm hr
  have hcall : a.callExport steps name args = a.call steps index args := by
    simp [Instance.callExport, hexport]
  rw [hcall]
  generalize a.call steps index args = left at hresults
  generalize b.call steps index' args = right at hresults
  cases hresults with
  | pending | ended => rfl
  | excused ht => exact ht.elim

/-- A module with a function that gets its answer from another one; both are exported. -/
def pairOwner : Module where
  types := #[⟨[], [.i32]⟩]
  funcs := #[0, 0]
  exports := #[⟨"f", .func, 0⟩, ⟨"h", .func, 1⟩]
  codes := #[⟨#[], #[0x10, 0x01, 0x0B]⟩, ⟨#[], #[0x41, 0x07, 0x0B]⟩]

/-- A module that imports both functions, in the order that they have. -/
def pairUser : Module where
  types := #[⟨[], [.i32]⟩]
  imports := #[⟨"lib", "f", .func 0⟩, ⟨"lib", "h", .func 0⟩]

/-- A module that imports only the function that asks the other one. -/
def loneUser : Module where
  types := #[⟨[], [.i32]⟩]
  imports := #[⟨"lib", "f", .func 0⟩]
  funcs := #[0]
  codes := #[⟨#[], #[0x41, 0x09, 0x0B]⟩]

set_option maxRecDepth 4000 in
/-- The function refers to another one by its index. Where both are imported in the same order it
gives the same answer; where it is imported alone it calls a function of the importing module. -/
theorem call_imported_of_same_pairUser :
    ∃ a l b r, pairOwner.instantiate ∅ {} 0 = some ⟨.ok a, #[]⟩ ∧
      Linker.defineInstance "lib" a .inserted {} = .ok () l ∧
      l.instantiate pairUser 0 = some ⟨.ok b, #[]⟩ ∧
      a.callExport 4 "f" [] = some r ∧ r.outcome = .ok [.i32 7] ∧
      (b.call 4 0 []).map CallResult.outcome = some (.ok [.i32 7]) ∧
      ∃ b' r', l.instantiate loneUser 0 = some ⟨.ok b', #[]⟩ ∧
        b'.call 4 0 [] = some r' ∧ r'.outcome = .ok [.i32 9] ∧
        ¬ (Ref.func 1).Same a.space b'.space := by
  obtain ⟨a, l, b, b', r, r', f, c, c', ha, hl, hengine, hb, hb', hr, hseven, hr', hnine, hexport,
      hf, hexported, hfound, hfuel, htouched, hsame, hc, hc', hbody⟩ : ∃ a l b b' r r' f c c',
      pairOwner.instantiate ∅ {} 0 = some ⟨.ok a, #[]⟩ ∧
      Linker.defineInstance "lib" a .inserted {} = .ok () l ∧ l.engine = {} ∧
      l.instantiate pairUser 0 = some ⟨.ok b, #[]⟩ ∧
      l.instantiate loneUser 0 = some ⟨.ok b', #[]⟩ ∧
      a.callExport 4 "f" [] = some r ∧ r.outcome = .ok [.i32 7] ∧
      b'.call 4 0 [] = some r' ∧ r'.outcome = .ok [.i32 9] ∧
      a.exports.get? "f" = some ⟨.func, 0⟩ ∧ a.space.funcs[0]? = some (.code f) ∧
      a.externs.get? "f" = some (.func (.code f)) ∧
      Link.lookup l.modules ⟨"lib", "f", .func 0⟩ = .ok (.func (.code f)) ∧ a.fuel = b.fuel ∧
      a.touched 4 0 [] = [.func 1] ∧ a.space.func 1 = b.space.func 1 ∧
      a.space.func 1 = .ok (.code c) ∧ b'.space.func 1 = .ok (.code c') ∧ c.body ≠ c'.body := by
    refine ⟨?a, ?l, ?b, ?b', ?r, ?r', ?f, ?c, ?c', ?created, ?defined, ?engine, ?created',
      ?created'', ?called, ?seven, ?called', ?nine, ?exports, ?code, ?exported, ?found, ?fuel,
      ?touched, ?same, ?owned, ?own, ?different⟩
    case created =>
      cbv
      rfl
    case defined =>
      cbv
      rfl
    case created' =>
      cbv
      rfl
    case created'' =>
      cbv
      rfl
    case called =>
      cbv
      rfl
    case called' =>
      cbv
      rfl
    case exported =>
      cbv
      rfl
    case found => cbv
    case engine | seven | nine | exports | code | fuel | touched | same | owned | own => rfl
    case different => decide
  refine ⟨a, l, b, r, ha, hl, hb, hr, hseven, ?_, b', r', hb', hr', hnine, ?_⟩
  · have hsame' : ∀ r ∈ a.touched 4 0 [], r.Same a.space b.space := by
      simpa [htouched, Ref.Same] using hsame
    have himp : pairUser.funcImports[(0 : UInt32).toNat]? = some ⟨"lib", "f", .func 0⟩ := rfl
    rw [Linker.instantiate, hengine] at hb
    have hbehaves := call_imported_of_same (Instance.reachable_of_instantiate ha) hexport hf hb himp
      ⟨hexported, hfound⟩ hfuel hsame'
    rw [hbehaves.2, hr, Option.map_some, hseven]
  · intro h
    cases hc.symm.trans (Eq.trans h hc')
    exact hbody rfl

end Wasm
