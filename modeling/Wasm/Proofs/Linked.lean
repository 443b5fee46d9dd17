import Wasm.Link
import Wasm.Proofs.Declarations

/-!
# Wasm.Proofs.Linked

What linking makes of a module.

* `Link.Resolution` is how the imports of a module were resolved, one after the other.
* `Module.Linked` says what an index space owes to the module it was linked from: as many things of
  each kind as the module has, functions and globals of the types that it declares, and code that is
  its own. `Module.linked_of_link` says that linking gives such a space.
-/

namespace Wasm

/-- A sequence succeeds if both parts do. -/
theorem exceptBind_eq_ok {x : Except ε α} {f : α → Except ε β} :
    (x >>= f) = .ok b ↔ ∃ a, x = .ok a ∧ f a = .ok b := by
  cases x <;> simp [Bind.bind, Except.bind]

/-- A value of the right type survives being put into a global. -/
theorem Global.value_ofValue {type : GlobalType} (g : Global)
    (h : g.type.valType = type.valType) : (Global.ofValue type g.value).value = g.value := by
  have htype : g.value.type = type.valType := by
    rw [Global.value, Value.type_ofCell, h]
  rw [Global.value, Global.ofValue, ← htype, Value.ofCell_cell]

namespace Link

/-! ## Imports -/

/-- What comes of a thing that an import was resolved to. -/
inductive Accepted (types : Array FuncType) : ImportDesc → Extern → Resolved → Resolved → Prop where
  | func (r : Resolved) (h : types[index.toNat]? = some f.type) :
      Accepted types (.func index) (.func f) r { r with funcs := r.funcs.push f }
  | table (r : Resolved) :
      Accepted types (.table limits) (.table t) r { r with tables := r.tables.push t }
  | memory (r : Resolved) :
      Accepted types (.memory limits) (.memory m) r { r with memories := r.memories.push m }
  | global (r : Resolved) (g : Global) (himmutable : g.type.mutable = false)
      (htype : g.type.valType = type.valType) :
      Accepted types (.global type) (.global g) r
        { r with globals := r.globals.push (.ofValue type g.value) }

/-- What was accepted has the kind and the type that were asked for. -/
theorem accept_eq_ok (h : accept types i ext r = .ok r') : Accepted types i.desc ext r r' := by
  unfold accept at h
  split at h
  · next index f hdesc =>
    split at h
    · contradiction
    · next expected htype =>
      split at h
      · next hf =>
        cases h
        rw [hdesc]
        exact .func r (hf ▸ htype)
      · contradiction
  · next hdesc =>
    cases h
    rw [hdesc]
    exact .table r
  · next hdesc =>
    cases h
    rw [hdesc]
    exact .memory r
  · next type g hdesc =>
    split at h
    · contradiction
    · next hmutable =>
      split at h
      · next htype =>
        cases h
        rw [hdesc]
        exact .global r g (eq_false_of_ne_true hmutable) htype
      · contradiction
  · contradiction

/-- An import of a mutable global is refused before it is looked up. -/
theorem lookup_immutable (h : lookup imports i = .ok ext) (hi : i.desc = .global type) :
    type.mutable = false := by
  simp only [lookup, hi] at h
  split at h
  · contradiction
  · next hmutable => exact eq_false_of_ne_true hmutable

/-- The globals have the values of those that the imports were resolved to, none of which can be
changed. -/
def CopiesGlobals (imports : Imports) (is : List Import) (globals : List Global) : Prop :=
  ∃ sources : List Global, is.map (lookup imports) = sources.map (fun g => .ok (.global g)) ∧
    globals.map Global.value = sources.map Global.value ∧
    ∀ g ∈ sources, g.type.mutable = false

/-- One more global that was copied. -/
theorem CopiesGlobals.cons (h : CopiesGlobals imports is globals)
    (hlookup : lookup imports i = .ok (.global source)) (hsource : source.type.mutable = false)
    (hvalue : g.value = source.value) : CopiesGlobals imports (i :: is) (g :: globals) := by
  obtain ⟨sources, hfound, hvalues, himmutable⟩ := h
  refine ⟨source :: sources, ?_, ?_, List.forall_mem_cons.mpr ⟨hsource, himmutable⟩⟩
  · rw [List.map_cons, List.map_cons, hlookup, hfound]
  · rw [List.map_cons, List.map_cons, hvalue, hvalues]

/-- How imports were resolved, one after the other. -/
inductive Resolution (imports : Imports) (types : Array FuncType) :
    List Import → Resolved → Resolved → Prop where
  | nil (r : Resolved) : Resolution imports types [] r r
  | cons (hlookup : lookup imports i = .ok ext) (haccept : Accepted types i.desc ext r r₁)
      (hrest : Resolution imports types rest r₁ r') :
      Resolution imports types (i :: rest) r r'

/-- Imports are resolved one after the other, each to what was looked up. -/
theorem resolve_eq_ok (h : resolve imports types is r = .ok r') :
    Resolution imports types is r r' := by
  induction is generalizing r with
  | nil =>
    cases h
    exact .nil _
  | cons i rest ih =>
    simp only [resolve, Bind.bind, Except.bind] at h
    split at h
    · contradiction
    · next ext hlookup =>
      split at h
      · contradiction
      · next r₁ haccept => exact .cons hlookup (accept_eq_ok haccept) (ih h)

namespace Resolution

variable {r r' : Resolved}

/-- The functions have the types that were asked for, and were looked up in the order of the
imports.
-/
theorem exists_funcs (h : Resolution imports types is r r') :
    ∃ fs : List Func, r'.funcs = r.funcs ++ fs.toArray ∧
      fs.map (fun f => some f.type) =
        (is.filterMap (·.desc.func?)).map (fun index => types[index.toNat]?) ∧
      (is.filter (·.desc.kind = .func)).map (lookup imports) = fs.map fun f => .ok (.func f) := by
  induction h with
  | nil r => exact ⟨[], by simp⟩
  | @cons i ext r r₁ rest r' hlookup haccept hrest ih =>
    obtain ⟨fs, hfuncs, htypes, hfound⟩ := ih
    cases hdesc : i.desc with
    | func index =>
      rw [hdesc] at haccept
      cases haccept with
      | @func _ f _ htype =>
        have hkind : i.desc.kind = .func := by simp [hdesc, ImportDesc.kind]
        exact ⟨f :: fs, by simp [hfuncs], by simp [hdesc, ImportDesc.func?, htypes, htype],
          by simp [hkind, hlookup, hfound]⟩
    | table | memory | global =>
      rw [hdesc] at haccept
      cases haccept
      have hkind : i.desc.kind ≠ .func := by simp [hdesc, ImportDesc.kind]
      exact ⟨fs, hfuncs, by simp [hdesc, ImportDesc.func?, htypes], by simp [hkind, hfound]⟩

/-- The globals have the types that were asked for, and cannot be changed. -/
theorem exists_globals (h : Resolution imports types is r r') :
    ∃ gs : List Global, r'.globals = r.globals ++ gs.toArray ∧
      gs.map Global.type = is.filterMap (·.desc.global?) ∧
      (∀ type ∈ is.filterMap (·.desc.global?), type.mutable = false) ∧
      CopiesGlobals imports (is.filter (·.desc.kind = .global)) gs := by
  induction h with
  | nil r => exact ⟨[], by simp [CopiesGlobals]⟩
  | @cons i ext r r₁ rest r' hlookup haccept hrest ih =>
    obtain ⟨gs, hglobals, htypes, himmutable, hcopies⟩ := ih
    cases hdesc : i.desc with
    | global type =>
      rw [hdesc] at haccept
      cases haccept with
      | global _ g hg htype =>
        have hkeep : (i :: rest).filter (·.desc.kind = .global) =
            i :: rest.filter (·.desc.kind = .global) :=
          List.filter_cons_of_pos (by simp [hdesc, ImportDesc.kind])
        refine ⟨.ofValue type g.value :: gs, by simp [hglobals],
          by simp [hdesc, ImportDesc.global?, htypes, Global.ofValue], ?_, ?_⟩
        · rw [List.filterMap_cons_some (by rw [hdesc]; rfl), List.forall_mem_cons]
          exact ⟨lookup_immutable hlookup hdesc, himmutable⟩
        · rw [hkeep]
          exact hcopies.cons hlookup hg (g.value_ofValue htype)
    | table | memory | func =>
      rw [hdesc] at haccept
      cases haccept
      have hskip : (i :: rest).filterMap (·.desc.global?) = rest.filterMap (·.desc.global?) :=
        List.filterMap_cons_none (by rw [hdesc]; rfl)
      have hdrop : (i :: rest).filter (·.desc.kind = .global) =
          rest.filter (·.desc.kind = .global) :=
        List.filter_cons_of_neg (by simp [hdesc, ImportDesc.kind])
      rw [hskip, hdrop]
      exact ⟨gs, hglobals, htypes, himmutable, hcopies⟩

/-- There are as many tables and memories as were asked for. -/
theorem sizes (h : Resolution imports types is r r') :
    r'.tables.size = r.tables.size + is.countP (·.desc.kind = .table) ∧
      r'.memories.size = r.memories.size + is.countP (·.desc.kind = .memory) := by
  induction h with
  | nil r => exact ⟨rfl, rfl⟩
  | @cons i ext r r₁ rest r' hlookup haccept hrest ih =>
    rw [ih.1, ih.2, List.countP_cons, List.countP_cons]
    cases hdesc : i.desc <;> rw [hdesc] at haccept <;> cases haccept <;>
      simp [ImportDesc.kind] <;> omega

end Resolution

/-! ## Own things -/

/-- The globals of a module have the types that it declares. -/
theorem initGlobals_eq_ok (h : initGlobals ds globals = .ok globals') :
    ∃ gs : List Global, globals' = globals ++ gs.toArray ∧
      gs.map Global.type = ds.map GlobalDef.type := by
  induction ds generalizing globals with
  | nil =>
    cases h
    exact ⟨[], by simp⟩
  | cons d ds ih =>
    simp only [initGlobals, Bind.bind, Except.bind] at h
    split at h
    · contradiction
    · next v hv =>
      split at h
      · obtain ⟨gs, hglobals, htypes⟩ := ih h
        exact ⟨.ofValue d.type v :: gs, by simp [hglobals], by simp [htypes, Global.ofValue]⟩
      · contradiction

/-- The code is that of a type index and a position among the bodies of the module. -/
structure Defines (m : Module) (position : Nat) (type : UInt32) (c : Code) : Prop where
  type : m.types[type.toNat]? = some c.type
  body : ∃ code, m.codes[position]? = some code ∧ c.body = code.body ∧
    c.localCount = code.localCount
  types : c.types = m.types
  blocks : analyzeBlocks c.body c.types = .ok c.blocks

/-- A function that was defined has its type, its body and the map of its blocks. -/
theorem defineFunc_eq_ok (h : defineFunc m index type position = .ok c) :
    Defines m position type c := by
  unfold defineFunc at h
  split at h
  · contradiction
  · next funcType htype =>
    split at h
    · contradiction
    · next code hcode =>
      split at h
      · contradiction
      · next blocks hblocks =>
        cases h
        exact ⟨htype, ⟨code, hcode, rfl, rfl⟩, rfl, hblocks⟩

/-- The functions of a module come from its type indices and bodies, in order. -/
theorem defineFuncs_eq_ok (h : defineFuncs m position ts funcs = .ok funcs') :
    ∃ cs : List Code, funcs' = funcs ++ (cs.map Func.code).toArray ∧ cs.length = ts.length ∧
      ∀ k c, cs[k]? = some c → ∃ type, ts[k]? = some type ∧ Defines m (position + k) type c := by
  induction ts generalizing position funcs with
  | nil =>
    cases h
    exact ⟨[], by simp⟩
  | cons type ts ih =>
    simp only [defineFuncs, Bind.bind, Except.bind] at h
    split at h
    · contradiction
    · next c hc =>
      obtain ⟨cs, hfuncs, hlength, hdefines⟩ := ih h
      refine ⟨c :: cs, by simp [hfuncs], by simp [hlength], fun k c' hk => ?_⟩
      cases k with
      | zero =>
        cases hk
        exact ⟨type, rfl, defineFunc_eq_ok hc⟩
      | succ k =>
        obtain ⟨type', htype, hdefined⟩ := hdefines k c' hk
        exact ⟨type', htype, by rwa [Nat.add_right_comm] at hdefined⟩

/-- Functions have the types that their indices say, in order. -/
theorem types_of_defines {m : Module} {cs : List Code} {ts : List UInt32}
    (hlength : cs.length = ts.length)
    (h : ∀ k c, cs[k]? = some c → ∃ type, ts[k]? = some type ∧ Defines m k type c) :
    cs.map (fun c => some c.type) = ts.map fun type => m.types[type.toNat]? := by
  apply List.ext_getElem?
  intro k
  rw [List.getElem?_map, List.getElem?_map]
  cases hc : cs[k]? with
  | none =>
    rw [List.getElem?_eq_none_iff, hlength] at hc
    rw [List.getElem?_eq_none hc]
    rfl
  | some c =>
    obtain ⟨type, htype, hdefines⟩ := h k c hc
    rw [htype, Option.map_some, Option.map_some, hdefines.type]

end Link

/-! ## Segments -/

namespace Table

/-- Every slot that is not empty holds the index of one of `n` functions. -/
def RefersBelow (t : Table) (n : Nat) : Prop :=
  ∀ func : UInt32, some func ∈ t.slots → func.toNat < n

theorem refersBelow_empty (limits : Limits) (n : Nat) : (empty limits).RefersBelow n := by
  simp [RefersBelow, empty]

/-- New slots are empty. -/
theorem RefersBelow.extend {t : Table} (h : t.RefersBelow n) (size : Nat) :
    (t.extend size).RefersBelow n := by
  intro func hfunc
  simp only [Table.extend, Array.mem_append, Array.mem_replicate, reduceCtorEq, and_false,
    or_false] at hfunc
  exact h func hfunc

/-- A function in the table was there before, or a segment has put it there. -/
theorem lt_of_mem_putFuncs {slots : Array (Option UInt32)}
    (hslots : ∀ func, some func ∈ slots → func.toNat < n) (hfs : ∀ f ∈ fs, f.toNat < n)
    (h : some func ∈ putFuncs slots i fs) : func.toNat < n := by
  induction fs generalizing slots i with
  | nil => exact hslots func h
  | cons f fs ih =>
    refine ih ?_ (fun f hf => hfs f (List.mem_cons_of_mem _ hf)) h
    intro g hg
    obtain hg | hg := Array.mem_or_eq_of_mem_setIfInBounds hg
    · exact hslots g hg
    · cases hg
      exact hfs f List.mem_cons_self

/-- A segment refers to functions that exist; this is checked before it is written. -/
theorem RefersBelow.writeSegment {t : Table} (h : t.RefersBelow n)
    (hfs : ∀ f ∈ fs, f.toNat < n) (ht : t.writeSegment offset fs = .ok t') : t'.RefersBelow n := by
  simp only [Table.writeSegment] at ht
  split at ht
  · contradiction
  · cases ht
    exact fun func hfunc => lt_of_mem_putFuncs (h.extend _) hfs hfunc

theorem RefersBelow.ensureMin {t : Table} (h : t.RefersBelow n) (ht : t.ensureMin = .ok t') :
    t'.RefersBelow n := by
  simp only [Table.ensureMin] at ht
  split at ht
  · contradiction
  · cases ht
    exact h.extend _

end Table

namespace Link

/-- Segments are put into a table that there is, and they refer to functions that there are. -/
theorem initTable_eq_ok (h : initTable n globals segs table = .ok table') :
    table'.isSome = table.isSome ∧
      ((∀ t, table = some t → t.RefersBelow n) → ∀ t, table' = some t → t.RefersBelow n) := by
  induction segs generalizing table with
  | nil =>
    cases h
    exact ⟨rfl, id⟩
  | cons seg segs ih =>
    simp only [initTable, Bind.bind, Except.bind] at h
    split at h
    · contradiction
    · split at h
      · contradiction
      · next hfuncs =>
        split at h
        · contradiction
        · next t ht =>
          split at h
          · contradiction
          · next t₁ ht₁ =>
            obtain ⟨hsome, hrefers⟩ := ih h
            obtain rfl : table = some t := Option.mem_toList.mp (List.mem_of_getElem? ht)
            refine ⟨hsome, fun hslots => hrefers ?_⟩
            rintro _ ⟨⟩
            have hbelow : ∀ f ∈ seg.funcs.toList, f.toNat < n := by
              simpa [Array.find?_eq_none] using hfuncs
            exact (hslots t rfl).writeSegment hbelow ht₁

/-- Data segments neither make a memory nor take it away. -/
theorem initMemory_eq_ok (h : initMemory globals segs memory = .ok memory') :
    memory'.isSome = memory.isSome := by
  induction segs generalizing memory with
  | nil =>
    cases h
    rfl
  | cons seg segs ih =>
    rw [initMemory] at h
    obtain ⟨offset, -, hrest⟩ := exceptBind_eq_ok.mp h
    split at hrest
    · contradiction
    · next m hm =>
      obtain ⟨m', -, hrest⟩ := exceptBind_eq_ok.mp hrest
      obtain rfl : memory = some m := Option.mem_toList.mp (List.mem_of_getElem? hm)
      rw [ih hrest, Option.isSome_some, Option.isSome_some]

end Link

/-- The only thing that there is, if there is one, is finished. -/
theorem optionMapM_eq_ok {f : α → Except ε β} (h : Option.mapM f o = .ok o') :
    o = none ∧ o' = none ∨ ∃ a b, o = some a ∧ o' = some b ∧ f a = .ok b := by
  cases o with
  | none =>
    cases h
    exact .inl ⟨rfl, rfl⟩
  | some a =>
    have hbind : (f a >>= fun b => pure (some b)) = .ok o' := h
    obtain ⟨b, hb, hrest⟩ := exceptBind_eq_ok.mp hbind
    cases hrest
    exact .inr ⟨a, b, rfl, rfl, hb⟩

theorem optionMapM_isSome {f : α → Except ε β} (h : Option.mapM f o = .ok o') :
    o'.isSome = o.isSome := by
  obtain ⟨rfl, rfl⟩ | ⟨a, b, rfl, rfl, -⟩ := optionMapM_eq_ok h <;> rfl

/-- With at most one thing, whether there is one says how many there are. -/
theorem length_toList_of_isSome {o : Option α} {xs : Array β} (h : o.isSome = xs[0]?.isSome)
    (hsize : xs.size ≤ 1) : o.toList.length = xs.size := by
  cases o with
  | none =>
    have hempty : xs.size = 0 := by simpa [Array.getElem?_eq_none_iff] using h.symm
    simpa using hempty.symm
  | some a =>
    have hpos : 0 < xs.size := by simpa using h.symm
    rw [Option.toList_some, List.length_singleton]
    omega

/-! ## Linking -/

/-- What an index space owes to the module it was linked from. -/
structure Module.Linked (m : Module) (imports : Imports) (s : IndexSpace) : Prop where
  funcs : s.funcs.size = m.count .func
  funcTypes : ∀ k, (s.funcs[k]?).map Func.type = m.signature? k
  imported : ∀ k f, k < m.importCount .func → s.funcs[k]? = some f →
    ∃ i ∈ m.imports, i.desc.kind = .func ∧ Link.lookup imports i = .ok (.func f)
  defined : ∀ k f, m.importCount .func ≤ k → s.funcs[k]? = some f →
    ∃ type c, f = .code c ∧ m.funcs[k - m.importCount .func]? = some type ∧
      Link.Defines m (k - m.importCount .func) type c
  importedFuncs : m.funcImports.map (Link.lookup imports) =
    (s.funcs.toList.take (m.importCount .func)).map fun f => .ok (.func f)
  tables : s.table.toList.length = m.count .table
  memories : s.memory.toList.length = m.count .memory
  globalTypes : s.globals.toList.map Global.type = m.globalTypes
  immutable : ∀ type ∈ m.importedGlobals, type.mutable = false
  importedGlobals : Link.CopiesGlobals imports m.globalImports
    (s.globals.toList.take (m.importCount .global))
  slots : m.importCount .table = 0 → ∀ t, s.table = some t → t.RefersBelow s.funcs.size

namespace Module

/-- Linking goes through its stages. -/
theorem link_eq_ok {m : Module} {imports : Imports} (h : m.link imports = .ok s) :
    ∃ (r : Link.Resolved) (table : Option Table) (memory : Option Memory),
      Link.resolve imports m.types m.imports.toList {} = .ok r ∧
      (r.tables ++ m.tables.map Table.empty).size ≤ 1 ∧
      (r.memories ++ m.memories.map Memory.empty).size ≤ 1 ∧
      Link.initGlobals m.globals.toList r.globals = .ok s.globals ∧
      Link.defineFuncs m 0 m.funcs.toList r.funcs = .ok s.funcs ∧
      Link.initTable s.funcs.size s.globals m.elements.toList
        (r.tables ++ m.tables.map Table.empty)[0]? = .ok table ∧
      Link.initMemory s.globals m.data.toList
        (r.memories ++ m.memories.map Memory.empty)[0]? = .ok memory ∧
      table.mapM Table.ensureMin = .ok s.table ∧ memory.mapM Memory.ensureMin = .ok s.memory := by
  obtain ⟨r, hr, h⟩ := exceptBind_eq_ok.mp h
  dsimp only at h
  split at h
  · contradiction
  · next htables =>
    split at h
    · contradiction
    · next hmemories =>
      obtain ⟨globals, hglobals, h⟩ := exceptBind_eq_ok.mp h
      obtain ⟨funcs, hfuncs, h⟩ := exceptBind_eq_ok.mp h
      obtain ⟨table, htable, h⟩ := exceptBind_eq_ok.mp h
      obtain ⟨memory, hmemory, h⟩ := exceptBind_eq_ok.mp h
      obtain ⟨memory', hmemory', h⟩ := exceptBind_eq_ok.mp h
      obtain ⟨table', htable', h⟩ := exceptBind_eq_ok.mp h
      cases h
      exact ⟨r, table, memory, hr, Nat.le_of_not_lt htables, Nat.le_of_not_lt hmemories, hglobals,
        hfuncs, htable, hmemory, htable', hmemory'⟩

/-- Functions that have the declared types one by one have them by index. -/
theorem signature?_of_map_eq {m : Module} {funcs : Array Func}
    (h : funcs.toList.map (fun f => some f.type) =
      (m.importedFuncs ++ m.funcs).toList.map fun type => m.types[type.toNat]?) (k : Nat) :
    (funcs[k]?).map Func.type = m.signature? k := by
  have hk := congrArg (·[k]?.join) h
  simp only [List.getElem?_map, Array.getElem?_toList] at hk
  rw [signature?]
  cases hf : funcs[k]? <;> cases ht : (m.importedFuncs ++ m.funcs)[k]? <;> simp_all

/-- All stages of linking, and what each of them leaves. -/
theorem linked_of_link {m : Module} {imports : Imports} (h : m.link imports = .ok s) :
    m.Linked imports s := by
  obtain ⟨r, table, memory, hr, htables, hmemories, hglobals, hfuncs, htable, hmemory, htable',
    hmemory'⟩ := link_eq_ok h
  have hres := Link.resolve_eq_ok hr
  obtain ⟨fs, hfs, hfsTypes, hfound⟩ := hres.exists_funcs
  obtain ⟨gs, hgs, hgsTypes, himmutable, hcopies⟩ := hres.exists_globals
  obtain ⟨cs, hcs, hcsLength, hdefines⟩ := Link.defineFuncs_eq_ok hfuncs
  obtain ⟨gs', hgs', hgsTypes'⟩ := Link.initGlobals_eq_ok hglobals
  obtain ⟨hsomeTable, hslots⟩ := Link.initTable_eq_ok htable
  simp only [Nat.zero_add] at hdefines
  -- Imports come first: functions and globals are two lists in a row, and every clause is about
  -- one of them.
  have hlist : s.funcs.toList = fs ++ cs.map Func.code := by simp [hcs, hfs]
  have hfsLength : fs.length = m.importCount .func := by
    have hlength := congrArg List.length hfsTypes
    rw [List.length_map, List.length_map, ← toList_importedFuncs] at hlength
    exact hlength.trans m.size_importedFuncs
  constructor
  case funcs =>
    rw [← Array.length_toList, hlist, List.length_append, List.length_map, hfsLength, hcsLength,
      Array.length_toList]
    rfl
  case funcTypes =>
    apply signature?_of_map_eq
    rw [hlist, Array.toList_append, toList_importedFuncs, List.map_append, List.map_append,
      hfsTypes, List.map_map]
    exact congrArg _ (Link.types_of_defines hcsLength hdefines)
  case imported =>
    intro k f hk hf
    rw [← Array.getElem?_toList, hlist, List.getElem?_append_left (hfsLength ▸ hk)] at hf
    have hmem : .ok (.func f) ∈ (m.imports.toList.filter (·.desc.kind = .func)).map
        (Link.lookup imports) := by
      rw [hfound]
      exact List.mem_map_of_mem (List.mem_of_getElem? hf)
    obtain ⟨i, hi, hlookup⟩ := List.mem_map.mp hmem
    obtain ⟨hi, hkind⟩ := List.mem_filter.mp hi
    exact ⟨i, Array.mem_toList_iff.mp hi, of_decide_eq_true hkind, hlookup⟩
  case defined =>
    intro k f hk hf
    rw [← Array.getElem?_toList, hlist, List.getElem?_append_right (hfsLength ▸ hk),
      List.getElem?_map, hfsLength, Option.map_eq_some_iff] at hf
    obtain ⟨c, hc, rfl⟩ := hf
    obtain ⟨type, htype, hdefined⟩ := hdefines _ c hc
    exact ⟨type, c, rfl, by rwa [Array.getElem?_toList] at htype, hdefined⟩
  case importedFuncs => rw [funcImports, hlist, List.take_left' hfsLength, hfound]
  case tables =>
    rw [length_toList_of_isSome ((optionMapM_isSome htable').trans hsomeTable) htables,
      Array.size_append, Array.size_map, hres.sizes.1]
    simp [count, ownCount, importCount]
  case memories =>
    rw [length_toList_of_isSome
        ((optionMapM_isSome hmemory').trans (Link.initMemory_eq_ok hmemory)) hmemories,
      Array.size_append, Array.size_map, hres.sizes.2]
    simp [count, ownCount, importCount]
  case globalTypes => simp [hgs', hgs, hgsTypes, hgsTypes', globalTypes, importedGlobals]
  case immutable => exact himmutable
  case importedGlobals =>
    have hgsLength : gs.length = m.importCount .global := by
      rw [← length_importedGlobals, importedGlobals, ← hgsTypes, List.length_map]
    have hglobalsList : s.globals.toList = gs ++ gs' := by simp [hgs', hgs]
    rwa [hglobalsList, List.take_left' hgsLength]
  case slots =>
    intro hcount t ht
    -- Without an imported table the segments start from an empty one.
    have hnone : r.tables = #[] := by
      rw [← Array.size_eq_zero_iff, hres.sizes.1, ← hcount, importCount, ← Array.countP_toList]
      exact Nat.zero_add _
    have hown : ∀ t, (r.tables ++ m.tables.map Table.empty)[0]? = some t →
        t.RefersBelow s.funcs.size := by
      intro t ht
      rw [hnone, Array.empty_append, Array.getElem?_map, Option.map_eq_some_iff] at ht
      obtain ⟨limits, -, rfl⟩ := ht
      exact Table.refersBelow_empty limits _
    obtain ⟨-, hs⟩ | ⟨t₀, t₁, rfl, hs, hmin⟩ := optionMapM_eq_ok htable'
    · rw [hs] at ht
      contradiction
    · rw [hs] at ht
      cases ht
      exact (hslots hown t₀ rfl).ensureMin hmin

end Module

end Wasm
