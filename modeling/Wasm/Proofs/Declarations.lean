import Wasm.Module

/-!
# Wasm.Proofs.Declarations

What a module declares, imported things and its own alike.

* `Module.importCount`, `Module.count`: how many things of a kind are imported and how many there
  are, counted from what is declared.
* `Module.signature?`, `Module.globalTypes`: the types of functions and globals, by index.
* `Module.Counted`: the counters that a module keeps of its imports are right. Then so are the
  totals and the types of functions that are worked out with them, `Counted.total_eq` and
  `Counted.funcType?_eq`.
-/

namespace Wasm

/-- The type that a global import gives. -/
def ImportDesc.global? : ImportDesc → Option GlobalType
  | .global type => some type
  | _ => none

/-! ## Counters -/

namespace ImportCounts

/-- The counter of a kind. -/
def get (c : ImportCounts) : ExternKind → Nat
  | .func => c.funcs
  | .table => c.tables
  | .memory => c.memories
  | .global => c.globals

/-- Counters are what they say of each kind. -/
theorem ext_get {c c' : ImportCounts} (h : ∀ kind, c.get kind = c'.get kind) : c = c' := by
  obtain ⟨funcs, tables, memories, globals⟩ := c
  obtain rfl : funcs = _ := h .func
  obtain rfl : tables = _ := h .table
  obtain rfl : memories = _ := h .memory
  obtain rfl : globals = _ := h .global
  rfl

/-- An import is counted for its own kind. -/
theorem get_add (c : ImportCounts) (kind kind' : ExternKind) :
    (c.add kind').get kind = c.get kind + if kind' = kind then 1 else 0 := by
  cases kind' <;> cases kind <;> rfl

/-- Counting one by one comes to the number of imports of a kind. -/
theorem get_addAll (c : ImportCounts) (imports : Array Import) (kind : ExternKind) :
    (c.addAll imports).get kind = c.get kind + imports.countP (·.desc.kind = kind) := by
  rw [addAll, ← Array.foldl_toList, ← Array.countP_toList]
  induction imports.toList generalizing c with
  | nil => rfl
  | cons i is ih =>
    rw [List.foldl_cons, ih, get_add, List.countP_cons, Nat.add_assoc, Nat.add_comm (ite _ _ _)]
    simp only [decide_eq_true_eq]

end ImportCounts

namespace Module

/-- The number of imports of a kind. -/
def importCount (m : Module) (kind : ExternKind) : Nat :=
  m.imports.countP (·.desc.kind = kind)

/-- The number of the module's own things of a kind. -/
def ownCount (m : Module) : ExternKind → Nat
  | .func => m.funcs.size
  | .table => m.tables.size
  | .memory => m.memories.size
  | .global => m.globals.size

/-- The number of things of a kind that are declared, imported ones included. -/
def count (m : Module) (kind : ExternKind) : Nat :=
  m.importCount kind + m.ownCount kind

/-- The number of things of a kind as the module works it out. -/
def total (m : Module) : ExternKind → Nat
  | .func => m.totalFuncs
  | .table => m.totalTables
  | .memory => m.totalMemories
  | .global => m.totalGlobals

/-- The total is what the counter says and what the module declares itself. -/
theorem total_eq_add (m : Module) (kind : ExternKind) :
    m.total kind = m.imported.get kind + m.ownCount kind := by
  cases kind <;> rfl

/-- There are no more imports of a kind than imports. -/
theorem importCount_le_size (m : Module) (kind : ExternKind) :
    m.importCount kind ≤ m.imports.size :=
  Array.countP_le_size

/-! ## Imported things by kind -/

/-- The imports of functions, in the order of their indices. -/
def funcImports (m : Module) : List Import :=
  m.imports.toList.filter (·.desc.kind = .func)

/-- The imports of globals, in the order of their indices. -/
def globalImports (m : Module) : List Import :=
  m.imports.toList.filter (·.desc.kind = .global)

/-- The types of the imported globals. -/
def importedGlobals (m : Module) : List GlobalType :=
  m.imports.toList.filterMap (·.desc.global?)

/-- The types of the globals, imported ones first. -/
def globalTypes (m : Module) : List GlobalType :=
  m.importedGlobals ++ m.globals.toList.map GlobalDef.type

/-- The type of a function, by its index: imported ones come first. -/
def signature? (m : Module) (index : Nat) : Option FuncType :=
  (m.importedFuncs ++ m.funcs)[index]?.bind fun type => m.types[type.toNat]?

/-- There are as many imports of a kind as there are imports with something that only it has. -/
theorem length_filterMap_desc (m : Module) {part : ImportDesc → Option α}
    (hpart : ∀ desc, (part desc).isSome = decide (desc.kind = kind)) :
    (m.imports.toList.filterMap (part ·.desc)).length = m.importCount kind := by
  rw [importCount, ← Array.countP_toList, List.length_filterMap_eq_countP]
  simp only [hpart]

theorem toList_importedFuncs (m : Module) :
    m.importedFuncs.toList = m.imports.toList.filterMap (·.desc.func?) :=
  Array.toList_filterMap

/-- There is a type index for each function that is imported. -/
theorem size_importedFuncs (m : Module) : m.importedFuncs.size = m.importCount .func := by
  rw [← Array.length_toList, toList_importedFuncs]
  exact m.length_filterMap_desc fun desc => by cases desc <;> rfl

theorem length_importedGlobals (m : Module) : m.importedGlobals.length = m.importCount .global :=
  m.length_filterMap_desc fun desc => by cases desc <;> rfl

/-! ## Right counters -/

/-- The counters say how many things of each kind are imported. -/
def Counted (m : Module) : Prop :=
  ∀ kind, m.imported.get kind = m.importCount kind

/-- The counters are right if they have come from zero by counting the imports, and only then. -/
theorem counted_iff {m : Module} :
    m.Counted ↔ m.imported = ImportCounts.addAll {} m.imports := by
  have hcount (kind : ExternKind) :
      (ImportCounts.addAll {} m.imports).get kind = m.importCount kind := by
    rw [ImportCounts.get_addAll]
    cases kind <;> exact Nat.zero_add _
  constructor
  · intro h
    exact ImportCounts.ext_get fun kind => (h kind).trans (hcount kind).symm
  · intro h kind
    rw [h, hcount]

namespace Counted

variable {m : Module}

/-- With right counters, totals count what there is. -/
theorem total_eq (h : m.Counted) (kind : ExternKind) : m.total kind = m.count kind := by
  rw [total_eq_add, h kind, count]

/-- With right counters, a function index is resolved as the order of declarations says. -/
theorem funcType?_eq (h : m.Counted) (index : Nat) : m.funcType? index = m.signature? index := by
  have hsize : m.imported.funcs = m.importedFuncs.size := (h .func).trans m.size_importedFuncs.symm
  rw [funcType?, signature?, hsize]
  by_cases hindex : index < m.importedFuncs.size
  · rw [Array.getElem?_append_left hindex, if_pos hindex]
    rfl
  · rw [Array.getElem?_append_right (Nat.le_of_not_lt hindex), if_neg hindex]
    rfl

end Counted

end Module

end Wasm
