import Mathlib
import Wasm.Proofs.Floats
import Wasm.Proofs.Typing

/-!
# Wasm.Proofs.Numbering

The index space that linking builds is the one that the module declares.

* `Module.total_lt`: the things of a decoded module can be numbered with 32 bits. There are imported
  ones and the module's own, which two sections list; an entry of either takes two bytes or more, so
  that each section has fewer than half of what 32 bits can count.
* `Module.AsDeclared`: an index space has what a module declares, where it declares it.
* `Module.link_asDeclared`: linking a decoded module gives such an index space.
-/

namespace Wasm

open Reader Leb128

/-! ## The number of entries -/

theorem length_writeUnsigned_pos (n : Nat) : 0 < (writeUnsigned n).length :=
  (writeUnsigned_spells n).1.length_pos

theorem Write.length_name_pos (s : String) : 0 < (Write.name s).length := by
  have hpos := length_writeUnsigned_pos s.toUTF8.data.toList.length
  rw [Write.name, Write.length_lengthPrefixed]
  omega

/-- The lengths of its two names alone take two bytes. -/
theorem Import.two_le_length_write (i : Import) : 2 ≤ i.write.length := by
  have hmodule := Write.length_name_pos i.module
  have hname := Write.length_name_pos i.name
  simp only [Import.write, List.length_append, List.length_cons]
  omega

theorem GlobalDef.two_le_length_write (g : GlobalDef) : 2 ≤ g.write.length := by
  simp only [GlobalDef.write, GlobalType.write, List.length_append, List.length_cons]
  omega

theorem CodeBody.two_le_length_write (c : CodeBody) : 2 ≤ c.write.length := by
  have hsize := length_writeUnsigned_pos c.content.length
  have hcount := length_writeUnsigned_pos c.locals.toList.length
  have hcontent : 0 < c.content.length := by
    simp only [CodeBody.content, Write.length_vec, List.length_append]
    omega
  rw [CodeBody.write, Write.length_lengthPrefixed]
  omega

theorem two_mul_length_le_flatMap {f : α → List β} (hf : ∀ a, 2 ≤ (f a).length) (xs : List α) :
    2 * xs.length ≤ (xs.flatMap f).length := by
  induction xs with
  | nil => simp
  | cons x xs ih =>
    have hx := hf x
    simp only [List.flatMap_cons, List.length_append, List.length_cons]
    omega

namespace Module

variable {m : Module} {imports : Imports} {s : IndexSpace}

/-- Entries of two bytes or more fill half of what a size can say, if their section fits. -/
theorem two_mul_size_lt {write : α → List UInt8} {items : Array α}
    (hwrite : ∀ a, 2 ≤ (write a).length)
    (hsize : ∀ payload, vecPayload? write items = some payload → payload.length < UInt32.size) :
    2 * items.size < UInt32.size := by
  by_cases hempty : items = #[]
  · have hpos : 0 < UInt32.size := by decide
    rwa [hempty, List.size_toArray, List.length_nil, Nat.mul_zero]
  · have hlt : (Write.vec write items.toList).length < UInt32.size :=
      hsize _ (by simp [vecPayload?, hempty])
    have hle : 2 * items.size ≤ (items.toList.flatMap write).length :=
      two_mul_length_le_flatMap hwrite items.toList
    rw [Write.length_vec] at hlt
    omega

/-- The counters of a module that was decoded are right. -/
theorem counted_of_decode {bytes : Array UInt8} {options : ReadOptions}
    (h : decode bytes options = .ok m) : m.Counted :=
  (wellFormed_of_parse (parse_of_options (decode_eq_ok_iff.mp h).1)).2

/-- What is declared in a module that was decoded can be numbered with 32 bits. -/
theorem total_lt {bytes : Array UInt8} {options : ReadOptions}
    (h : decode bytes options = .ok m) (kind : ExternKind) : m.total kind < UInt32.size := by
  obtain ⟨hparse, hbodies, -⟩ := decode_eq_ok_iff.mp h
  obtain ⟨hwf, hcounted⟩ := wellFormed_of_parse (parse_of_options hparse)
  have himports : 2 * m.imports.size < UInt32.size :=
    two_mul_size_lt Import.two_le_length_write (hwf .imports).size
  have hcount := m.importCount_le_size kind
  have hone : 1 < UInt32.size := by decide
  rw [hcounted.total_eq, count]
  cases kind with
  | func =>
    have hcodes : 2 * m.codes.size < UInt32.size :=
      two_mul_size_lt CodeBody.two_le_length_write (hwf .codes).size
    simp only [ownCount]
    omega
  | table =>
    have htables : m.tables.size ≤ 1 := (hwf .tables).fits.1
    simp only [ownCount]
    omega
  | memory =>
    have hmemories : m.memories.size ≤ 1 := (hwf .memories).fits.1
    simp only [ownCount]
    omega
  | global =>
    have hglobals : 2 * m.globals.size < UInt32.size :=
      two_mul_size_lt GlobalDef.two_le_length_write (hwf .globals).size
    simp only [ownCount]
    omega

/-! ## The index space -/

/-- An index space has what a module declares: of each kind the imported things in the order of the
imports, and behind them the module's own in the order of their section. -/
structure AsDeclared (m : Module) (imports : Imports) (s : IndexSpace) : Prop where
  counts : ∀ kind, s.count kind = m.total kind
  tables : m.totalTables ≤ 1
  memories : m.totalMemories ≤ 1
  funcTypes : ∀ k, m.funcType? k = (s.funcs[k]?).map Func.type
  importedFuncs : m.funcImports.map (Link.lookup imports) =
    (s.funcs.toList.take (m.importCount .func)).map fun f => .ok (.func f)
  ownFuncs : ∀ k code, m.codes[k]? = some code → ∃ c,
    s.funcs[m.importCount .func + k]? = some (.code c) ∧ c.body = code.body ∧
      c.localCount = code.localCount ∧ c.types = m.types ∧
      analyzeBlocks c.body c.types = .ok c.blocks
  globalTypes : s.globals.toList.map Global.type = m.globalTypes
  importedGlobals : Link.CopiesGlobals imports m.globalImports
    (s.globals.toList.take (m.importCount .global))
  immutable : ∀ g ∈ s.globals.toList.take (m.importCount .global), g.type.mutable = false

namespace Linked

/-- An index space has as many things of each kind as the module declares. -/
theorem counts (h : m.Linked imports s) (kind : ExternKind) : s.count kind = m.count kind := by
  cases kind with
  | func => exact h.funcs
  | table => exact h.tables
  | memory => exact h.memories
  | global =>
    have hlength := congrArg List.length h.globalTypes
    rw [Module.globalTypes, List.length_append, List.length_map, List.length_map,
      length_importedGlobals] at hlength
    exact hlength

/-- Behind the imported functions there is one for each body. -/
theorem exists_code (h : m.Linked imports s) (hbodies : m.funcs.size = m.codes.size)
    (hcode : m.codes[k]? = some code) : ∃ c, s.funcs[m.importCount .func + k]? = some (.code c) ∧
      c.body = code.body ∧ c.localCount = code.localCount ∧ c.types = m.types ∧
      analyzeBlocks c.body c.types = .ok c.blocks := by
  have hk : k < m.codes.size := (Array.getElem?_eq_some_iff.mp hcode).1
  have hlt : m.importCount .func + k < s.funcs.size := by
    rw [h.funcs, count, ownCount]
    omega
  have hf := Array.getElem?_eq_getElem hlt
  obtain ⟨type, c, hc, -, hdefines⟩ := h.defined _ _ (Nat.le_add_right _ k) hf
  rw [Nat.add_sub_cancel_left] at hdefines
  obtain ⟨code', hcode', hbody, hlocals⟩ := hdefines.body
  cases hcode.symm.trans hcode'
  exact ⟨c, hc ▸ hf, hbody, hlocals, hdefines.types, hdefines.blocks⟩

/-- The globals that are imported come first, and are not mutable. -/
theorem immutable_of_mem (h : m.Linked imports s)
    (hg : g ∈ s.globals.toList.take (m.importCount .global)) : g.type.mutable = false := by
  have himported : (s.globals.toList.take (m.importCount .global)).map Global.type =
      m.importedGlobals := by
    rw [List.map_take, h.globalTypes, Module.globalTypes, List.take_left' m.length_importedGlobals]
  refine h.immutable g.type ?_
  rw [← himported]
  exact List.mem_map_of_mem hg

end Linked

theorem length_toList_le_one (o : Option α) : o.toList.length ≤ 1 := by
  cases o <;> simp

/-- The clauses of the numbering, from what each stage of linking leaves. -/
theorem asDeclared_of_link (hcounted : m.Counted) (hbodies : m.funcs.size = m.codes.size)
    (h : m.link imports = .ok s) : m.AsDeclared imports s := by
  have hlinked : m.Linked imports s := linked_of_link h
  have hcounts (kind : ExternKind) : s.count kind = m.total kind :=
    (hlinked.counts kind).trans (hcounted.total_eq kind).symm
  constructor
  case counts => exact hcounts
  case tables => exact (hcounts .table).ge.trans (length_toList_le_one s.table)
  case memories => exact (hcounts .memory).ge.trans (length_toList_le_one s.memory)
  case funcTypes => exact fun k => (hcounted.funcType?_eq k).trans (hlinked.funcTypes k).symm
  case importedFuncs => exact hlinked.importedFuncs
  case ownFuncs => exact fun k code hcode => hlinked.exists_code hbodies hcode
  case globalTypes => exact hlinked.globalTypes
  case importedGlobals => exact hlinked.importedGlobals
  case immutable => exact fun g hg => hlinked.immutable_of_mem hg

/-- Linking a decoded module builds the index space that the module declares, and no index of it
needs more than 32 bits. -/
theorem link_asDeclared {bytes : Array UInt8} {options : ReadOptions}
    (h : decode bytes options = .ok m) :
    (∀ kind, m.total kind < UInt32.size) ∧
      ∀ imports s, m.link imports = .ok s → m.AsDeclared imports s := by
  obtain ⟨-, hbodies, -⟩ := decode_eq_ok_iff.mp h
  exact ⟨total_lt h, fun imports s hlink => asDeclared_of_link (counted_of_decode h) hbodies hlink⟩

/-- A module whose imports of functions and globals take turns. -/
def interleaved : Module where
  types := #[⟨[], []⟩, ⟨[.i64], []⟩]
  imports := #[⟨"env", "base", .global ⟨.i32, false⟩⟩, ⟨"env", "tick", .func 0⟩,
    ⟨"env", "memory", .memory ⟨0, none⟩⟩, ⟨"env", "step", .global ⟨.i64, false⟩⟩,
    ⟨"env", "put", .func 1⟩]
  funcs := #[1, 0]
  globals := #[⟨⟨.i32, true⟩, ⟨.globalGet, #[0x00]⟩⟩]
  codes := #[⟨#[], #[0x01, 0x0B]⟩, ⟨#[⟨2, .i32⟩], #[0x0B]⟩]

/-- What the imports of `interleaved` are looked up in. -/
def environment : Imports :=
  ⟨[("env", ⟨[("tick", .func (.host ⟨"tick", ⟨[], []⟩, fun _ _ => ⟨[], .ok []⟩⟩)),
    ("put", .func (.host ⟨"put", ⟨[.i64], []⟩, fun _ _ => ⟨[], .ok []⟩⟩)),
    ("memory", .memory (.empty ⟨0, none⟩)),
    ("base", .global (.ofValue ⟨.i32, false⟩ (.i32 40))),
    ("step", .global (.ofValue ⟨.i64, false⟩ (.i64 2)))]⟩)]⟩

theorem link_asDeclared_interleaved :
    decode interleaved.encode = .ok interleaved ∧
      ∃ s, interleaved.link environment = .ok s ∧ interleaved.AsDeclared environment s := by
  have hdecode : decode interleaved.encode = .ok interleaved :=
    eq_ok_of_toOption (by decide +kernel)
  obtain ⟨s, hlink⟩ : ∃ s, interleaved.link environment = .ok s := by
    refine ⟨?s, ?linked⟩
    case linked =>
      cbv
      rfl
  exact ⟨hdecode, s, hlink, (link_asDeclared hdecode).2 environment s hlink⟩

end Module

end Wasm
