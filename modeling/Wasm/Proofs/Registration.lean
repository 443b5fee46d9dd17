import Wasm.Linker
import Wasm.Proofs.History

/-!
# Wasm.Proofs.Registration

What definitions make of a linker.

* `Instance.ExportsWellFormed`: the exports of an instance have distinct names and stand for
  something. This is so of every instance that was created, however it has been used since
  (`Instance.wellFormed_of_used`).
* `Linker.Adds l module added l'`: some names of a module have been added, and all other lookups
  answer as before.
* `Linker.Registers`: how definitions one after the other can end. Either all of them are made, or
  one is refused and those before it stay.
* `Linker.exports_register` says this of the exports of an instance, for every order in which one
  can go through them.

A single definition is all or nothing (`Linker.define_cases`). The exports of an instance are not:
in some orders one of them comes before the one that is refused, and it stays defined
(`Linker.export_stays`).
-/

namespace Wasm

namespace NameMap

variable {α : Type u} {m : NameMap α}

/-- No name has two entries. -/
def Distinct (m : NameMap α) : Prop :=
  (m.entries.map Prod.fst).Nodup

/-- Inserting adds one name. -/
theorem mem_names_insertEntry (name : String) (a : α) (es : List (String × α)) (other : String) :
    other ∈ (insertEntry name a es).map Prod.fst ↔ other = name ∨ other ∈ es.map Prod.fst := by
  induction es with
  | nil => simp [insertEntry]
  | cons e es ih =>
    rw [insertEntry]
    split
    · next h => simp [h]
    · rw [List.map_cons, List.mem_cons, ih, List.map_cons, List.mem_cons, or_left_comm]

/-- A name that is there already is not inserted again. -/
theorem Distinct.insert (h : m.Distinct) (name : String) (a : α) : (m.insert name a).Distinct := by
  obtain ⟨es⟩ := m
  unfold Distinct NameMap.insert at *
  induction es with
  | nil => simp [insertEntry]
  | cons e es ih =>
    rw [List.map_cons, List.nodup_cons] at h
    simp only [insertEntry]
    split
    · next heq =>
      rw [List.map_cons, List.nodup_cons, ← heq]
      exact h
    · next hne =>
      rw [List.map_cons, List.nodup_cons, mem_names_insertEntry, not_or]
      exact ⟨⟨hne, h.1⟩, ih h.2⟩

/-- Under distinct names, what stands under a name is what the entries say. -/
theorem Distinct.get?_eq_some_iff (h : m.Distinct) {name : String} {a : α} :
    m.get? name = some a ↔ (name, a) ∈ m.entries := by
  obtain ⟨es⟩ := m
  unfold Distinct get? at *
  induction es with
  | nil => simp [findEntry]
  | cons e es ih =>
    rw [List.map_cons, List.nodup_cons] at h
    obtain ⟨first, b⟩ := e
    rw [findEntry, List.mem_cons]
    split
    · next heq =>
      subst heq
      have hnot : (first, a) ∉ es := fun hmem => h.1 (List.mem_map.mpr ⟨_, hmem, rfl⟩)
      simp [hnot, eq_comm]
    · next hne => simp [ih h.2, Ne.symm hne]

end NameMap

/-! ## The exports of an instance -/

/-- Later exports of a name replace earlier ones, so each has one entry. -/
theorem IndexSpace.distinct_of_bindExports {s : IndexSpace}
    (h : s.bindExports es exports = .ok exports') (hexports : exports.Distinct) :
    exports'.Distinct := by
  induction es generalizing exports with
  | nil =>
    cases h
    exact hexports
  | cons e es ih =>
    simp only [bindExports] at h
    split at h
    · exact ih h (hexports.insert _ _)
    · contradiction

theorem IndexSpace.get?_of_lt_count {s : IndexSpace} {kind : ExternKind} {k : Nat}
    (h : k < s.count kind) : ∃ ext, s.get? kind k = some ext := by
  cases kind <;> simp_all [get?, count]

namespace Instance

/-- The exports have distinct names, and each one has an index of its index space. -/
structure ExportsWellFormed (i : Instance) : Prop where
  distinct : i.exports.Distinct
  exports : i.space.Exports i.exports

/-- Exports do not change, and what they refer to stays. -/
theorem ExportsWellFormed.evolves {i j : Instance} (h : i.ExportsWellFormed) (hj : i.Evolves j) :
    j.ExportsWellFormed where
  distinct := by rw [hj.exports]; exact h.distinct
  exports := by
    intro name ref href
    rw [hj.exports] at href
    rw [hj.space.count_eq]
    exact h.exports name ref href

/-- Linking binds each name once, to something that is there; use does not change that. -/
theorem wellFormed_of_used {m : Module} {imports : Imports} {config : EngineConfig}
    {i j : Instance} (hi : m.instantiate imports config steps = some ⟨.ok i, hostCalls⟩)
    (hj : i.Used j) :
    j.ExportsWellFormed := by
  obtain ⟨space, exports, -, hexports, hhistory⟩ := Module.history_of_instantiate hi
  have hused : (m.fresh space exports config).Used j := (Used.of_history hhistory).trans hj
  have hempty : (∅ : NameMap ExportRef).Distinct := List.nodup_nil
  refine ExportsWellFormed.evolves ⟨?_, ?_⟩ (hused.evolves rfl)
  · exact IndexSpace.distinct_of_bindExports hexports hempty
  · exact IndexSpace.exports_of_bindExports hexports (by simp [IndexSpace.Exports])

/-- Every export stands for something that can be imported under its name, and nothing else can. -/
theorem ExportsWellFormed.mem_externs_iff {i : Instance} (h : i.ExportsWellFormed)
    {name : String} {ext : Extern} : (name, ext) ∈ i.externs.entries ↔
      ∃ ref, i.exports.get? name = some ref ∧ i.space.get? ref.kind ref.index.toNat = some ext := by
  simp [externs, List.mem_filterMap, h.distinct.get?_eq_some_iff]

/-- What can be imported has the names of the exports, in their order. -/
theorem ExportsWellFormed.distinct_externs {i : Instance} (h : i.ExportsWellFormed) :
    i.externs.Distinct := by
  have hsub : (i.externs.entries.map Prod.fst).Sublist (i.exports.entries.map Prod.fst) := by
    simp only [externs]
    induction i.exports.entries with
    | nil => exact .slnil
    | cons e es ih =>
      rw [List.filterMap_cons]
      cases i.space.get? e.2.kind e.2.index.toNat with
      | none => exact ih.cons _
      | some ext => exact ih.cons_cons _
  exact h.distinct.sublist hsub

end Instance

/-! ## Definitions -/

namespace Linker

variable {l l' l'' : Linker} {module : String}

/-- Some names of a module have been added; all other lookups answer as before. -/
structure Adds (l : Linker) (module : String) (added : List (String × Extern)) (l' : Linker) :
    Prop where
  defined : ∀ name ext, (name, ext) ∈ added → l'.lookup? module name = some ext
  others : ∀ module' name, (module' = module → name ∉ added.map Prod.fst) →
    l'.lookup? module' name = l.lookup? module' name
  shadowing : l'.shadowing = l.shadowing
  engine : l'.engine = l.engine

theorem Adds.nil (l : Linker) (module : String) : l.Adds module [] l :=
  ⟨fun _ _ h => absurd h List.not_mem_nil, fun _ _ _ => rfl, rfl, rfl⟩

/-- What is added under other names stays. -/
theorem Adds.cons (h : l.Adds module [(name, ext)] l') (h' : l'.Adds module added l'')
    (hname : name ∉ added.map Prod.fst) : l.Adds module ((name, ext) :: added) l'' where
  defined := by
    intro name' ext' hmem
    obtain heq | hmem := List.mem_cons.mp hmem
    · cases heq
      rw [h'.others module name fun _ => hname]
      exact h.defined name ext (List.mem_singleton.mpr rfl)
    · exact h'.defined name' ext' hmem
  others := by
    intro module' name' hnot
    rw [h'.others module' name' fun heq hmem => hnot heq (List.mem_cons_of_mem _ hmem)]
    refine h.others module' name' fun heq hmem => hnot heq ?_
    rw [List.mem_singleton.mp hmem]
    exact List.mem_cons_self
  shadowing := h'.shadowing.trans h.shadowing
  engine := h'.engine.trans h.engine

/-- Putting a name into a module changes what stands under that name of that module. -/
theorem lookup?_insert (l : Linker) (module name : String) (ext : Extern) (module' name' : String) :
    let names := ((l.modules.get? module).getD ∅).insert name ext
    lookup? { l with modules := l.modules.insert module names } module' name' =
      if module' = module ∧ name' = name then some ext else l.lookup? module' name' := by
  simp only [lookup?, NameMap.get?_insert]
  by_cases hmodule : module' = module
  · subst hmodule
    cases hnames : l.modules.get? module' <;> simp
  · simp [hmodule]

/-- A definition is refused if there is one already that may not be replaced, and then nothing
changes; otherwise it is made. -/
theorem define_cases (l : Linker) (module name : String) (ext : Extern) :
    (l.shadowing = false ∧ l.lookup? module name ≠ none ∧
      define module name ext l = .error (.duplicateDefinition module name) l) ∨
    ((l.shadowing = true ∨ l.lookup? module name = none) ∧
      ∃ l', define module name ext l = .ok () l' ∧ l.Adds module [(name, ext)] l') := by
  unfold define
  split
  · next h =>
    rw [Bool.and_eq_true, Bool.not_eq_true'] at h
    exact .inl ⟨h.2, Option.isSome_iff_ne_none.mp h.1, rfl⟩
  · next h =>
    have hfree : l.shadowing = true ∨ l.lookup? module name = none := by
      cases hshadowing : l.shadowing <;> simp_all
    refine .inr ⟨hfree, _, rfl, ?_, ?_, rfl, rfl⟩
    · intro name' ext' hmem
      cases List.mem_singleton.mp hmem
      rw [lookup?_insert, if_pos ⟨rfl, rfl⟩]
    · intro module' name' hnot
      rw [lookup?_insert, if_neg]
      rintro ⟨hmodule, rfl⟩
      exact hnot hmodule (List.mem_singleton.mpr rfl)

/-- How definitions one after the other can end: all of them are made; or one is refused, since its
name was defined before, and those that came before it stay. -/
inductive Registers (l : Linker) (module : String) (entries : List (String × Extern)) :
    EStateM.Result LinkError Linker Unit → Prop where
  | all {l' : Linker} (hfree : l.shadowing = true ∨ ∀ e ∈ entries, l.lookup? module e.1 = none)
      (hadds : l.Adds module entries l') : Registers l module entries (.ok () l')
  | refused {l' : Linker} (hentries : entries = before ++ (name, ext) :: after)
      (hshadowing : l.shadowing = false)
      (hbefore : ∀ e ∈ before, l.lookup? module e.1 = none) (hname : l.lookup? module name ≠ none)
      (hadds : l.Adds module before l') :
      Registers l module entries (.error (.duplicateDefinition module name) l')

/-- After a definition that is made, the others end as they would without it. -/
theorem Registers.cons (hfree : l.shadowing = true ∨ l.lookup? module name = none)
    (hadds : l.Adds module [(name, ext)] l') (hname : name ∉ entries.map Prod.fst)
    (h : l'.Registers module entries result) :
    l.Registers module ((name, ext) :: entries) result := by
  -- The names that are left were as free before the first definition as they are now.
  have hsame : ∀ e ∈ entries, l'.lookup? module e.1 = l.lookup? module e.1 := by
    intro e he
    refine hadds.others module e.1 fun _ hmem => hname ?_
    obtain rfl : e.1 = name := List.mem_singleton.mp hmem
    exact List.mem_map_of_mem he
  cases h with
  | all hfree' hadds' =>
    refine .all ?_ (hadds.cons hadds' hname)
    rw [hadds.shadowing] at hfree'
    obtain hshadowing | hfree := hfree
    · exact .inl hshadowing
    · refine hfree'.imp_right fun hnone => List.forall_mem_cons.mpr ⟨hfree, fun e he => ?_⟩
      rw [← hsame e he]
      exact hnone e he
  | @refused before name' ext' after _ heq hshadowing hbefore hname' hadds' =>
    subst heq
    rw [hadds.shadowing] at hshadowing
    have hfree : l.lookup? module name = none := by simpa [hshadowing] using hfree
    rw [hsame _ (List.mem_append_right before List.mem_cons_self)] at hname'
    rw [List.map_append] at hname
    have hsplit : (name, ext) :: (before ++ (name', ext') :: after) =
        ((name, ext) :: before) ++ (name', ext') :: after := rfl
    refine .refused hsplit hshadowing (List.forall_mem_cons.mpr ⟨hfree, fun e he => ?_⟩) hname'
      (hadds.cons hadds' fun hmem => hname (List.mem_append_left _ hmem))
    rw [← hsame e (List.mem_append_left _ he)]
    exact hbefore e he

/-- By induction on the definitions that are left. Names do not repeat, so that one definition does
not change whether the next is refused. -/
theorem registers_defineAll (l : Linker) (module : String)
    (hentries : (entries.map Prod.fst).Nodup) :
    l.Registers module entries (defineAll module entries l) := by
  induction entries generalizing l with
  | nil => exact .all (.inr fun _ h => absurd h List.not_mem_nil) (.nil l module)
  | cons e entries ih =>
    obtain ⟨name, ext⟩ := e
    rw [List.map_cons, List.nodup_cons] at hentries
    obtain ⟨hshadowing, hname, hdefine⟩ | ⟨hfree, l', hdefine, hadds⟩ :=
      l.define_cases module name ext
    · have hstop : defineAll module ((name, ext) :: entries) l =
          .error (.duplicateDefinition module name) l := by
        simp only [defineAll, bind, EStateM.bind, hdefine]
      rw [hstop]
      exact .refused (List.nil_append _).symm hshadowing
        (fun _ h => absurd h List.not_mem_nil) hname (.nil l module)
    · have hnext : defineAll module ((name, ext) :: entries) l = defineAll module entries l' := by
        simp only [defineAll, bind, EStateM.bind, hdefine]
      rw [hnext]
      exact (ih l' hentries.2).cons hfree hadds hentries.1

/-- Registration goes name by name. A single definition is made, or refused and then nothing
changes. Of the exports of an instance, in whatever order one goes through them, each one is made
importable; or, where definitions may not be replaced, the first one whose name was defined before
is refused, and exactly those that come before it have been made importable. -/
theorem exports_register {m : Module} {imports : Imports} {config : EngineConfig} {i j : Instance}
    (hi : m.instantiate imports config steps = some ⟨.ok i, hostCalls⟩) (hj : i.Used j)
    (l : Linker) (module : String) :
    (∀ name ext,
      (l.shadowing = false ∧ l.lookup? module name ≠ none ∧
        define module name ext l = .error (.duplicateDefinition module name) l) ∨
      ((l.shadowing = true ∨ l.lookup? module name = none) ∧
        ∃ l', define module name ext l = .ok () l' ∧ l.Adds module [(name, ext)] l')) ∧
    (∀ name ref, j.exports.get? name = some ref →
      ∃ ext, j.space.get? ref.kind ref.index.toNat = some ext ∧
        (name, ext) ∈ j.externs.entries) ∧
    ∀ order : j.externs.Order,
      l.Registers module order.entries (defineInstance module j order l) := by
  have hwf := Instance.wellFormed_of_used hi hj
  refine ⟨l.define_cases module, fun name ref href => ?_, fun order => ?_⟩
  · obtain ⟨ext, hext⟩ := IndexSpace.get?_of_lt_count (hwf.exports name ref href)
    exact ⟨ext, hext, hwf.mem_externs_iff.mpr ⟨ref, href, hext⟩⟩
  · have hnodup : (order.entries.map Prod.fst).Nodup :=
      (order.perm.map Prod.fst).nodup_iff.mpr hwf.distinct_externs
    exact registers_defineAll l module hnodup

/-- A module that exports one global under two names. -/
def twofold : Module where
  globals := #[⟨⟨.i32, false⟩, ⟨.i32Const, #[0x07]⟩⟩]
  exports := #[⟨"a", .global, 0⟩, ⟨"b", .global, 0⟩]

/-- The global of `twofold`. -/
def seven : Extern := .global ⟨⟨.i32, false⟩, 7⟩

/-- A linker that lets nothing be replaced, with the second one of the names. -/
def taken : Linker where
  modules := (∅ : Imports).insert "lib"
    ((∅ : NameMap Extern).insert "b" (.global ⟨⟨.i32, false⟩, 1⟩))
  shadowing := false

/-- The instance of `twofold`, and what can be imported from it. -/
theorem twofold_created : ∃ i, twofold.instantiate ∅ {} 0 = some ⟨.ok i, #[]⟩ ∧
    i.externs.entries = [("a", seven), ("b", seven)] := by
  refine ⟨?i, ?created, ?exported⟩
  case created =>
    cbv
    rfl
  case exported => rfl

/-- In one order the first export stays although the second one is refused; in the other order the
refused one comes first, and nothing changes. -/
theorem exports_register_twofold :
    ∃ i, twofold.instantiate ∅ {} 0 = some ⟨.ok i, #[]⟩ ∧ ∃ order order' : i.externs.Order,
      order.entries = [("a", seven), ("b", seven)] ∧
      taken.Registers "lib" order.entries (defineInstance "lib" i order taken) ∧
      order'.entries = [("b", seven), ("a", seven)] ∧
      taken.Registers "lib" order'.entries (defineInstance "lib" i order' taken) ∧
      defineInstance "lib" i order' taken = .error (.duplicateDefinition "lib" "b") taken := by
  obtain ⟨i, hi, hentries⟩ := twofold_created
  obtain ⟨-, -, horders⟩ := exports_register hi .unused taken "lib"
  have hperm : [("b", seven), ("a", seven)].Perm i.externs.entries := hentries ▸ .swap _ _ _
  exact ⟨i, hi, .inserted, ⟨_, hperm⟩, hentries, horders _, rfl, horders _, rfl⟩

/-- A registration that is refused can leave an export behind: it does so in an order in which that
export comes before the one whose name is taken. -/
theorem export_stays :
    ∃ i l', twofold.instantiate ∅ {} 0 = some ⟨.ok i, #[]⟩ ∧ ∃ order : i.externs.Order,
      defineInstance "lib" i order taken = .error (.duplicateDefinition "lib" "b") l' ∧
      taken.lookup? "lib" "a" = none ∧ l'.lookup? "lib" "a" = some seven := by
  obtain ⟨i, hi, hentries⟩ := twofold_created
  have hperm : [("a", seven), ("b", seven)].Perm i.externs.entries := .of_eq hentries.symm
  exact ⟨i, _, hi, ⟨_, hperm⟩, rfl, rfl, rfl⟩

end Linker

end Wasm
