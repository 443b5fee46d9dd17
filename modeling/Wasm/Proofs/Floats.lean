import Wasm.Proofs.RoundTrip

/-!
# Wasm.Proofs.Floats

Ruling out floating point is a filter: the decoder accepts the modules that it accepts otherwise and
in which no floating point occurs, and gives the same module.

* `Reader.Filters P r r'`: `r` reads what `r'` reads and satisfies `P`, and nothing else.
* `Module.FloatFree` says section by section where floating point could occur.
* `Module.filters_sections` takes the filter through the decoder's loop, and
  `decode_integers_iff` is the result.

The check is made on every value type and constant as it is read, while `FloatFree` looks at the
module in the end. They agree because nothing that was read gets lost: a section is read at most
once, and those read later leave it alone (`Module.gives_section`, `Module.gives_sections`).
-/

namespace Wasm

namespace Reader

/-! ## What a reader gives -/

/-- Whatever `r` reads satisfies `P`. -/
def Gives (r : Reader α) (P : α → Prop) : Prop :=
  ∀ data pos a stop, r.runAt data pos = .ok a stop → P a

namespace Gives

theorem pure (h : P a) : Gives (Pure.pure a) P := by
  intro data pos b stop hrun
  rw [runAt_pure] at hrun
  injection hrun with hb
  rwa [← hb]

theorem fail (e : ReadError) : Gives (Reader.fail e) P := by
  intro data pos a stop hrun
  rw [runAt_fail] at hrun
  contradiction

/-- What the first reader gives may be used by the second one. -/
theorem bind {r : Reader α} {f : α → Reader β} (hr : Gives r P) (hf : ∀ a, P a → Gives (f a) Q) :
    Gives (r >>= f) Q := by
  intro data pos b stop hrun
  obtain ⟨a, next, ha, hb⟩ := runAt_bind_eq_ok.mp hrun
  exact hf a (hr data pos a next ha) data next b stop hb

/-- What is read first need not matter. -/
theorem after (r : Reader α) {f : α → Reader β} (hf : ∀ a, Gives (f a) Q) : Gives (r >>= f) Q := by
  intro data pos b stop hrun
  obtain ⟨a, next, -, hb⟩ := runAt_bind_eq_ok.mp hrun
  exact hf a data next b stop hb

/-- In each branch the condition may be used. -/
theorem ite {p : Prop} [Decidable p] {r r' : Reader α} (hr : p → Gives r P)
    (hr' : ¬ p → Gives r' P) : Gives (if p then r else r') P := by
  by_cases hp : p
  · rw [if_pos hp]
    exact hr hp
  · rw [if_neg hp]
    exact hr' hp

theorem within {r : Reader α} (hr : Gives r P) (stop : Nat) : Gives (Reader.within stop r) P :=
  fun data pos a last hrun => hr (data.extract 0 stop) pos a last hrun

end Gives

/-! ## Filters -/

/-- `r` reads what `r'` reads and satisfies `P`, and nothing else. -/
def Filters (P : α → Prop) (r r' : Reader α) : Prop :=
  ∀ data pos a stop, r.runAt data pos = .ok a stop ↔ r'.runAt data pos = .ok a stop ∧ P a

namespace Filters

/-- A reader that only gives what satisfies `P` needs no filter. -/
theorem of_gives {r : Reader α} (h : Gives r P) : Filters P r r :=
  fun data pos a stop => ⟨fun hrun => ⟨hrun, h data pos a stop hrun⟩, And.left⟩

theorem pure (h : P a) : Filters P (Pure.pure a) (Pure.pure a) :=
  of_gives (.pure h)

/-- Where both fail, nothing has to be said of what is read. -/
theorem fail {P : α → Prop} (e : ReadError) : Filters P (Reader.fail e) (Reader.fail e) :=
  of_gives (.fail e)

/-- The filter itself: a check of what was read, which is not made on the other side. -/
theorem check {p q : Prop} [Decidable p] [Decidable q] {a : α} {e e' : ReadError} (h : P a ↔ ¬ p)
    (hq : ¬ q) : Filters P (if p then Reader.fail e else Pure.pure a)
      (if q then Reader.fail e' else Pure.pure a) := by
  rw [if_neg hq]
  by_cases hp : p
  · rw [if_pos hp]
    intro data pos b stop
    rw [runAt_fail, runAt_pure]
    constructor
    · intro hrun
      contradiction
    · intro hrun
      obtain ⟨hrun, hb⟩ := hrun
      injection hrun with hab
      rw [← hab] at hb
      exact absurd hp (h.mp hb)
  · rw [if_neg hp]
    exact pure (h.mpr hp)

theorem ite {p : Prop} [Decidable p] {r r' s s' : Reader α} (hr : Filters P r r')
    (hs : Filters P s s') : Filters P (if p then r else s) (if p then r' else s') := by
  by_cases hp : p
  · rwa [if_pos hp, if_pos hp]
  · rwa [if_neg hp, if_neg hp]

/-- A sequence filters if both parts do: what is wrong with the first part is wrong with all that
the second one makes of it. -/
theorem bind {r r' : Reader α} {f f' : α → Reader β} (hr : Filters P r r') (hG : Gives r' G)
    (hf : ∀ a, G a → P a → Filters Q (f a) (f' a))
    (hback : ∀ a, G a → Gives (f' a) fun b => Q b → P a) : Filters Q (r >>= f) (r' >>= f') := by
  intro data pos b stop
  rw [runAt_bind_eq_ok, runAt_bind_eq_ok]
  constructor
  · intro h
    obtain ⟨a, next, ha, hb⟩ := h
    obtain ⟨ha, hP⟩ := (hr data pos a next).mp ha
    obtain ⟨hb, hQ⟩ := (hf a (hG data pos a next ha) hP data next b stop).mp hb
    exact ⟨⟨a, next, ha, hb⟩, hQ⟩
  · intro h
    obtain ⟨⟨a, next, ha, hb⟩, hQ⟩ := h
    have hGa : G a := hG data pos a next ha
    have hP : P a := hback a hGa data next b stop hb hQ
    exact ⟨a, next, (hr data pos a next).mpr ⟨ha, hP⟩,
      (hf a hGa hP data next b stop).mpr ⟨hb, hQ⟩⟩

/-- The same where nothing needs to be known of the first part but the filter. -/
theorem andThen {r r' : Reader α} {f f' : α → Reader β} (hr : Filters P r r')
    (hf : ∀ a, P a → Filters Q (f a) (f' a)) (hback : ∀ a, Gives (f' a) fun b => Q b → P a) :
    Filters Q (r >>= f) (r' >>= f') :=
  hr.bind (G := fun _ => True) (fun _ _ _ _ _ => trivial) (fun a _ => hf a) fun a _ => hback a

/-- What is read first is the same on both sides. -/
theorem after (r : Reader α) {f f' : α → Reader β} (hf : ∀ a, Filters Q (f a) (f' a)) :
    Filters Q (r >>= f) (r >>= f') :=
  (of_gives (P := fun _ => True) fun _ _ _ _ _ => trivial).andThen (fun a _ => hf a)
    fun _ _ _ _ _ _ _ => trivial

/-- A last step that takes no bytes. -/
theorem map {r r' : Reader α} (hr : Filters P r r') (f : α → β) (h : ∀ a, Q (f a) ↔ P a) :
    Filters Q (do return f (← r)) (do return f (← r')) :=
  hr.andThen (fun a ha => pure ((h a).mpr ha)) fun a => .pure (h a).mp

/-- A bound on the position is the same for both. -/
theorem within {r r' : Reader α} (h : Filters P r r') (stop : Nat) :
    Filters P (Reader.within stop r) (Reader.within stop r') :=
  fun data pos a last => h (data.extract 0 stop) pos a last

/-- The items that were read before are among those that are read. -/
theorem gives_repeated (r : Reader α) (n : Nat) (items : Array α) :
    Gives (repeated r n items) fun all => ∀ a ∈ items, a ∈ all := by
  induction n generalizing items with
  | zero => exact .pure fun a ha => ha
  | succ n ih =>
    refine .after r fun b data pos all stop hrun a ha => ?_
    exact ih (items.push b) data pos all stop hrun a (Array.mem_push_of_mem b ha)

/-- The items so far pass, and the filter is asked for one more; by induction on how many are left.
-/
theorem repeated {r r' : Reader α} (hr : Filters P r r') (n : Nat) {items : Array α}
    (hitems : ∀ a ∈ items, P a) :
    Filters (fun all => ∀ a ∈ all, P a) (Reader.repeated r n items)
      (Reader.repeated r' n items) := by
  induction n generalizing items with
  | zero => exact .pure hitems
  | succ n ih =>
    refine hr.andThen (fun a ha => ih ?_) fun a data pos all stop hrun hall => ?_
    · intro b hb
      obtain hb | rfl := Array.mem_push.mp hb
      · exact hitems b hb
      · exact ha
    · exact hall a (gives_repeated r' n _ data pos all stop hrun a Array.mem_push_self)

/-- A vector is filtered item by item. -/
theorem vec {r r' : Reader α} (hr : Filters P r r') :
    Filters (fun items => ∀ a ∈ items, P a) (Reader.vec r) (Reader.vec r') :=
  .after u32 fun n => hr.repeated n.toNat fun a ha => absurd ha (Array.not_mem_empty a)

end Filters

end Reader

open Reader

/-! ## Entries of sections -/

/-- Floating point is ruled out. -/
def ReadOptions.integers : ReadOptions := { floats := false }

/-- The type of an integer. -/
def ValType.FloatFree (t : ValType) : Prop := t ≠ .f32 ∧ t ≠ .f64

/-- A constant that is not in floating point, or a global. -/
def ConstExpr.FloatFree (e : ConstExpr) : Prop := e.op ≠ .f32Const ∧ e.op ≠ .f64Const

/-- What is imported is not a global in floating point. -/
def ImportDesc.FloatFree : ImportDesc → Prop
  | .global type => type.valType.FloatFree
  | .func _ | .table _ | .memory _ => True

/-- Here the option is looked at: a type is refused exactly if it is one of floats. -/
theorem ValType.filters : Filters FloatFree (read .integers) (read {}) := by
  refine .after offset fun start => .after u8 fun b => ?_
  cases ofByte? b with
  | none => exact Filters.fail _
  | some t =>
    refine Filters.check ?_ (by simp)
    cases t <;> simp [FloatFree, isFloat, ReadOptions.integers]

/-- The operation is refused exactly if it is a constant float. -/
theorem ConstExpr.filters : Filters FloatFree (readAllowed .integers) (readAllowed {}) := by
  refine .after offset fun start => .after ConstExpr.read fun e => .check ?_ (by simp)
  obtain ⟨op, immediate⟩ := e
  cases op <;>
    simp [FloatFree, ConstOp.isFloat, ConstOp.type?, ValType.isFloat, ReadOptions.integers]

/-- Every parameter and every result passes the filter for types. -/
theorem FuncType.filters :
    Filters (fun t : FuncType => ∀ v ∈ t.params ++ t.results, v.FloatFree) (read .integers)
      (read {}) := by
  refine .after offset fun start => .after u8 fun form => .ite (.fail _) ?_
  refine ValType.filters.vec.andThen (fun params hparams => ?_) fun params => ?_
  · refine ValType.filters.vec.map _ fun results => ?_
    simp only [List.forall_mem_append, Array.mem_toList_iff]
    exact and_iff_right hparams
  · refine .after _ fun results => .pure fun h v hv => h v ?_
    exact List.mem_append_left _ (Array.mem_toList_iff.mpr hv)

theorem GlobalType.filters :
    Filters (fun t : GlobalType => t.valType.FloatFree) (read .integers) (read {}) := by
  refine ValType.filters.andThen (fun type htype => ?_) fun type => ?_
  · exact .after offset fun start => .after u8 fun flag =>
      .ite (.pure htype) (.ite (.pure htype) (.fail _))
  · exact .after offset fun start => .after u8 fun flag =>
      .ite (fun _ => .pure id) fun _ => .ite (fun _ => .pure id) fun _ => .fail _

/-- Functions are imported by index, so only globals have a type that could be refused. -/
theorem ImportDesc.filters (kind : ExternKind) :
    Filters FloatFree (read .integers kind) (read {} kind) := by
  cases kind with
  | func => exact .after _ fun _ => .pure trivial
  | table => exact .after _ fun _ => .pure trivial
  | memory => exact .after _ fun _ => .pure trivial
  | global => exact GlobalType.filters.map ImportDesc.global fun _ => Iff.rfl

/-- Names have nothing to do with floats. -/
theorem Import.filters :
    Filters (fun i : Import => i.desc.FloatFree) (read .integers) (read {}) := by
  refine .after Reader.name fun module => .after Reader.name fun name => .after offset fun start =>
    .after u8 fun b => ?_
  cases ExternKind.ofByte? b with
  | none => exact Filters.fail _
  | some kind => exact (ImportDesc.filters kind).map (Import.mk module name) fun _ => Iff.rfl

/-- The type and the initial value are filtered, one after the other. -/
theorem GlobalDef.filters :
    Filters (fun g : GlobalDef => g.type.valType.FloatFree ∧ g.init.FloatFree) (read .integers)
      (read {}) := by
  refine GlobalType.filters.andThen (fun type htype => ?_) fun type => ?_
  · exact ConstExpr.filters.map (GlobalDef.mk type) fun init => and_iff_right htype
  · exact .after _ fun init => .pure And.left

/-- Of a segment, only the offset could be a float. -/
theorem ElementSegment.filters :
    Filters (fun s : ElementSegment => s.offset.FloatFree) (read .integers) (read {}) := by
  refine .after u32 fun table => ?_
  refine ConstExpr.filters.andThen (fun offset hoffset => ?_) fun offset => ?_
  · exact .after _ fun funcs => .pure hoffset
  · exact .after _ fun funcs => .pure id

theorem DataSegment.filters :
    Filters (fun s : DataSegment => s.offset.FloatFree) (read .integers) (read {}) := by
  refine .after u32 fun memory => ?_
  refine ConstExpr.filters.andThen (fun offset hoffset => ?_) fun offset => ?_
  · exact .after _ fun bytes => .pure hoffset
  · exact .after _ fun bytes => .pure id

/-- The declarations that were read before are among those that are read. -/
theorem LocalDecl.gives_groups (options : ReadOptions) (n total : Nat) (before : Array LocalDecl) :
    Gives (readGroups options n total before) fun all => ∀ d ∈ before, d ∈ all := by
  induction n generalizing total before with
  | zero => exact .pure fun d hd => hd
  | succ n ih =>
    refine .after (LocalDecl.read options total) fun decl data pos all stop hrun d hd => ?_
    exact ih _ _ data pos all stop hrun d (Array.mem_push_of_mem _ hd)

theorem LocalDecl.filters (total : Nat) :
    Filters (fun d : LocalDecl => d.type.FloatFree) (read .integers total) (read {} total) :=
  .after offset fun _ => .after u32 fun count => .ite (.fail _)
    (ValType.filters.map (LocalDecl.mk count) fun _ => Iff.rfl)

/-- The total of locals does not depend on their types. -/
theorem LocalDecl.filters_groups (n total : Nat) {before : Array LocalDecl}
    (hbefore : ∀ d ∈ before, d.type.FloatFree) :
    Filters (fun all => ∀ d ∈ all, d.type.FloatFree) (readGroups .integers n total before)
      (readGroups {} n total before) := by
  induction n generalizing total before with
  | zero => exact .pure hbefore
  | succ n ih =>
    refine (LocalDecl.filters total).andThen (fun decl hdecl => ih _ ?_)
      fun decl data pos all stop hrun hall => ?_
    · intro d hd
      obtain hd | rfl := Array.mem_push.mp hd
      · exact hbefore d hd
      · exact hdecl
    · exact hall _ (gives_groups {} n _ _ data pos all stop hrun _ Array.mem_push_self)

/-- The instructions are kept as bytes and are not looked at. -/
theorem CodeBody.filters :
    Filters (fun c : CodeBody => ∀ d ∈ c.locals, d.type.FloatFree) (read .integers) (read {}) := by
  refine .after u32 fun size => .after offset fun start => .after _ fun _ => .after _ fun _ => ?_
  have hempty : ∀ d ∈ (#[] : Array LocalDecl), d.type.FloatFree :=
    fun d hd => absurd hd (Array.not_mem_empty d)
  have hvec : Filters (fun all => ∀ d ∈ all, d.type.FloatFree)
      (do LocalDecl.readGroups .integers (← u32).toNat 0 #[])
      (do LocalDecl.readGroups {} (← u32).toNat 0 #[]) :=
    .after u32 fun count => LocalDecl.filters_groups count.toNat 0 hempty
  refine hvec.andThen (fun locals hlocals => ?_) fun locals => ?_
  · exact .after offset fun pos => .ite (.fail _)
      (.after _ fun length => .after _ fun body => .pure hlocals)
  · exact .after offset fun pos => .ite (fun _ => .fail _) fun _ =>
      .after _ fun length => .after _ fun body => .pure id

namespace Module

/-! ## Sections -/

/-- No floating point occurs in a section. -/
def SectionFloatFree (m : Module) : SectionId → Prop
  | .types => ∀ t ∈ m.types, ∀ v ∈ t.params ++ t.results, v.FloatFree
  | .imports => ∀ i ∈ m.imports, i.desc.FloatFree
  | .globals => ∀ g ∈ m.globals, g.type.valType.FloatFree ∧ g.init.FloatFree
  | .elements => ∀ s ∈ m.elements, s.offset.FloatFree
  | .codes => ∀ c ∈ m.codes, ∀ d ∈ c.locals, d.type.FloatFree
  | .data => ∀ s ∈ m.data, s.offset.FloatFree
  | .custom | .functions | .tables | .memories | .exports | .start => True

/-- No floating point occurs in a module, apart from the instructions of its functions. -/
def FloatFree (m : Module) : Prop :=
  ∀ id, m.SectionFloatFree id

variable {acc m : Module} {id : SectionId}

/-- A section does not touch what others have declared. -/
theorem sectionFloatFree_withSection_of_ne (acc m : Module) {id id' : SectionId} (h : id' ≠ id) :
    (acc.withSection m id).SectionFloatFree id' = acc.SectionFloatFree id' := by
  cases id <;> cases id' <;> trivial

/-- What a section declares is what it was read to be. -/
theorem sectionFloatFree_withSection (acc m : Module) (id : SectionId) :
    (acc.withSection m id).SectionFloatFree id = m.SectionFloatFree id := by
  cases id <;> rfl

theorem floatFree_empty : FloatFree {} := by
  intro id
  cases id <;> simp [SectionFloatFree]

/-- One more section decides, if the others are without floating point. -/
theorem FloatFree.withSection_iff (hacc : acc.FloatFree) (m : Module) (id : SectionId) :
    (acc.withSection m id).FloatFree ↔ m.SectionFloatFree id := by
  rw [← sectionFloatFree_withSection acc m id]
  refine ⟨fun h => h id, fun h id' => ?_⟩
  by_cases hid : id' = id
  · rwa [hid]
  · rw [sectionFloatFree_withSection_of_ne acc m hid]
    exact hacc id'

/-- A payload is checked as it is read into a module that is without floating point so far. -/
theorem filters_payload (hacc : acc.FloatFree) (id : SectionId) :
    Filters FloatFree (readPayload .integers acc id) (readPayload {} acc id) := by
  cases id with
  | custom =>
    exact .after Reader.name fun _ => .after size fun _ => .after _ fun _ => .pure hacc
  | types => exact FuncType.filters.vec.map _ fun types => hacc.withSection_iff { types } .types
  | imports =>
    exact Import.filters.vec.map _ fun imports => hacc.withSection_iff { imports } .imports
  | functions =>
    exact .after _ fun funcs => .pure ((hacc.withSection_iff { funcs } .functions).mpr trivial)
  | tables =>
    exact .after offset fun _ => .after _ fun tables =>
      .pure ((hacc.withSection_iff { tables } .tables).mpr trivial)
  | memories =>
    exact .after offset fun _ => .after _ fun memories =>
      .pure ((hacc.withSection_iff { memories } .memories).mpr trivial)
  | globals =>
    exact GlobalDef.filters.vec.map _ fun globals => hacc.withSection_iff { globals } .globals
  | exports =>
    exact .after _ fun exports => .pure ((hacc.withSection_iff { exports } .exports).mpr trivial)
  | start =>
    exact .after _ fun func =>
      .pure ((hacc.withSection_iff { start := some func } .start).mpr trivial)
  | elements =>
    exact ElementSegment.filters.vec.map _ fun elements =>
      hacc.withSection_iff { elements } .elements
  | codes => exact CodeBody.filters.vec.map _ fun codes => hacc.withSection_iff { codes } .codes
  | data => exact DataSegment.filters.vec.map _ fun data => hacc.withSection_iff { data } .data

/-- A payload is read into one section. -/
theorem gives_payload (options : ReadOptions) (acc : Module) (id : SectionId) :
    Gives (readPayload options acc id) fun m => ∃ source, m = acc.withSection source id := by
  cases id with
  | custom =>
    exact .after Reader.name fun _ => .after size fun _ => .after _ fun _ => .pure ⟨acc, rfl⟩
  | types => exact .after _ fun types => .pure ⟨{ types }, rfl⟩
  | imports => exact .after _ fun imports => .pure ⟨{ imports }, rfl⟩
  | functions => exact .after _ fun funcs => .pure ⟨{ funcs }, rfl⟩
  | tables => exact .after offset fun _ => .after _ fun tables => .pure ⟨{ tables }, rfl⟩
  | memories => exact .after offset fun _ => .after _ fun memories => .pure ⟨{ memories }, rfl⟩
  | globals => exact .after _ fun globals => .pure ⟨{ globals }, rfl⟩
  | exports => exact .after _ fun exports => .pure ⟨{ exports }, rfl⟩
  | start => exact .after _ fun func => .pure ⟨{ start := some func }, rfl⟩
  | elements => exact .after _ fun elements => .pure ⟨{ elements }, rfl⟩
  | codes => exact .after _ fun codes => .pure ⟨{ codes }, rfl⟩
  | data => exact .after _ fun data => .pure ⟨{ data }, rfl⟩

/-- A section changes what it declares. -/
theorem gives_readWhole (options : ReadOptions) (acc : Module) (id : SectionId) (stop : Nat) :
    Gives (readWhole options acc id stop) fun m => ∃ source, m = acc.withSection source id :=
  ((gives_payload options acc id).within stop).bind fun _ hm => .after offset fun _ =>
    .ite (fun _ => .fail _) fun _ => .pure hm

/-- A section is refused exactly if something in it is. -/
theorem filters_readWhole (hacc : acc.FloatFree) (id : SectionId) (stop : Nat) :
    Filters FloatFree (readWhole .integers acc id stop) (readWhole {} acc id stop) :=
  ((filters_payload hacc id).within stop).andThen
    (fun _ hm => .after offset fun _ => .ite (.fail _) (.pure hm))
    fun _ => .after offset fun _ => .ite (fun _ => .fail _) fun _ => .pure fun hm => hm

/-- Sections are filtered one by one; those before have passed. -/
theorem filters_section (hacc : acc.FloatFree) (last : UInt8) :
    Filters (fun p => p.2.FloatFree) (readSection .integers last acc)
      (readSection {} last acc) := by
  refine .after SectionHeader.read fun header => .after _ fun _ => .after _ fun _ => ?_
  have hwhole := filters_readWhole hacc header.id header.stop
  exact .ite (hwhole.map (Prod.mk last) fun _ => Iff.rfl)
    (.ite (.fail _) (hwhole.map (Prod.mk header.id.byte) fun _ => Iff.rfl))

/-- Reading a section leaves the sections alone that come before it in the order, and those that
come after it. -/
theorem gives_section (options : ReadOptions) (last : UInt8) (acc : Module) :
    Gives (readSection options last acc) fun p => last ≤ p.1 ∧
      ∀ id, id.byte ≤ last ∨ p.1 < id.byte →
        p.2.SectionFloatFree id = acc.SectionFloatFree id := by
  refine .after SectionHeader.read fun header => .after _ fun _ => .after _ fun _ => ?_
  refine .ite (fun hcustom => ?_) fun _ => .ite (fun _ => .fail _) fun horder => ?_
  · rw [hcustom]
    refine (gives_readWhole options acc .custom header.stop).bind fun m hm => ?_
    obtain ⟨source, rfl⟩ := hm
    exact .pure ⟨UInt8.le_refl last, fun _ _ => rfl⟩
  · have hlt : last < header.id.byte := UInt8.not_le.mp horder
    refine (gives_readWhole options acc header.id header.stop).bind fun m hm => ?_
    obtain ⟨source, rfl⟩ := hm
    refine .pure ⟨UInt8.le_of_lt hlt, fun id hid => ?_⟩
    refine sectionFloatFree_withSection_of_ne acc source fun heq => ?_
    subst heq
    obtain hle | hgt := hid
    · exact horder hle
    · exact UInt8.lt_irrefl _ hgt

/-- What stands in the order up to `last` has been read, and stays. -/
theorem gives_sections (options : ReadOptions) (n : Nat) (last : UInt8) (acc : Module) :
    Gives (readSections options n last acc) fun m => ∀ id, id.byte ≤ last →
      m.SectionFloatFree id = acc.SectionFloatFree id := by
  induction n generalizing last acc with
  | zero => exact .pure fun _ _ => rfl
  | succ n ih =>
    refine .after atEnd fun _ => .ite (fun _ => .pure fun _ _ => rfl) fun _ => ?_
    refine (gives_section options last acc).bind fun p hp data pos m stop hrun id hid => ?_
    obtain ⟨hle, hkeep⟩ := hp
    rw [ih p.1 p.2 data pos m stop hrun id (UInt8.le_trans hid hle), hkeep id (.inl hid)]

/-- The loop over the sections. Floating point that one of them has brought in is still there in
the end, since only later sections are read after it. -/
theorem filters_sections (n : Nat) (last : UInt8) (hacc : acc.FloatFree) :
    Filters FloatFree (readSections .integers n last acc) (readSections {} n last acc) := by
  induction n generalizing last acc with
  | zero => exact .pure hacc
  | succ n ih =>
    refine .after atEnd fun _ => .ite (.pure hacc) ?_
    refine (filters_section hacc last).bind (gives_section {} last acc) (fun p _ hp => ih p.1 hp) ?_
    intro p hp data pos m stop hrun hm id
    by_cases hid : id.byte ≤ p.1
    · rw [← gives_sections {} n p.1 p.2 data pos m stop hrun id hid]
      exact hm id
    · rw [hp.2 id (.inr (UInt8.not_le.mp hid))]
      exact hacc id

/-- The whole module passes exactly if all its sections do. -/
theorem filters_read : Filters FloatFree (read .integers) (read {}) :=
  .after readHeader fun _ => .after remaining fun n => filters_sections n 0 floatFree_empty

/-- What is read with options is read without them. -/
theorem parse_of_options {options : ReadOptions} {bytes : Array UInt8}
    (h : parse (read options) bytes = .ok m) : parse (read {}) bytes = .ok m := by
  obtain ⟨floats⟩ := options
  cases floats with
  | true => exact h
  | false =>
    obtain ⟨stop, hrun⟩ := parse_eq_ok.mp h
    exact parse_eq_ok.mpr ⟨stop, ((filters_read bytes 0 m stop).mp hrun).1⟩

/-- To rule out floating point is to filter: what is decoded then is what is decoded otherwise and
has no value type and no constant of floating point in it. -/
theorem decode_integers_iff (bytes : Array UInt8) (m : Module) :
    decode bytes .integers = .ok m ↔ decode bytes = .ok m ∧ m.FloatFree := by
  have hparse : parse (read .integers) bytes = .ok m ↔
      parse (read {}) bytes = .ok m ∧ m.FloatFree := by
    simp only [parse_eq_ok, filters_read bytes 0 m, exists_and_right]
  rw [decode_eq_ok_iff, decode_eq_ok_iff, hparse]
  exact and_right_comm

end Module

end Wasm
