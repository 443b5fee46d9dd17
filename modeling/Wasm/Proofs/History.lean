import Mathlib
import Wasm.Proofs.Evolution
import Wasm.Proofs.Linked

/-!
# Wasm.Proofs.History

What holds of an instance whatever calls it has been through.

* `Machine.Outcome.Rooted`: the frame that was entered first decides how high the stack is when all
  of them have returned.
* `Instance.called_of_call` says what comes of a call: it was refused and changed nothing, or it was
  executed and left an empty stack.
* `Instance.History` relates an instance to those that calls lead to; `history_invariant` says what
  all of them have in common with the instance as it was linked.
* `Instance.Used` also allows for writes to the memory between the calls.
-/

namespace Wasm

namespace Machine

/-! ## The height of the stack at the end -/

/-- The frame that was entered first. -/
def outermost (m : Machine) : Frame := (m.callers[0]?).getD m.frame

/-- The outermost frame has a base and a number of results; once it has returned, the stack is as
high as they say. -/
def Outcome.Rooted (base arity : Nat) : Outcome → Prop
  | .running m => m.outermost.base = base ∧ m.outermost.code.type.results.length = arity
  | .returned s => s.stack.size = base + arity
  | .trapped _ _ => True

/-- The frame that was entered first does not depend on those above it. -/
theorem outermost_push (store store' : Store) (f caller : Frame) (outer : Array Frame) :
    outermost ⟨store, f, outer.push caller⟩ = outermost ⟨store', caller, outer⟩ := by
  simp only [outermost, Array.getElem?_push]
  split
  · next h => simp [← h]
  · next h =>
    have hpos : 0 < outer.size := by omega
    rw [Array.getElem?_eq_getElem hpos, Option.getD_some, Option.getD_some]

/-- What stays inside a frame does not change which frame was entered first. -/
theorem rooted_after {m : Machine} (hm : (Outcome.running m).Rooted base arity)
    (ha : m.activation.Evolves a) (fuel : Option Nat) :
    (Outcome.running (m.after fuel a)).Rooted base arity := by
  simp only [Outcome.Rooted, outermost, after] at hm ⊢
  cases h : m.callers[0]? with
  | some f => rwa [h] at hm
  | none =>
    rw [h] at hm
    rw [Option.getD_none, ha.base, ha.code]
    exact hm

/-- Returning to a caller keeps it; returning from the frame itself leaves its results on its base.
-/
theorem Exit.rooted {m : Machine} (h : Exit m o) (hm : (Outcome.running m).Rooted base arity) :
    o.Rooted base arity := by
  cases h with
  | failed => trivial
  | finished h hcallers =>
    obtain ⟨xs, ys, zs, -, hxs, hzs, hcells⟩ := Stack.unwind_eq_ok h
    simp only [Outcome.Rooted, outermost, hcallers] at hm ⊢
    simp only [Stack.size, hcells, Array.size_append, hxs, hzs]
    exact congr (congrArg _ hm.1) hm.2
  | @back stack caller outer h hcallers =>
    obtain ⟨store, f, callers⟩ := m
    obtain rfl : callers = outer.push caller := hcallers
    rwa [Outcome.Rooted, outermost_push _ { store with stack }] at hm

/-- A call puts a frame on top. -/
theorem Entry.rooted {m : Machine} (h : Entry config index m o)
    (hm : (Outcome.running m).Rooted base arity) : o.Rooted base arity := by
  cases h with
  | missing | hostFailed | tooDeep | failed => trivial
  | host => exact hm
  | @entered c callee s hf h => rwa [Outcome.Rooted, outermost_push _ m.store]

/-- One step, in each of its cases. -/
theorem Transition.rooted {m : Machine} (h : Transition config m o)
    (hm : (Outcome.running m).Rooted base arity) : o.Rooted base arity := by
  cases h with
  | unpaid | trapped => trivial
  | next fuel h => exact rooted_after hm (Control.evolves_step.of_ok h) fuel
  | ret fuel h hexit => exact hexit.rooted (rooted_after hm (Control.evolves_step.of_ok h) fuel)
  | call fuel h hentry => exact hentry.rooted (rooted_after hm (Control.evolves_step.of_ok h) fuel)

/-- Any number of steps, by induction from a single one. -/
theorem rooted_run {m : Machine} (config : EngineConfig) (n : Nat)
    (hm : (Outcome.running m).Rooted base arity) : (m.run config n).Rooted base arity :=
  run_induction (fun _ _ hm h => h.rooted hm) hm n

/-- After the last return there are, on top of what lay below the outermost frame, its results. -/
theorem size_of_run_returned {m : Machine} (h : m.run config n = .returned s) :
    s.stack.size = m.outermost.base + m.outermost.code.type.results.length := by
  have hrooted := rooted_run (m := m) config n ⟨rfl, rfl⟩
  rwa [h] at hrooted

end Machine

namespace Instance

/-! ## Calls -/

/-- A function that returns to an empty stack leaves its results there, and nothing else. -/
theorem Execution.size_stack {i : Instance} (h : i.Execution steps index args (.returned s))
    (hi : i.stack.cells = #[]) (hf : i.space.funcs[index.toNat]? = some func)
    (hargs : args.map Value.type = func.type.params) :
    s.stack.size = func.type.results.length := by
  have hlength : (i.loaded args).stack.cells.size = func.type.params.length := by
    simp [loaded, hi, ← hargs]
  cases h with
  | @host f _ hf' h =>
    obtain rfl := Option.some.inj (hf.symm.trans hf')
    obtain ⟨below, cells, values, hcells, hparams, hresults, hstack⟩ := Store.callHost_eq_ok h
    rw [hcells, Array.size_append, hparams, Func.type] at hlength
    have hbelow : below.size = 0 := by omega
    rw [Stack.size, hstack, Array.size_append, hbelow, Func.type, ← hresults]
    simp
  | @entered c f s₁ _ hf' h ho =>
    obtain rfl := Option.some.inj (hf.symm.trans hf')
    obtain ⟨cells, hparams, hloaded, rfl⟩ := Store.enter_eq_ok h
    have hbase : s₁.stack.size = 0 := by
      rw [hloaded] at hlength
      simp only [Array.size_append, hparams, Func.type] at hlength
      rw [Stack.size]
      omega
    have hsize := Machine.size_of_run_returned ho
    rw [hsize]
    simp [Machine.outermost, hbase, Func.type]

/-- The instance after an execution: a trap clears the stack, and results are taken from it. -/
def settled (i : Instance) (s : Store) : Instance := i.resume { s with stack := s.stack.clear }

/-- What comes of a call of an instance whose stack is empty. -/
inductive Called (i : Instance) (steps : Nat) (index : UInt32) (args : List Value) :
    CallResult → Prop where
  | refused (t : Trap)
      (h : ∀ f, i.space.funcs[index.toNat]? = some f → args.map Value.type ≠ f.type.params) :
      Called i steps index args ⟨.error t, i, #[]⟩
  | trapped (hf : i.space.funcs[index.toNat]? = some f)
      (hargs : args.map Value.type = f.type.params)
      (h : i.execute steps index args = .trapped t s) :
      Called i steps index args ⟨.error t, i.settled s, s.hostCalls⟩
  | returned (hf : i.space.funcs[index.toNat]? = some f)
      (hargs : args.map Value.type = f.type.params)
      (h : i.execute steps index args = .returned s)
      (hvalues : values.map Value.type = f.type.results) :
      Called i steps index args ⟨.ok values, i.settled s, s.hostCalls⟩

/-- What comes of a call of an instance whose stack is empty. -/
theorem called_of_call {i : Instance} (hi : i.stack.cells = #[])
    (h : i.call steps index args = some r) : Called i steps index args r := by
  simp only [call] at h
  cases hf : i.space.funcs[index.toNat]? with
  | none =>
    rw [hf] at h
    cases h
    exact .refused _ (by simp [hf])
  | some f =>
    simp only [hf] at h
    split at h
    · next hargs =>
      cases ho : i.execute steps index args with
      | running m =>
        rw [ho] at h
        contradiction
      | trapped t s =>
        rw [ho] at h
        cases h
        exact .trapped hf hargs ho
      | returned s =>
        have hexec := i.execute_cases steps index args
        rw [ho] at hexec h
        have hsize := hexec.size_stack hi hf hargs
        obtain ⟨space, ⟨cells, limit⟩, fuel, hostCalls⟩ := s
        -- The call has started from an empty stack, so all that is left are its results.
        have hpop : Stack.popMany f.type.results.length ⟨cells, limit⟩ =
            .ok cells ⟨#[], limit⟩ := by
          have hall := Stack.popMany_append #[] cells limit
          rwa [Array.empty_append, show cells.size = f.type.results.length from hsize] at hall
        simp only [finish, Store.onStack, hpop] at h
        cases h
        exact .returned hf hargs ho (Value.types_zipWith_ofCell hsize)
    · next hargs =>
      cases h
      refine .refused _ fun f' hf' => ?_
      obtain rfl := Option.some.inj (hf.symm.trans hf')
      exact hargs

/-- What calls can make of an instance whose stack is empty. -/
structure Evolves (i j : Instance) : Prop where
  module : j.module = i.module
  exports : j.exports = i.exports
  config : j.config = i.config
  stack : j.stack = i.stack
  space : i.space.Evolves j.space

theorem Evolves.refl (i : Instance) : i.Evolves i := ⟨rfl, rfl, rfl, rfl, .refl i.space⟩

theorem Evolves.trans {i j k : Instance} (h : i.Evolves j) (h' : j.Evolves k) : i.Evolves k where
  module := h'.module.trans h.module
  exports := h'.exports.trans h.exports
  config := h'.config.trans h.config
  stack := h'.stack.trans h.stack
  space := h.space.trans h'.space

/-- After a call the stack is emptied, so it is as it was before. -/
theorem evolves_settled {i : Instance} (hi : i.stack.cells = #[])
    (h : Wasm.Evolves i.space i.stack s.space s.stack) : i.Evolves (i.settled s) where
  module := rfl
  exports := rfl
  config := rfl
  stack := by
    have hlimit : s.stack.limit = i.stack.limit := h.stack.limit
    simp only [settled, resume, Stack.clear, hlimit, ← hi]
  space := h.space

/-- A call that was refused changes nothing, and one that was executed evolves, however it ends. -/
theorem Called.evolves {i : Instance} (h : Called i steps index args r)
    (hi : i.stack.cells = #[]) : i.Evolves r.after := by
  have hexec := i.execute_cases steps index args
  cases h with
  | refused => exact .refl i
  | trapped _ _ ho =>
    rw [ho] at hexec
    exact evolves_settled hi hexec.evolves
  | returned _ _ ho =>
    rw [ho] at hexec
    exact evolves_settled hi hexec.evolves

/-! ## Histories -/

/-- What an embedder calls: a function by its index, or by the name it is exported under. -/
inductive Callee where
  | index (index : UInt32)
  | name (name : String)

/-- Call a function by its index or its name. -/
def callBy (i : Instance) (steps : Nat) (args : List Value) : Callee → Option CallResult
  | .index index => i.call steps index args
  | .name name => i.callExport steps name args

/-- The function that is called, if there is one. -/
def callee? (i : Instance) : Callee → Option Func
  | .index index => i.space.funcs[index.toNat]?
  | .name name =>
    match i.exports.get? name with
    | some ⟨.func, index⟩ => i.space.funcs[index.toNat]?
    | _ => none

/-- A call by name is a call by index, or it is refused. -/
theorem callBy_cases (i : Instance) (callee : Callee) :
    (∃ index, i.callee? callee = i.space.funcs[index.toNat]? ∧
      ∀ steps args, i.callBy steps args callee = i.call steps index args) ∨
    i.callee? callee = none ∧
      ∃ t, ∀ steps args, i.callBy steps args callee = some ⟨.error t, i, #[]⟩ := by
  cases callee with
  | index index => exact .inl ⟨index, rfl, fun _ _ => rfl⟩
  | name name =>
    simp only [callee?, callBy, callExport]
    cases hget : i.exports.get? name with
    | none => exact .inr ⟨rfl, _, fun _ _ => rfl⟩
    | some ref =>
      obtain ⟨kind, index⟩ := ref
      cases kind with
      | func => exact .inl ⟨index, rfl, fun _ _ => rfl⟩
      | table | memory | global => exact .inr ⟨rfl, _, fun _ _ => rfl⟩

/-- The instances that calls lead to. -/
inductive History : Instance → Instance → Prop where
  | refl (i : Instance) : History i i
  | call (h : History i j) (hr : j.callBy steps args callee = some r) : History i r.after

/-- So does a call by name or by index. -/
theorem evolves_callBy {i : Instance} (hi : i.stack.cells = #[])
    (h : i.callBy steps args callee = some r) : i.Evolves r.after := by
  obtain ⟨index, -, hcall⟩ | ⟨-, t, hrefused⟩ := i.callBy_cases callee
  · rw [hcall] at h
    exact (called_of_call hi h).evolves hi
  · rw [hrefused] at h
    cases h
    exact .refl i

/-- A call that succeeds gives values of the types of the function's results. -/
theorem types_of_callBy {i : Instance} (hi : i.stack.cells = #[])
    (h : i.callBy steps args callee = some ⟨.ok values, after, hostCalls⟩) :
    ∃ f, i.callee? callee = some f ∧ values.map Value.type = f.type.results := by
  obtain ⟨index, hcallee, hcall⟩ | ⟨-, t, hrefused⟩ := i.callBy_cases callee
  · rw [hcall] at h
    cases called_of_call hi h with
    | returned hf _ _ hvalues => exact ⟨_, hcallee.trans hf, hvalues⟩
  · rw [hrefused] at h
    injection h with h
    injection h
    contradiction

/-- A call without a function that takes its arguments is refused and changes nothing. -/
theorem callBy_refused {i : Instance}
    (h : ∀ f, i.callee? callee = some f → args.map Value.type ≠ f.type.params) (steps : Nat) :
    ∃ t, i.callBy steps args callee = some ⟨.error t, i, #[]⟩ := by
  obtain ⟨index, hcallee, hcall⟩ | ⟨-, t, hrefused⟩ := i.callBy_cases callee
  · rw [hcall, call]
    rw [hcallee] at h
    cases hf : i.space.funcs[index.toNat]? with
    | none => exact ⟨_, rfl⟩
    | some f => exact ⟨_, if_neg (h f hf)⟩
  · exact ⟨t, hrefused steps args⟩

theorem History.trans {i j k : Instance} (h : i.History j) (h' : j.History k) : i.History k := by
  induction h' with
  | refl => exact h
  | call _ hr ih => exact .call ih hr

/-- By induction on the calls: each of them starts from the empty stack that the last one has left.
-/
theorem History.evolves {i j : Instance} (h : i.History j) (hi : i.stack.cells = #[]) :
    i.Evolves j := by
  induction h with
  | refl => exact .refl i
  | call _ hr hj => exact hj.trans (evolves_callBy (hj.stack ▸ hi) hr)

/-- The instances that an embedder can lead to, which also writes to the memory between calls. -/
inductive Used (i : Instance) : Instance → Prop where
  | unused : Used i i
  | called (h : Used i j) (hr : j.callBy steps args callee = some r) : Used i r.after
  | written (h : Used i j) (hk : j.writeMemory? address bytes = some k) : Used i k

theorem Used.of_history {i j : Instance} (h : i.History j) : i.Used j := by
  induction h with
  | refl => exact .unused
  | call _ hr ih => exact .called ih hr

theorem Used.trans {i j k : Instance} (h : i.Used j) (h' : j.Used k) : i.Used k := by
  induction h' with
  | unused => exact h
  | called _ hr ih => exact .called ih hr
  | written _ hk ih => exact .written ih hk

/-- A write between calls keeps all that calls keep. -/
theorem evolves_writeMemory? {i j : Instance} (h : i.writeMemory? address bytes = some j) :
    i.Evolves j := by
  simp only [writeMemory?, Option.bind_eq_bind, Option.bind_eq_some_iff, Option.pure_def,
    Option.some.injEq] at h
  obtain ⟨m, hm, m', hwrite, rfl⟩ := h
  have hmemory : Option.Rel Memory.Evolves i.space.memory (some m') :=
    hm ▸ .some (Memory.evolves_of_write? hwrite)
  exact { Evolves.refl i with space := { IndexSpace.Evolves.refl i.space with memory := hmemory } }

/-- The same with writes in between. -/
theorem Used.evolves {i j : Instance} (h : i.Used j) (hi : i.stack.cells = #[]) :
    i.Evolves j := by
  induction h with
  | unused => exact .refl i
  | called _ hr hj => exact hj.trans (evolves_callBy (hj.stack ▸ hi) hr)
  | written _ hk hj => exact hj.trans (evolves_writeMemory? hk)

end Instance

/-! ## Instantiation -/

/-- A module as it is linked, before its start function has run. -/
def Module.fresh (m : Module) (space : IndexSpace) (exports : NameMap ExportRef)
    (config : EngineConfig) : Instance :=
  ⟨m, space, exports, { limit := config.maxStackHeight }, config, config.fuel⟩

/-- An instance is linked, and its start function is the first call in its history. -/
theorem Module.history_of_instantiate {m : Module} {imports : Imports}
    (h : m.instantiate imports config steps = some ⟨.ok i, hostCalls⟩) :
    ∃ space exports, m.link imports = .ok space ∧
      space.bindExports m.exports.toList ∅ = .ok exports ∧
      (m.fresh space exports config).History i := by
  simp only [instantiate] at h
  split at h
  · injection h with h
    injection h with h
    contradiction
  · next space exports hbound =>
    obtain ⟨space', hlink, hbound⟩ := exceptBind_eq_ok.mp hbound
    obtain ⟨exports', hexports, hbound⟩ := exceptBind_eq_ok.mp hbound
    cases hbound
    refine ⟨space, exports, hlink, hexports, ?_⟩
    split at h
    · cases h
      exact .refl _
    · next start _ =>
      simp only [Instance.runStart] at h
      split at h
      · injection h with h
        injection h with h
        contradiction
      · obtain ⟨r, hr, h⟩ := Option.map_eq_some_iff.mp h
        split at h
        · cases h
          have hcall : (m.fresh space exports config).callBy steps [] (.index start) = some r := hr
          exact .call (.refl _) hcall
        · injection h with h
          contradiction

/-! ## Exports -/

namespace IndexSpace

/-- Exports refer to things that there are. -/
def Exports (s : IndexSpace) (exports : NameMap ExportRef) : Prop :=
  ∀ name ref, exports.get? name = some ref → ref.index.toNat < s.count ref.kind

/-- An export is only bound to an index that has something. -/
theorem exports_of_bindExports {s : IndexSpace} (h : s.bindExports es exports = .ok exports')
    (hexports : s.Exports exports) : s.Exports exports' := by
  induction es generalizing exports with
  | nil =>
    cases h
    exact hexports
  | cons e es ih =>
    simp only [bindExports] at h
    split at h
    · next hindex =>
      refine ih h fun name ref href => ?_
      rw [NameMap.get?_insert] at href
      split at href
      · cases href
        exact hindex
      · exact hexports name ref href
    · contradiction

/-- There are as many things of each kind after execution as before. -/
theorem Evolves.count_eq {s s' : IndexSpace} (h : s.Evolves s') (kind : ExternKind) :
    s'.count kind = s.count kind := by
  cases kind with
  | func => exact congrArg Array.size h.funcs
  | table => exact congrArg (·.toList.length) h.table
  | memory => exact optionRel_length h.memory
  | global => exact h.globals_size

end IndexSpace

/-- The imported globals cannot be changed. -/
theorem Module.Linked.imported_immutable {m : Module} {imports : Imports} (h : m.Linked imports s)
    (hk : k < m.importCount .global) : ∃ g, s.globals[k]? = some g ∧ g.type.mutable = false := by
  rw [← m.length_importedGlobals] at hk
  have htype := congrArg (·[k]?) h.globalTypes
  simp only [List.getElem?_map, Array.getElem?_toList, Module.globalTypes,
    List.getElem?_append_left hk, List.getElem?_eq_getElem hk] at htype
  obtain ⟨g, hg, htype⟩ := Option.map_eq_some_iff.mp htype
  exact ⟨g, hg, htype ▸ h.immutable _ (List.getElem_mem hk)⟩

/-! ## What all instances of a history have in common -/

/-- After any calls, the stack is empty; functions, table, types of globals and globals that cannot
be changed, the imported ones among them, are those of the module as it was linked; a memory never
gets smaller; exports refer to things that there are; a call that succeeds gives values of the
results' types, and one that is refused changes nothing. -/
theorem history_invariant {m : Module} {imports : Imports} {i j : Instance}
    (hi : m.instantiate imports config steps = some ⟨.ok i, hostCalls⟩) (hj : i.History j) :
    ∃ space, m.link imports = .ok space ∧
      j.stack.cells = #[] ∧
      j.space.funcs = space.funcs ∧
      j.space.table = space.table ∧
      j.space.globals.map Global.type = space.globals.map Global.type ∧
      (∀ (k : Nat) (g : Global), space.globals[k]? = some g → g.type.mutable = false →
        j.space.globals[k]? = some g) ∧
      (∀ k < m.importCount .global, ∃ g, space.globals[k]? = some g ∧
        j.space.globals[k]? = some g) ∧
      Option.Rel (fun before after => before.size ≤ after.size) space.memory j.space.memory ∧
      (∀ j', j.History j' →
        Option.Rel (fun before after => before.size ≤ after.size) j.space.memory j'.space.memory) ∧
      (∀ name ref, j.exports.get? name = some ref → ref.index.toNat < j.space.count ref.kind) ∧
      (∀ steps args callee values after hostCalls,
        j.callBy steps args callee = some ⟨.ok values, after, hostCalls⟩ →
          ∃ f, j.callee? callee = some f ∧ values.map Value.type = f.type.results) ∧
      ∀ callee args, (∀ f, j.callee? callee = some f → args.map Value.type ≠ f.type.params) →
        ∀ steps, ∃ t, j.callBy steps args callee = some ⟨.error t, j, #[]⟩ := by
  obtain ⟨space, exports, hlink, hexports, hhistory⟩ := Module.history_of_instantiate hi
  have hempty : (m.fresh space exports config).stack.cells = #[] := rfl
  have hevolves := (hhistory.trans hj).evolves hempty
  have hstack : j.stack.cells = #[] := by rw [hevolves.stack, hempty]
  have hspace : space.Evolves j.space := hevolves.space
  refine ⟨space, hlink, hstack, hspace.funcs, hspace.table, hspace.globalTypes,
    fun k g hg hmutable => hspace.immutable hg hmutable, fun k hk => ?_,
    optionRel_mono (fun h => h.size) hspace.memory,
    fun j' hj' => optionRel_mono (fun h => h.size) (hj'.evolves hstack).space.memory,
    fun name ref href => ?_,
    fun steps args callee values after hostCalls h => Instance.types_of_callBy hstack h,
    fun callee args hrefused => Instance.callBy_refused hrefused⟩
  · obtain ⟨g, hg, hmutable⟩ := (Module.linked_of_link hlink).imported_immutable hk
    exact ⟨g, hg, hspace.immutable hg hmutable⟩
  · rw [hspace.count_eq]
    rw [hevolves.exports] at href
    exact IndexSpace.exports_of_bindExports hexports (by simp [IndexSpace.Exports]) name ref href

/-- A module that counts in steps of an imported size: each call adds it to a global. -/
def counter : Module where
  types := #[⟨[], [.i32]⟩]
  imports := #[⟨"env", "step", .global ⟨.i32, false⟩⟩]
  funcs := #[0]
  globals := #[⟨⟨.i32, true⟩, .i32Const 0⟩]
  exports := #[⟨"next", .func, 0⟩]
  codes := #[⟨#[], #[0x23, 0x01, 0x23, 0x00, 0x6A, 0x24, 0x01, 0x23, 0x01, 0x0B]⟩]

/-- Steps of two. -/
def byTwos : Imports :=
  (∅ : Imports).insert "env"
    ((∅ : NameMap Extern).insert "step" (.global (.ofValue ⟨.i32, false⟩ (.i32 2))))

set_option maxRecDepth 4000 in
/-- The counter has counted, and yet its stack is empty and the imported global is what it was. -/
theorem history_invariant_counting :
    ∃ i r space, counter.instantiate byTwos {} 20 = some ⟨.ok i, #[]⟩ ∧
      i.callBy 20 [] (.name "next") = some r ∧ r.outcome = .ok [.i32 2] ∧
      counter.link byTwos = .ok space ∧ r.after.stack.cells = #[] ∧
      r.after.space.funcs = space.funcs ∧
      ∃ g, space.globals[0]? = some g ∧ r.after.space.globals[0]? = some g := by
  obtain ⟨i, r, hi, hr, houtcome⟩ : ∃ i r, counter.instantiate byTwos {} 20 = some ⟨.ok i, #[]⟩ ∧
      i.callBy 20 [] (.name "next") = some r ∧ r.outcome = .ok [.i32 2] := by
    refine ⟨?i, ?r, ?created, ?called, ?counted⟩
    case created =>
      cbv
      rfl
    case called =>
      cbv
      rfl
    case counted => rfl
  obtain ⟨space, hlink, hstack, hfuncs, -, -, -, himported, -⟩ :=
    history_invariant hi (.call (.refl i) hr)
  exact ⟨i, r, space, hi, hr, houtcome, hlink, hstack, hfuncs, himported 0 (by decide)⟩

end Wasm
