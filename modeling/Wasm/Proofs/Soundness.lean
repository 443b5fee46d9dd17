import Wasm.Proofs.History
import Wasm.Proofs.Progress

/-!
# Wasm.Proofs.Soundness

Instances of a valid module do not get stuck.

* `Machine.Sound`: the running frame is ready, and each of its callers is ready for what the frame
  above it leaves. `Machine.Transition.sound`: steps keep this, and a step that gets stuck has
  called a host function that failed in just that way.
* `IndexSpace.sound_of_link`: linking a valid module gives an index space whose code is typed.
* `call_sound` puts these together, for an instance with any history.
-/

namespace Wasm

/-! ## Functions -/

/-- The body of a function has its type. -/
def Code.WellTyped (m : Module) (c : Code) : Prop :=
  ∃ (locals : List ValType) (last : Nat),
    locals.length = c.type.params.length + c.localCount ∧
    c.Row (m.context locals c.type.results) [c.type.results] 0 [] ⟨last, endOpcode, c.type.results⟩

/-- A function that is entered is ready. -/
theorem Code.WellTyped.ready {m : Module} {c : Code} (h : c.WellTyped m) {cells : Array UInt64}
    (hcells : cells.size = c.type.params.length + c.localCount) (base : Nat) :
    Frame.Ready m { code := c, locals := cells, base } base := by
  obtain ⟨locals, last, hlocals, hrow⟩ := h
  exact ⟨locals, hcells.trans hlocals.symm, [c.type.results], _, base, [], .body last, hrow, rfl⟩

/-- The functions that a valid module defines are typed. -/
theorem Link.Defines.wellTyped {m : Module} (hm : m.Valid) {type : UInt32} {c : Code}
    (h : Link.Defines m position type c) (hfunc : m.funcs[position]? = some type) :
    c.WellTyped m := by
  obtain ⟨htype, ⟨code, hcode, hbody, hlocals⟩, htypes, hblocks⟩ := h
  obtain ⟨t, ht, b, hencodes, htyped⟩ := hm.bodies position type code hfunc hcode
  obtain ⟨ctype, cbody, cblocks, clocals, ctypes⟩ := c
  dsimp only at htype hbody hlocals htypes hblocks
  obtain rfl : ctype = t := Option.some.inj (htype.symm.trans ht)
  subst hbody hlocals htypes
  rw [hencodes.analyzeBlocks_eq] at hblocks
  obtain rfl := Except.ok.inj hblocks
  refine ⟨ctype.params ++ code.localTypes, _, ?_, b, htyped, hencodes.standsAt, ?_, rfl⟩
  · rw [List.length_append, code.length_localTypes]
  · exact fun x hx => b.getElem?_record_of_mem ∅ hx

/-- The index space has what the module says it has, and its functions are typed. -/
structure IndexSpace.Sound (m : Module) (s : IndexSpace) : Prop where
  fits : s.Fits m
  code : ∀ c, .code c ∈ s.funcs → c.WellTyped m

theorem IndexSpace.Sound.evolves {m : Module} {s s' : IndexSpace} (h : s.Sound m)
    (hs : s.Evolves s') : s'.Sound m :=
  ⟨h.fits.evolves hs, by rw [hs.funcs]; exact h.code⟩

/-- Linking a valid module gives a sound index space, if its table is its own and the functions it
imports are the host's. -/
theorem IndexSpace.sound_of_link {m : Module} (hm : m.Valid) (htable : m.importCount .table = 0)
    {imports : Imports} (hhost : ∀ i ∈ m.imports, i.desc.kind = .func →
      ∃ f, Link.lookup imports i = .ok (.func (.host f)))
    (h : m.link imports = .ok s) : s.Sound m := by
  have hlinked := Module.linked_of_link h
  refine ⟨⟨hlinked.funcTypes, hlinked.tables, hlinked.slots htable, hlinked.memories,
    hlinked.globalTypes⟩, fun c hc => ?_⟩
  obtain ⟨k, hk⟩ := Array.mem_iff_getElem?.mp hc
  by_cases himported : k < m.importCount .func
  · obtain ⟨i, hi, hkind, hlookup⟩ := hlinked.imported k _ himported hk
    obtain ⟨f, hf⟩ := hhost i hi hkind
    rw [hlookup] at hf
    cases hf
  · obtain ⟨type, c', hc', hfunc, hdefines⟩ := hlinked.defined k _ (by omega) hk
    cases hc'
    exact hdefines.wellTyped hm hfunc

/-! ## Machines -/

namespace Machine

/-- Each caller is ready for the stack as the frame above it leaves it, and has its operands below
that frame's base. -/
inductive Awaited (m : Module) : (base arity : Nat) → Array Frame → Prop where
  | nil : Awaited m base arity #[]
  | push (hready : caller.Ready m (base + arity)) (hbase : caller.base ≤ base)
      (houter : Awaited m caller.base caller.code.type.results.length outer) :
      Awaited m base arity (outer.push caller)

theorem Awaited.of_push {m : Module} (h : Awaited m base arity (outer.push caller)) :
    caller.Ready m (base + arity) ∧ caller.base ≤ base ∧
      Awaited m caller.base caller.code.type.results.length outer := by
  generalize hpush : outer.push caller = callers at h
  cases h with
  | nil => simp at hpush
  | push hready hbase houter =>
    obtain ⟨rfl, rfl⟩ := Array.push_eq_push.mp hpush
    exact ⟨hready, hbase, houter⟩

/-- All frames of a machine can go on, the callers when the frames above them have returned. -/
structure Sound (m : Module) (mach : Machine) : Prop where
  space : mach.store.space.Sound m
  frame : mach.frame.Ready m mach.store.stack.size
  callers : Awaited m mach.frame.base mach.frame.code.type.results.length mach.callers

/-- A machine that has not got stuck, unless a host function failed in that way. -/
def Outcome.Sound (m : Module) : Outcome → Prop
  | .running mach => mach.Sound m
  | .returned _ => True
  | .trapped t s => t.Stuck → ∃ f before, .host f ∈ s.space.funcs ∧ Store.Raised before f t s

/-- A host function that finds its operands gets stuck only if it fails in that way. -/
theorem Outcome.sound_callHost {m : Module} {s s' : Store} {k : Nat}
    (hf : s.space.funcs[k]? = some (.host f)) (hsize : f.type.params.length ≤ s.stack.size)
    (h : Store.callHost f s = .error t s') : (Outcome.trapped t s').Sound m := by
  intro hstuck
  obtain hraised | ⟨found, rfl⟩ | rfl | ⟨rfl, hshort⟩ := Store.callHost_eq_error h
  · have hfuncs := ((Store.evolves_callHost f).of_error h).space.funcs
    exact ⟨f, s, hfuncs ▸ Array.mem_of_getElem? hf, hraised⟩
  · exact hstuck.elim
  · exact hstuck.elim
  · omega

/-- Code that finds its operands and yet is not entered does not get stuck. -/
theorem Outcome.sound_enter {m : Module} {s s' : Store}
    (hsize : c.type.params.length ≤ s.stack.size) (h : Store.enter config c s = .error t s') :
    (Outcome.trapped t s').Sound m := by
  intro hstuck
  obtain rfl | ⟨rfl, hshort⟩ := Store.enter_eq_error h
  · exact hstuck.elim
  · omega

/-- Callers wait for the base and the results of a frame, and these stay. -/
theorem Awaited.after {m : Module} {mach : Machine}
    (h : Awaited m mach.frame.base mach.frame.code.type.results.length mach.callers)
    (ha : mach.activation.Evolves a) :
    Awaited m a.frame.base a.frame.code.type.results.length mach.callers := by
  rw [ha.base, ha.code]
  exact h

theorem Exit.sound {m : Module} {mach : Machine} (h : Exit mach o)
    (hspace : mach.store.space.Sound m)
    (hcallers : Awaited m mach.frame.base mach.frame.code.type.results.length mach.callers)
    (hsize : mach.frame.base + mach.frame.code.type.results.length ≤ mach.store.stack.size) :
    o.Sound m := by
  cases h with
  | failed h => omega
  | finished => trivial
  | @back stack caller outer h hback =>
    obtain ⟨xs, ys, zs, -, hxs, hzs, hcells⟩ := Stack.unwind_eq_ok h
    have hheight : stack.size = mach.frame.base + mach.frame.code.type.results.length := by
      rw [Stack.size, hcells, Array.size_append, hxs, hzs]
    rw [hback] at hcallers
    obtain ⟨hready, -, houter⟩ := hcallers.of_push
    rw [← hheight] at hready
    exact ⟨hspace, hready, houter⟩

/-- A call finds its function and the function its operands. It may enter code, which is ready then;
a host function leaves its results, or fails. -/
theorem Entry.sound {m : Module} {mach : Machine} (h : Entry config index mach o)
    (hspace : mach.store.space.Sound m)
    (hcallers : Awaited m mach.frame.base mach.frame.code.type.results.length mach.callers)
    (htype : m.signature? index.toNat = some t)
    (hsize : mach.frame.base + t.params.length ≤ mach.store.stack.size)
    (hready : mach.frame.Ready m
      (mach.store.stack.size - t.params.length + t.results.length)) : o.Sound m := by
  have hspace' := hspace.evolves h.evolves.space
  -- The function that is called has the type that the caller was typed with.
  rw [← hspace.fits.funcs] at htype
  obtain ⟨func, hfunc, rfl⟩ := Option.map_eq_some_iff.mp htype
  cases h with
  | missing h =>
    rw [hfunc] at h
    contradiction
  | hostFailed hf h =>
    obtain rfl := Option.some.inj (hfunc.symm.trans hf)
    exact Outcome.sound_callHost hf (Nat.le_of_add_left_le hsize) h
  | @host f s hf h =>
    obtain rfl := Option.some.inj (hfunc.symm.trans hf)
    obtain ⟨below, cells, values, hbelow, hparams, hresults, hstack⟩ := Store.callHost_eq_ok h
    have hheight : s.stack.size =
        mach.store.stack.size - (Func.host f).type.params.length +
          (Func.host f).type.results.length := by
      simp only [Stack.size, hbelow, hstack, Func.type, ← hresults, ← hparams]
      simp
    rw [← hheight] at hready
    exact ⟨hspace', hready, hcallers⟩
  | tooDeep => exact fun hstuck => hstuck.elim
  | failed hf h =>
    obtain rfl := Option.some.inj (hfunc.symm.trans hf)
    exact Outcome.sound_enter (Nat.le_of_add_left_le hsize) h
  | @entered c callee s hf h =>
    obtain rfl := Option.some.inj (hfunc.symm.trans hf)
    obtain ⟨args, hargs, hstore, rfl⟩ := Store.enter_eq_ok h
    have hheight : mach.store.stack.size = s.stack.size + c.type.params.length := by
      rw [hstore, Stack.size, Array.size_append, hargs, Stack.size]
    rw [Func.type, hheight] at hsize
    rw [Func.type, hheight, Nat.add_sub_cancel] at hready
    have hbase : mach.frame.base ≤ s.stack.size := Nat.le_of_add_le_add_right hsize
    refine ⟨hspace', (hspace.code c (Array.mem_of_getElem? hf)).ready ?_ _,
      .push hready hbase hcallers⟩
    rw [Array.size_append, Array.size_replicate, hargs]

/-- A step keeps all frames of a machine going. -/
theorem Transition.sound {m : Module} {mach : Machine} (h : Transition config mach o)
    (hm : mach.Sound m) : o.Sound m := by
  have hprogress := hm.frame.step (a := mach.activation) hm.space.fits
  cases h with
  | unpaid => exact fun hstuck => hstuck.elim
  | trapped fuel h =>
    rw [h] at hprogress
    exact fun hstuck => absurd hstuck hprogress
  | @next a fuel h =>
    have ha := Control.evolves_step.of_ok h
    rw [h] at hprogress
    exact ⟨hm.space.evolves ha.shared.space, hprogress, hm.callers.after ha⟩
  | @ret a o fuel h hexit =>
    have ha := Control.evolves_step.of_ok h
    rw [h] at hprogress
    exact hexit.sound (hm.space.evolves ha.shared.space) (hm.callers.after ha) hprogress
  | @call func a o fuel h hentry =>
    have ha := Control.evolves_step.of_ok h
    rw [h] at hprogress
    obtain ⟨t, htype, hsize, hready⟩ := hprogress
    exact hentry.sound (hm.space.evolves ha.shared.space) (hm.callers.after ha) htype hsize hready

theorem sound_run {m : Module} {mach : Machine} (config : EngineConfig) (n : Nat)
    (hm : mach.Sound m) : (mach.run config n).Sound m :=
  run_induction (P := Outcome.Sound m) (fun _ _ hm h => h.sound hm) hm n

end Machine

/-! ## Instances -/

/-- The execution of a function that there is, on arguments of its types, does not get stuck. -/
theorem Instance.Execution.sound {m : Module} {i : Instance} (h : i.Execution steps index args o)
    (hi : i.space.Sound m) (hf : i.space.funcs[index.toNat]? = some func)
    (hargs : args.map Value.type = func.type.params) : o.Sound m := by
  have hlength : func.type.params.length ≤ (i.loaded args).stack.size := by
    rw [← hargs, loaded, Stack.size]
    simp
  cases h with
  | overflow => exact fun hstuck => hstuck.elim
  | missing h =>
    rw [hf] at h
    contradiction
  | hostFailed hf' h =>
    obtain rfl := Option.some.inj (hf.symm.trans hf')
    exact Machine.Outcome.sound_callHost hf' hlength h
  | host => trivial
  | failed hf' h =>
    obtain rfl := Option.some.inj (hf.symm.trans hf')
    exact Machine.Outcome.sound_enter hlength h
  | @entered c f s _ hf' h ho =>
    obtain rfl := Option.some.inj (hf.symm.trans hf')
    have hspace := ((Store.evolves_enter i.config c).of_ok h).space
    obtain ⟨cells, hcells, hstore, rfl⟩ := Store.enter_eq_ok h
    rw [← ho]
    refine Machine.sound_run _ _ ⟨hi.evolves hspace, ?_, .nil⟩
    refine (hi.code c (Array.mem_of_getElem? hf)).ready ?_ _
    rw [Array.size_append, Array.size_replicate, hcells]

/-- Whatever calls an instance of a valid module has been through, its stack is empty and its index
space is sound. -/
theorem Instance.History.sound {m : Module} {imports : Imports} {config : EngineConfig}
    (hm : m.Valid) (htable : m.importCount .table = 0)
    (hhost : ∀ i ∈ m.imports, i.desc.kind = .func →
      ∃ f, Link.lookup imports i = .ok (.func (.host f)))
    {i j : Instance} (hi : m.instantiate imports config steps = some ⟨.ok i, hostCalls⟩)
    (hj : i.History j) : j.stack.cells = #[] ∧ j.space.Sound m := by
  obtain ⟨space, exports, hlink, -, hhistory⟩ := Module.history_of_instantiate hi
  have hempty : (m.fresh space exports config).stack.cells = #[] := rfl
  have hevolves := (hhistory.trans hj).evolves hempty
  have hsound := IndexSpace.sound_of_link hm htable hhost hlink
  exact ⟨by rw [hevolves.stack, hempty], hsound.evolves hevolves.space⟩

/-- In an instance of a valid module, with any history, a call of a function that there is does not
get stuck. If it seems to, the last host function that was called has failed in that way, and the
instance is left as that function left it. The module imports no table, and its imports of functions
are functions of the host. -/
theorem call_sound {m : Module} (hm : m.Valid) (htable : m.importCount .table = 0)
    {imports : Imports} (hhost : ∀ i ∈ m.imports, i.desc.kind = .func →
      ∃ f, Link.lookup imports i = .ok (.func (.host f)))
    {i j : Instance} (hi : m.instantiate imports config steps = some ⟨.ok i, hostCalls⟩)
    (hj : i.History j) (hindex : index.toNat < j.space.funcs.size)
    (h : j.call n index args = some ⟨.error t, after, calls⟩) (ht : t.Stuck) :
    ∃ (f : HostFunc) (space : IndexSpace) (values : List Value),
      .host f ∈ j.space.funcs ∧ values.map Value.type = f.type.params ∧
      (f.run space.hostContext values).result = .error t ∧
      after.space = space.mapMemory (·.writeAll (f.run space.hostContext values).writes) ∧
      calls.back? = some ⟨f.label, values⟩ := by
  obtain ⟨hstack, hsound⟩ := hj.sound hm htable hhost hi
  obtain ⟨func, hfunc⟩ : ∃ func, j.space.funcs[index.toNat]? = some func :=
    ⟨_, Array.getElem?_eq_getElem hindex⟩
  by_cases hargs : args.map Value.type = func.type.params
  · cases Instance.called_of_call hstack h with
    | refused _ hrefused => exact absurd hargs (hrefused func hfunc)
    | @trapped _ _ s _ _ ho =>
      have hexec := j.execute_cases n index args
      rw [ho] at hexec
      have hfuncs : s.space.funcs = j.space.funcs := hexec.evolves.space.funcs
      obtain ⟨f, before, hf, values, htypes, hresult, hspace, hcalls⟩ :=
        hexec.sound hsound hfunc hargs ht
      refine ⟨f, before.space, values, hfuncs ▸ hf, htypes, hresult, hspace, ?_⟩
      rw [hcalls]
      exact Array.back?_push
  · simp only [Instance.call, hfunc, if_neg hargs] at h
    cases h
    exact ht.elim

/-- A function that asks the host to stop, unless its argument is zero. -/
def guarded : Module where
  types := #[⟨[], []⟩, ⟨[.i32], [.i32]⟩]
  imports := #[⟨"env", "stop", .func 0⟩]
  funcs := #[1]
  codes := #[⟨#[], #[0x20, 0x00, 0x04, 0x40, 0x10, 0x00, 0x0B, 0x20, 0x00, 0x0B]⟩]

/-- A host that stops by saying that the stack is empty. -/
def stopping : Imports :=
  (∅ : Imports).insert "env" ((∅ : NameMap Extern).insert "stop"
    (.func (.host ⟨"stop", ⟨[], []⟩, fun _ _ => ⟨[], .error .stackUnderflow⟩⟩)))

theorem guarded_valid : guarded.Valid where
  imports := by simp [guarded, ImportDesc.Valid]
  bodyCount := rfl
  bodies := by
    intro k type code htype hcode
    cases k with
    | succ k => simp [guarded] at htype
    | zero =>
      cases htype
      cases hcode
      have hzero : Reader.Reads Reader.u32 [0x00] 0 :=
        Reader.local_u32.reads (StandsAt.of_toList #[0x00]) rfl
      refine ⟨_, rfl, .leaf ⟨_, _, .localGet hzero⟩ (.nest .cond ⟨.empty, _, _, .empty, rfl⟩
        (.leaf ⟨_, _, .call hzero⟩ .nil) (.leaf ⟨_, _, .localGet hzero⟩ .nil)), rfl, ?_⟩
      refine .leaf [] (.plain (.localGet rfl)) (.cond (t := ⟨[], []⟩) [] rfl rfl ?_ ?_)
      · exact .leaf [] (@Instr.Typed.call _ _ _ 0 ⟨[], []⟩ rfl) (.nil [])
      · exact .leaf [] (.plain (.localGet rfl)) (.nil _)
  tables := by simp [guarded]
  memories := by simp [guarded]
  tableCount := by decide
  memoryCount := by decide
  globals := by simp [guarded]
  elements := by simp [guarded]
  data := by simp [guarded]
  start := by simp [guarded]
  exports := by simp [guarded]
  names := by simp [guarded]

/-- The host says that the stack is empty; it is not the function's doing. -/
theorem call_sound_guarded :
    guarded.Valid ∧ ∃ i after calls, guarded.instantiate stopping {} 20 = some ⟨.ok i, #[]⟩ ∧
      i.call 20 1 [.i32 5] = some ⟨.error .stackUnderflow, after, calls⟩ ∧
      ∃ (f : HostFunc) (space : IndexSpace) (values : List Value),
        .host f ∈ i.space.funcs ∧ values.map Value.type = f.type.params ∧
        (f.run space.hostContext values).result = .error .stackUnderflow ∧
        calls.back? = some ⟨f.label, values⟩ := by
  obtain ⟨i, after, calls, hi, hindex, hcall⟩ : ∃ i after calls,
      guarded.instantiate stopping {} 20 = some ⟨.ok i, #[]⟩ ∧
      (1 : UInt32).toNat < i.space.funcs.size ∧
      i.call 20 1 [.i32 5] = some ⟨.error .stackUnderflow, after, calls⟩ := by
    refine ⟨?i, ?after, ?calls, ?created, ?present, ?called⟩
    case created =>
      cbv
      rfl
    case present => decide
    case called =>
      cbv
      rfl
  have hhost : ∀ i ∈ guarded.imports, i.desc.kind = .func →
      ∃ f, Link.lookup stopping i = .ok (.func (.host f)) := by
    intro i hi _
    obtain rfl := Array.mem_singleton.mp hi
    exact ⟨_, rfl⟩
  obtain ⟨f, space, values, hf, htypes, hresult, -, hlast⟩ :=
    call_sound guarded_valid (by decide) hhost hi (.refl i) hindex hcall trivial
  exact ⟨guarded_valid, i, after, calls, hi, hcall, f, space, values, hf, htypes, hresult, hlast⟩

end Wasm
