import Wasm.Proofs.Comparison

/-!
# Wasm.Proofs.Limits

The limits of a configuration bound every state of every call, and calls that do not run into them
do not depend on them.

* `Instance.Reachable`: the instances that an embedder can come to, by linking, calling and writing
  to the memory; between calls their stacks are empty (`Reachable.idle`).
* `Machine.Bounded` bounds the frames of a machine; `Machine.Transition.bounded` says that steps
  keep the bounds.
* `limits_hold` is the result for the states of calls.
* `call_under_larger_limits`: a call that does not run into the limits comes to the same end under
  larger ones.
-/

namespace Wasm

/-! ## Frames -/

namespace Machine

/-- The frames of code that are active, the running one last. -/
def frames (m : Machine) : Array Frame := m.callers.push m.frame

theorem size_frames (m : Machine) : m.frames.size = m.callers.size + 1 := Array.size_push _

end Machine

/-- The most frames that can be active at once: the one that is entered first is never refused. -/
def EngineConfig.maxFrames (config : EngineConfig) : Nat := max 1 config.maxCallDepth

/-- Code is entered with no more locals than the stack may have cells. -/
theorem Store.size_locals_of_enter (h : enter config c s = .ok f s') :
    f.locals.size ≤ config.maxStackHeight := by
  obtain ⟨args, s₁, -, hrest⟩ := bind_eq_ok.mp h
  split at hrest
  · contradiction
  · next hlocals =>
    cases hrest
    simp only [Array.size_append, Array.size_replicate]
    omega

namespace Machine

/-- The frames and their locals are within the limits. -/
structure Bounded (config : EngineConfig) (m : Machine) : Prop where
  locals : ∀ f ∈ m.frames, f.locals.size ≤ config.maxStackHeight
  frames : m.frames.size ≤ config.maxFrames

/-- A call that goes on has its frames within the limits. -/
def Outcome.Bounded (config : EngineConfig) : Outcome → Prop
  | .running m => m.Bounded config
  | _ => True

theorem bounded_after {m : Machine} (hm : m.Bounded config) (ha : m.activation.Evolves a)
    (fuel : Option Nat) : (m.after fuel a).Bounded config where
  locals := by
    intro f hf
    obtain hf | rfl := Array.mem_push.mp hf
    · exact hm.locals f (Array.mem_push_of_mem _ hf)
    · have hsize : a.frame.locals.size = m.frame.locals.size := ha.locals
      rw [after, hsize]
      exact hm.locals m.frame (Array.mem_push_self)
  frames := by
    have hframes := hm.frames
    rwa [size_frames] at hframes ⊢

theorem Exit.bounded {m : Machine} (h : Exit m o) (hm : m.Bounded config) : o.Bounded config := by
  cases h with
  | failed | finished => trivial
  | @back stack caller outer h hcallers =>
    have hcaller : (outer.push caller).push m.frame = m.frames := by rw [frames, hcallers]
    refine ⟨fun f hf => hm.locals f ?_, ?_⟩
    · rw [← hcaller]
      exact Array.mem_push_of_mem _ hf
    · have hframes := hm.frames
      rw [← hcaller, Array.size_push] at hframes
      exact Nat.le_of_succ_le hframes

theorem Entry.bounded {m : Machine} (h : Entry config index m o) (hm : m.Bounded config) :
    o.Bounded config := by
  cases h with
  | missing | hostFailed | tooDeep | failed => trivial
  | host => exact ⟨hm.locals, hm.frames⟩
  | @entered c callee s hf h hdepth =>
    refine ⟨fun f hf => ?_, ?_⟩
    · obtain hf | rfl := Array.mem_push.mp hf
      · exact hm.locals f hf
      · exact Store.size_locals_of_enter h
    · rw [size_frames, Array.size_push]
      exact Nat.le_trans hdepth (Nat.le_max_right 1 _)

/-- A step keeps the frames within the limits. -/
theorem Transition.bounded {m : Machine} (h : Transition config m o) (hm : m.Bounded config) :
    o.Bounded config := by
  cases h with
  | unpaid | trapped => trivial
  | next fuel h => exact bounded_after hm (Control.evolves_step.of_ok h) fuel
  | ret fuel h hexit => exact hexit.bounded (bounded_after hm (Control.evolves_step.of_ok h) fuel)
  | call fuel h hentry =>
    exact hentry.bounded (bounded_after hm (Control.evolves_step.of_ok h) fuel)

theorem bounded_run {m : Machine} (hm : m.Bounded config) (n : Nat) :
    (m.run config n).Bounded config :=
  run_induction (P := Outcome.Bounded config) (fun _ _ hm h => h.bounded hm) hm n

/-- The first frame is always within the limits. -/
theorem bounded_entered (h : Store.enter config c s = .ok f s') :
    Bounded config ⟨s', f, #[]⟩ where
  locals := by
    intro g hg
    obtain hg | rfl := Array.mem_push.mp hg
    · simp at hg
    · exact Store.size_locals_of_enter h
  frames := Nat.le_max_left 1 _

/-! ## Calls from a machine -/

/-- A call of code is refused when there is no room for another frame, and only then. -/
theorem callStackExhausted_iff {m : Machine} (hcallee : m.callee? = some (.code c))
    (hfuel : m.store.fuel ≠ some 0) (hm : m.frames.size ≤ config.maxFrames) :
    (∃ s, m.step config = .trapped .callStackExhausted s) ↔ m.frames.size = config.maxFrames := by
  obtain ⟨fuel, index, a, -, hf, hstep⟩ := step_of_callee config hcallee hfuel
  have hsize : m.frames.size = (m.after fuel a).callers.size + 1 := m.size_frames
  have hmax : config.maxFrames = max 1 config.maxCallDepth := rfl
  rw [hstep]
  have hentry := (m.after fuel a).call_cases config index
  constructor
  · rintro ⟨s, htrapped⟩
    rw [htrapped] at hentry
    cases hentry with
    | hostFailed hf' => simp [hf] at hf'
    | tooDeep hf' hdepth => omega
    | failed hf' henter =>
      obtain hover | ⟨hunder, -⟩ := Store.enter_eq_error henter <;> contradiction
  · intro hfull
    generalize (m.after fuel a).call config index = o at hentry
    cases hentry with
    | missing hf' | hostFailed hf' | host hf' => simp [hf] at hf'
    | tooDeep => exact ⟨_, rfl⟩
    | failed _ _ hdepth | entered _ _ hdepth => omega

/-- A host function that is called runs in place. -/
theorem callers_of_host {m m' : Machine} (hcallee : m.callee? = some (.host f))
    (hstep : m.step config = .running m') : m'.callers = m.callers := by
  have hfuel : m.store.fuel ≠ some 0 := by
    intro hnone
    simp [step, Store.payFuel, hnone] at hstep
  obtain ⟨fuel, index, a, -, hf, hcall⟩ := step_of_callee config hcallee hfuel
  have hentry := (m.after fuel a).call_cases config index
  rw [← hcall, hstep] at hentry
  cases hentry with
  | host => rfl
  | entered hf' => simp [hf] at hf'

end Machine

/-! ## Reachable instances -/

namespace Instance

variable {config : EngineConfig}

/-- The instances that an embedder can come to: it links a module, calls functions and writes to the
memory, in any order. -/
def Reachable (config : EngineConfig) (i : Instance) : Prop :=
  ∃ (m : Module) (space : IndexSpace) (exports : NameMap ExportRef),
    (m.fresh space exports config).Used i

/-- An instance that was created is reachable; its start function has been the first call. -/
theorem reachable_of_instantiate {m : Module} {imports : Imports}
    (h : m.instantiate imports config steps = some ⟨.ok i, hostCalls⟩) : i.Reachable config := by
  obtain ⟨space, exports, -, -, hhistory⟩ := Module.history_of_instantiate h
  exact ⟨m, space, exports, .of_history hhistory⟩

/-- Between calls, the stack is empty and its limit is that of the configuration. -/
structure Idle (config : EngineConfig) (i : Instance) : Prop where
  stack : i.stack = { limit := config.maxStackHeight }
  config : i.config = config

theorem Reachable.idle {i : Instance} (h : i.Reachable config) : i.Idle config := by
  obtain ⟨m, space, exports, hused⟩ := h
  have hevolves := hused.evolves rfl
  exact ⟨hevolves.stack, hevolves.config⟩

/-- The stack is within its limit in every state of a call. -/
theorem Execution.size_le {i : Instance} (h : i.Execution steps index args o)
    (hi : i.Idle config) : o.store.stack.size ≤ config.maxStackHeight := by
  obtain ⟨hlimit, hwithin⟩ := h.evolves.stack
  rw [hi.stack] at hlimit hwithin
  rw [← show o.store.stack.limit = config.maxStackHeight from hlimit]
  exact hwithin (Nat.zero_le _)

/-- The frames are within their limits in every state of a call. -/
theorem Execution.bounded {i : Instance} (h : i.Execution steps index args o) :
    o.Bounded i.config := by
  cases h with
  | overflow | missing | hostFailed | host | failed => trivial
  | entered _ henter ho => exact ho ▸ Machine.bounded_run (Machine.bounded_entered henter) steps

end Instance

/-! ## The limits -/

/-- In every state of every call, the stack has at most `maxStackHeight` cells, each active frame at
most that many locals, and at most `maxFrames` frames are active. A call of code is refused as too
deep exactly when that many are active, so the one from outside never is. A host function that is
called adds no frame. -/
theorem limits_hold {i : Instance} (hi : i.Reachable config) (index : UInt32) (args : List Value)
    (n : Nat) :
    (i.execute n index args).store.stack.size ≤ config.maxStackHeight ∧
    (∀ m, i.execute n index args = .running m →
      (∀ f ∈ m.frames, f.locals.size ≤ config.maxStackHeight) ∧
      m.frames.size ≤ config.maxFrames ∧
      (∀ c, m.callee? = some (.code c) → m.store.fuel ≠ some 0 →
        ((∃ s, m.step config = .trapped .callStackExhausted s) ↔
          m.frames.size = config.maxFrames)) ∧
      ∀ f m', m.callee? = some (.host f) → m.step config = .running m' →
        m'.frames.size = m.frames.size) ∧
    (∀ c s, i.space.funcs[index.toNat]? = some (.code c) →
      i.execute 0 index args ≠ .trapped .callStackExhausted s) ∧
    ∀ f m, i.space.funcs[index.toNat]? = some (.host f) → i.execute n index args ≠ .running m := by
  have hidle := hi.idle
  have hexec := i.execute_cases n index args
  refine ⟨hexec.size_le hidle, fun m hm => ?_, fun c s hf htrapped => ?_, fun f m hf hm => ?_⟩
  · have hbounded := hexec.bounded
    rw [hm, hidle.config] at hbounded
    obtain ⟨hlocals, hframes⟩ := hbounded
    refine ⟨hlocals, hframes, fun c hc hfuel => ?_, fun f m' hf hstep => ?_⟩
    · exact Machine.callStackExhausted_iff hc hfuel hframes
    · rw [m.size_frames, m'.size_frames, Machine.callers_of_host hf hstep]
  · have hstart := i.execute_cases 0 index args
    rw [htrapped] at hstart
    cases hstart with
    | hostFailed hf' => simp [hf] at hf'
    | failed _ henter =>
      obtain hover | ⟨hunder, -⟩ := Store.enter_eq_error henter <;> contradiction
    | entered _ _ ho => contradiction
  · rw [hm] at hexec
    cases hexec with
    | entered hf' => simp [hf] at hf'

/-- A module with a function that calls itself. -/
def descent : Module where
  types := #[⟨[], []⟩]
  funcs := #[0]
  codes := #[⟨#[], #[0x10, 0x00, 0x0B]⟩]

set_option maxRecDepth 4000 in
/-- With room for three frames, the third one of the function that calls itself cannot call it
again.
-/
theorem limits_hold_descent :
    ∃ i m s, descent.instantiate ∅ { maxCallDepth := 3 } 0 = some ⟨.ok i, #[]⟩ ∧
      i.execute 2 0 [] = .running m ∧ m.frames.size = 3 ∧
      m.step { maxCallDepth := 3 } = .trapped .callStackExhausted s := by
  obtain ⟨i, m, c, hi, hm, hcallee, hfuel, hframes⟩ : ∃ i m c,
      descent.instantiate ∅ { maxCallDepth := 3 } 0 = some ⟨.ok i, #[]⟩ ∧
      i.execute 2 0 [] = .running m ∧ m.callee? = some (.code c) ∧ m.store.fuel = none ∧
      m.frames.size = 3 := by
    refine ⟨?i, ?m, ?c, ?created, ?runs, ?calls, ?unmetered, ?full⟩
    case created =>
      cbv
      rfl
    case runs =>
      cbv
      rfl
    case calls =>
      cbv
      rfl
    case unmetered => rfl
    case full => rfl
  obtain ⟨-, hrunning, -, -⟩ := limits_hold (Instance.reachable_of_instantiate hi) 0 [] 2
  obtain ⟨-, -, hexhausted, -⟩ := hrunning m hm
  obtain ⟨s, hs⟩ := (hexhausted c hcallee (by simp [hfuel])).mpr hframes
  exact ⟨i, m, s, hi, hm, hframes, hs⟩

/-! ## Larger limits -/

/-- The instance with other limits, on calls and on its stack. -/
def Instance.withLimits (depth height : Nat) (i : Instance) : Instance :=
  { i with
    config := { i.config with maxCallDepth := depth, maxStackHeight := height }
    stack := { i.stack with limit := height } }

namespace Comparison

variable {d d' h h' : Nat}

/-- An instance with some limits, side by side with itself under larger ones. -/
def ofLimits (i : Instance) (hdepth : d ≤ d') (hheight : h ≤ h') : Comparison where
  left := i.withLimits d h
  right := i.withLimits d' h'
  refs := fun _ => True
  excused := fun t => t = .stackOverflow ∨ t = .callStackExhausted
  same := fun r _ => r.same_refl i.space
  depth := .inr ⟨.inr rfl, hdepth⟩
  height := .inr ⟨.inl rfl, hheight⟩
  room := .inr ⟨.inl rfl, hheight⟩

/-- Side by side, only the limits differ. -/
theorem Stores.eq_of_ofLimits {i : Instance} {hdepth : d ≤ d'} {hheight : h ≤ h'} {s t : Store}
    (hs : (ofLimits i hdepth hheight).Stores s t) :
    t = { s with stack := { s.stack with limit := h' } } := by
  obtain ⟨⟨funcs, table, memory, globals⟩, ⟨cells, limit⟩, fuel, hostCalls⟩ := s
  obtain ⟨⟨funcs', table', memory', globals'⟩, ⟨cells', limit'⟩, fuel', hostCalls'⟩ := t
  obtain ⟨hspace, hstack, hfuel, hcalls⟩ := hs
  obtain rfl : funcs = funcs' := hspace.funcs.trans hspace.funcs'.symm
  obtain rfl : table = table' := hspace.table.trans hspace.table'.symm
  obtain ⟨rfl, rfl⟩ : memory = memory' ∧ globals = globals' :=
    HostContext.mk.inj (hspace.context trivial)
  obtain rfl : cells = cells' := hstack.cells
  obtain rfl : limit' = h' := hstack.limit'
  obtain rfl : fuel = fuel' := hfuel
  obtain rfl : hostCalls = hostCalls' := hcalls
  rfl

end Comparison

/-- A call that is over under some limits, and has not run into them, is over under larger ones,
with the same values or the same trap. It leaves the same memory, globals and fuel and has made the
same host calls. -/
theorem call_under_larger_limits {i : Instance} {depth depth' height height' : Nat}
    (hdepth : depth ≤ depth') (hheight : height ≤ height')
    (hr : (i.withLimits depth height).call steps index args = some r)
    (hoverflow : r.outcome ≠ .error .stackOverflow)
    (hexhausted : r.outcome ≠ .error .callStackExhausted) :
    (i.withLimits depth' height').call steps index args =
      some { r with after := r.after.withLimits depth' height' } := by
  have hresults : (Comparison.ofLimits i hdepth hheight).Results
      ((i.withLimits depth height).call steps index args)
      ((i.withLimits depth' height').call steps index args) :=
    Comparison.matches_results ⟨rfl, rfl⟩ ⟨rfl, fun _ _ => trivial⟩ fun _ _ _ _ _ _ => trivial
  rw [hr] at hresults
  generalize (i.withLimits depth' height').call steps index args = r' at hresults
  cases hresults with
  | ended hs =>
    obtain rfl := hs.eq_of_ofLimits
    rfl
  | excused ht =>
    obtain rfl | rfl := ht
    · exact absurd rfl hoverflow
    · exact absurd rfl hexhausted

/-- A module with a function that gets its answer from another one. -/
def relay : Module where
  types := #[⟨[], [.i32]⟩]
  funcs := #[0, 0]
  codes := #[⟨#[], #[0x10, 0x01, 0x0B]⟩, ⟨#[], #[0x41, 0x09, 0x0B]⟩]

set_option maxRecDepth 4000 in
/-- Two frames and one cell are enough for the answer; with one frame less there is none, and with
more of both it is the same. -/
theorem call_under_larger_limits_relay :
    ∃ i r, relay.instantiate ∅ {} 0 = some ⟨.ok i, #[]⟩ ∧
      (i.withLimits 2 1).call 9 0 [] = some r ∧ r.outcome = .ok [.i32 9] ∧
      (∃ r', (i.withLimits 1 1).call 9 0 [] = some r' ∧
        r'.outcome = .error .callStackExhausted) ∧
      (i.withLimits 5 8).call 9 0 [] = some { r with after := r.after.withLimits 5 8 } := by
  obtain ⟨i, r, r', hi, hr, houtcome, hr', houtcome'⟩ : ∃ i r r',
      relay.instantiate ∅ {} 0 = some ⟨.ok i, #[]⟩ ∧
      (i.withLimits 2 1).call 9 0 [] = some r ∧ r.outcome = .ok [.i32 9] ∧
      (i.withLimits 1 1).call 9 0 [] = some r' ∧ r'.outcome = .error .callStackExhausted := by
    refine ⟨?i, ?r, ?r', ?created, ?answered, ?value, ?refused, ?trap⟩
    case created =>
      cbv
      rfl
    case answered =>
      cbv
      rfl
    case refused =>
      cbv
      rfl
    case value => rfl
    case trap => rfl
  refine ⟨i, r, hi, hr, houtcome, ⟨r', hr', houtcome'⟩, ?_⟩
  exact call_under_larger_limits (by decide) (by decide) hr (by simp [houtcome])
    (by simp [houtcome])

end Wasm
