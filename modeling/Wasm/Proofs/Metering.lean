import Mathlib.Data.Nat.Find
import Wasm.Instance

/-!
# Wasm.Proofs.Metering

Fuel pays for instructions and does nothing else.

* `FuelBlind`: an effect that neither looks at the fuel nor changes it.
* `Machine.step_withFuel`: a step that is paid for is the step of the unmetered machine.
* `Instance.execute_withFuel`: as long as the fuel lasts, the metered run is the unmetered one.
* `call_metered` says what comes of a metered call, by the number of instructions that the unmetered
  one runs.
-/

namespace Wasm

/-! ## Another amount of fuel -/

def Store.withFuel (fuel : Option Nat) (s : Store) : Store := { s with fuel }

def Machine.withFuel (fuel : Option Nat) (m : Machine) : Machine :=
  { m with store := m.store.withFuel fuel }

def Machine.Outcome.withFuel (fuel : Option Nat) : Outcome → Outcome
  | .running m => .running (m.withFuel fuel)
  | .returned s => .returned (s.withFuel fuel)
  | .trapped t s => .trapped t (s.withFuel fuel)

def Instance.withFuel (fuel : Option Nat) (i : Instance) : Instance := { i with fuel }

def CallResult.withFuel (fuel : Option Nat) (r : CallResult) : CallResult :=
  { r with after := r.after.withFuel fuel }

/-- A result that leaves a store behind, with another amount of fuel in it. -/
def Store.resultWithFuel (fuel : Option Nat) :
    EStateM.Result Trap Store α → EStateM.Result Trap Store α
  | .ok a s => .ok a (s.withFuel fuel)
  | .error t s => .error t (s.withFuel fuel)

/-! ## Effects that are blind to fuel -/

/-- The effect is the same with any amount of fuel, and keeps that amount. -/
def FuelBlind (x : StoreM α) : Prop :=
  ∀ fuel s, x (s.withFuel fuel) = Store.resultWithFuel fuel (x s)

namespace FuelBlind

theorem bind {x : StoreM α} {f : α → StoreM β} (hx : FuelBlind x) (hf : ∀ a, FuelBlind (f a)) :
    FuelBlind (x >>= f) := by
  intro fuel s
  simp only [Bind.bind, EStateM.bind, hx fuel s]
  cases x s with
  | ok a s' => exact hf a fuel s'
  | error t s' => rfl

theorem onStack (x : StackM α) : FuelBlind (Store.onStack x) := by
  intro fuel s
  simp only [Store.onStack, Store.withFuel]
  cases x s.stack <;> rfl

theorem getFunc (index : UInt32) : FuelBlind (Store.getFunc index) := by
  intro fuel s
  simp only [Store.getFunc, Store.withFuel]
  cases s.space.funcs[index.toNat]? <;> rfl

theorem runHost (f : HostFunc) (args : List Value) : FuelBlind (Store.runHost f args) := by
  intro fuel s
  simp only [Store.runHost, Store.withFuel]
  cases f.results (f.run s.space.hostContext args) <;> rfl

theorem callHost (f : HostFunc) : FuelBlind (Store.callHost f) :=
  (onStack _).bind fun _ => (runHost f _).bind fun _ => onStack _

theorem enter (config : EngineConfig) (c : Code) : FuelBlind (Store.enter config c) := by
  have hlocals : ∀ args : Array UInt64, FuelBlind (do
      if config.maxStackHeight < args.size + c.localCount then
        throw Trap.stackOverflow
      else
        let base := (← get).stack.size
        return { code := c, locals := args ++ Array.replicate c.localCount 0, base : Frame }) := by
    intro args
    by_cases h : config.maxStackHeight < args.size + c.localCount
    · simp only [if_pos h]
      exact fun _ _ => rfl
    · simp only [if_neg h]
      exact fun _ _ => rfl
  exact (onStack _).bind hlocals

end FuelBlind

/-! ## Steps -/

namespace Machine

variable {config : EngineConfig}

theorem leave_withFuel (fuel : Option Nat) (m : Machine) :
    (m.withFuel fuel).leave = m.leave.withFuel fuel := by
  simp only [leave, withFuel, FuelBlind.onStack _ fuel m.store]
  cases Store.onStack (Stack.unwind m.frame.base m.frame.code.type.results.length) m.store with
  | error t s => rfl
  | ok _ s =>
    simp only [Store.resultWithFuel]
    cases m.callers.back? <;> rfl

theorem call_withFuel (fuel : Option Nat) (index : UInt32) (m : Machine) :
    (m.withFuel fuel).call config index = (m.call config index).withFuel fuel := by
  simp only [call, withFuel, FuelBlind.getFunc index fuel m.store]
  cases Store.getFunc index m.store with
  | error t s => rfl
  | ok func s =>
    cases func with
    | host f =>
      simp only [Store.resultWithFuel, FuelBlind.callHost f fuel s]
      cases Store.callHost f s <;> rfl
    | code c =>
      simp only [Store.resultWithFuel, FuelBlind.enter config c fuel s]
      by_cases hdepth : config.maxCallDepth < m.callers.size + 2
      · simp only [if_pos hdepth]
        rfl
      · simp only [if_neg hdepth]
        cases Store.enter config c s <;> rfl

/-- A step that is paid for is the step of the unmetered machine. -/
theorem step_withFuel {before after : Option Nat}
    (hpay : ∀ s : Store, Store.payFuel (s.withFuel before) = .ok () (s.withFuel after))
    (m : Machine) :
    (m.withFuel before).step config = ((m.withFuel none).step config).withFuel after := by
  have hfree : Store.payFuel (m.store.withFuel none) = .ok () (m.store.withFuel none) := rfl
  simp only [step, withFuel, hpay m.store, hfree]
  simp only [Store.withFuel]
  cases Control.step ⟨m.store.space, m.store.stack, m.frame⟩ with
  | error t a => rfl
  | ok flow a =>
    cases flow with
    | next => rfl
    | ret => exact leave_withFuel after ⟨⟨a.space, a.stack, none, _⟩, a.frame, m.callers⟩
    | call func =>
      exact call_withFuel after func ⟨⟨a.space, a.stack, none, _⟩, a.frame, m.callers⟩

theorem step_metered (fuel : Nat) (m : Machine) :
    (m.withFuel (some (fuel + 1))).step config =
      ((m.withFuel none).step config).withFuel (some fuel) :=
  step_withFuel (fun _ => rfl) m

theorem step_unmetered (m : Machine) :
    (m.withFuel none).step config = ((m.withFuel none).step config).withFuel none :=
  step_withFuel (fun _ => rfl) m

/-- Without fuel there is no step. -/
theorem step_without_fuel (config : EngineConfig) (m : Machine) :
    (m.withFuel (some 0)).step config = .trapped .outOfFuel (m.store.withFuel (some 0)) := rfl

/-- Go on for one instruction, unless the call is over. -/
def Outcome.step (config : EngineConfig) : Outcome → Outcome
  | .running m => m.step config
  | o => o

/-- The last instruction of a run comes after the others. -/
theorem run_succ (config : EngineConfig) (n : Nat) (m : Machine) :
    m.run config (n + 1) = (m.run config n).step config := by
  induction n generalizing m with
  | zero =>
    simp only [run, Outcome.step]
    cases m.step config <;> rfl
  | succ n ih =>
    have hfirst : m.run config (n + 1 + 1) = (match m.step config with
        | .running m' => m'.run config (n + 1)
        | o => o) := rfl
    have hfirst' : m.run config (n + 1) = (match m.step config with
        | .running m' => m'.run config n
        | o => o) := rfl
    rw [hfirst, hfirst']
    cases m.step config with
    | running m' => exact ih m'
    | returned s => rfl
    | trapped t s => rfl

end Machine

/-! ## Executions -/

namespace Instance

variable {index : UInt32} {args : List Value}

/-- The last instruction of an execution comes after the others. -/
theorem execute_succ (i : Instance) (n : Nat) (index : UInt32) (args : List Value) :
    i.execute (n + 1) index args = (i.execute n index args).step i.config := by
  unfold execute
  cases Store.onStack (Stack.pushAll (args.map Value.cell)) ⟨i.space, i.stack, i.fuel, #[]⟩ with
  | error t s => rfl
  | ok _ s =>
    simp only [Store.invoke]
    cases Store.getFunc index s with
    | error t s => rfl
    | ok func s =>
      cases func with
      | host f =>
        simp only
        cases Store.callHost f s <;> rfl
      | code c =>
        simp only
        cases Store.enter i.config c s with
        | error t s => rfl
        | ok frame s => exact Machine.run_succ i.config n ⟨s, frame, #[]⟩

/-- What is over stays over. -/
theorem execute_of_le {i : Instance} {o : Machine.Outcome} (hle : n ≤ k)
    (h : i.execute n index args = o) (hover : ∀ m, o ≠ .running m) :
    i.execute k index args = o := by
  induction hle with
  | refl => exact h
  | step _ ih =>
    rw [execute_succ, ih]
    cases o with
    | running m => exact absurd rfl (hover m)
    | returned s => rfl
    | trapped t s => rfl

/-- What happens before the first instruction does not depend on the fuel. -/
theorem execute_zero_withFuel (i : Instance) (fuel : Option Nat) (index : UInt32)
    (args : List Value) :
    (i.withFuel fuel).execute 0 index args =
      ((i.withFuel none).execute 0 index args).withFuel fuel := by
  have hpush := FuelBlind.onStack (Stack.pushAll (args.map Value.cell)) fuel
    ⟨i.space, i.stack, none, #[]⟩
  simp only [Store.withFuel] at hpush
  simp only [execute, withFuel, hpush]
  cases Store.onStack (Stack.pushAll (args.map Value.cell)) ⟨i.space, i.stack, none, #[]⟩ with
  | error t s => rfl
  | ok _ s =>
    simp only [Store.resultWithFuel, Store.invoke, FuelBlind.getFunc index fuel s]
    cases Store.getFunc index s with
    | error t s => rfl
    | ok func s =>
      cases func with
      | host f =>
        simp only [Store.resultWithFuel, FuelBlind.callHost f fuel s]
        cases Store.callHost f s <;> rfl
      | code c =>
        simp only [Store.resultWithFuel, FuelBlind.enter i.config c fuel s]
        cases Store.enter i.config c s <;> rfl

/-- An unmetered execution stays unmetered. -/
theorem execute_unmetered (i : Instance) (n : Nat) (index : UInt32) (args : List Value) :
    (i.withFuel none).execute n index args =
      ((i.withFuel none).execute n index args).withFuel none := by
  induction n with
  | zero => exact execute_zero_withFuel i none index args
  | succ n ih =>
    rw [execute_succ, ih]
    cases (i.withFuel none).execute n index args with
    | running m => exact Machine.step_unmetered m
    | returned s => rfl
    | trapped t s => rfl

/-- As long as the fuel lasts and the unmetered execution goes on, the metered one is the same and
has paid for each instruction. -/
theorem execute_withFuel (i : Instance) {n fuel : Nat} (hle : n ≤ fuel)
    (hrunning : ∀ k < n, ∃ m, (i.withFuel none).execute k index args = .running m) :
    (i.withFuel (some fuel)).execute n index args =
      ((i.withFuel none).execute n index args).withFuel (some (fuel - n)) := by
  induction n with
  | zero => exact execute_zero_withFuel i (some fuel) index args
  | succ n ih =>
    obtain ⟨m, hm⟩ := hrunning n (Nat.lt_succ_self n)
    have hsame := ih (Nat.le_of_succ_le hle) fun k hk => hrunning k (Nat.lt_succ_of_lt hk)
    have hpaid : fuel - n = fuel - (n + 1) + 1 := by omega
    have hnone := execute_unmetered i n index args
    rw [hm] at hnone hsame
    rw [execute_succ, execute_succ, hsame, hm, hnone, hpaid]
    exact Machine.step_metered (fuel - (n + 1)) m

/-- When the fuel is used up before the unmetered execution is over, the metered one is out of fuel
in the state reached so far. -/
theorem execute_outOfFuel (i : Instance) {fuel : Nat}
    (hrunning : ∀ k ≤ fuel, ∃ m, (i.withFuel none).execute k index args = .running m)
    (hm : (i.withFuel none).execute fuel index args = .running m) (hlt : fuel < steps) :
    (i.withFuel (some fuel)).execute steps index args =
      .trapped .outOfFuel (m.store.withFuel (some 0)) := by
  have hsame := execute_withFuel i (Nat.le_refl fuel)
    fun k hk => hrunning k (Nat.le_of_lt hk)
  rw [hm, Nat.sub_self] at hsame
  refine execute_of_le (n := fuel + 1) hlt ?_ (by simp)
  rw [execute_succ, hsame]
  exact Machine.step_without_fuel i.config m

/-! ## Calls -/

/-- What comes of a call depends on the fuel that its execution left. -/
theorem finish_withFuel (i : Instance) (before after : Option Nat) (type : FuncType)
    (o : Machine.Outcome) :
    (i.withFuel before).finish type (o.withFuel after) =
      ((i.withFuel none).finish type o).map (CallResult.withFuel after) := by
  cases o with
  | running m => rfl
  | trapped t s => rfl
  | returned s =>
    simp only [finish, Machine.Outcome.withFuel,
      FuelBlind.onStack (Stack.popMany type.results.length) after s]
    cases Store.onStack (Stack.popMany type.results.length) s <;> rfl

theorem finish_eq_none_iff (i : Instance) (type : FuncType) (o : Machine.Outcome) :
    i.finish type o = none ↔ ∃ m, o = .running m := by
  cases o with
  | running m => exact ⟨fun _ => ⟨m, rfl⟩, fun _ => rfl⟩
  | trapped t s => simp [finish]
  | returned s =>
    simp only [finish]
    cases Store.onStack (Stack.popMany type.results.length) s <;> simp

/-- A call is refused, or it is executed; the fuel has no part in that. -/
theorem call_cases (i : Instance) (index : UInt32) (args : List Value) :
    (∃ t, ∀ fuel n, (i.withFuel fuel).call n index args =
      some { outcome := .error t, after := i.withFuel fuel }) ∨
    ∃ type : FuncType, ∀ fuel n, (i.withFuel fuel).call n index args =
      (i.withFuel fuel).finish type ((i.withFuel fuel).execute n index args) := by
  simp only [call, withFuel]
  cases i.space.funcs[index.toNat]? with
  | none => exact .inl ⟨_, fun _ _ => rfl⟩
  | some f =>
    by_cases htypes : args.map Value.type = f.type.params
    · simp only [if_pos htypes]
      exact .inr ⟨f.type, fun _ _ => rfl⟩
    · simp only [if_neg htypes]
      exact .inl ⟨_, fun _ _ => rfl⟩

/-- What comes of a call that is out of fuel in a state of its execution. -/
def outOfFuel (i : Instance) (m : Machine) : CallResult where
  outcome := .error .outOfFuel
  after := { i with space := m.store.space, stack := m.store.stack.clear, fuel := some 0 }
  hostCalls := m.store.hostCalls

/-- A call is out of fuel if the unmetered one is not over when all the fuel is used up. -/
theorem call_outOfFuel (i : Instance) {fuel : Nat}
    (h : ∀ k ≤ fuel, (i.withFuel none).call k index args = none) :
    ∃ m, (i.withFuel none).execute fuel index args = .running m ∧
      ∀ steps > fuel, (i.withFuel (some fuel)).call steps index args = some (i.outOfFuel m) := by
  obtain ⟨t, hcall⟩ | ⟨type, hcall⟩ := call_cases i index args
  · have hover := h fuel (Nat.le_refl fuel)
    rw [hcall] at hover
    contradiction
  · have hrunning : ∀ k ≤ fuel, ∃ m, (i.withFuel none).execute k index args = .running m := by
      intro k hk
      have hnone := h k hk
      rwa [hcall, finish_eq_none_iff] at hnone
    obtain ⟨m, hm⟩ := hrunning fuel (Nat.le_refl fuel)
    refine ⟨m, hm, fun steps hsteps => ?_⟩
    rw [hcall, execute_outOfFuel i hrunning hm hsteps]
    rfl

/-- A call for which there is fuel comes to the end that the unmetered one comes to. -/
theorem call_paid (i : Instance) {n fuel steps : Nat}
    (hr : (i.withFuel none).call n index args = some r)
    (hbefore : ∀ k < n, (i.withFuel none).call k index args = none) (hfuel : n ≤ fuel)
    (hsteps : n ≤ steps) :
    (i.withFuel (some fuel)).call steps index args = some (r.withFuel (some (fuel - n))) := by
  obtain ⟨t, hcall⟩ | ⟨type, hcall⟩ := call_cases i index args
  · cases n with
    | zero =>
      rw [hcall, Option.some.injEq] at hr
      rw [hcall, ← hr]
      rfl
    | succ n =>
      have hover := hbefore 0 (Nat.succ_pos n)
      rw [hcall] at hover
      contradiction
  -- The call is over after exactly `n` steps; the metered one keeps up with it until then.
  · have hrunning : ∀ k < n, ∃ m, (i.withFuel none).execute k index args = .running m := by
      intro k hk
      have hnone := hbefore k hk
      rwa [hcall, finish_eq_none_iff] at hnone
    have hsame := execute_withFuel i hfuel hrunning
    rw [hcall] at hr
    have hover : ∀ m, ((i.withFuel none).execute n index args).withFuel (some (fuel - n)) ≠
        .running m := by
      cases ho : (i.withFuel none).execute n index args with
      | running m =>
        rw [ho] at hr
        contradiction
      | returned s => simp [Machine.Outcome.withFuel]
      | trapped t s => simp [Machine.Outcome.withFuel]
    rw [hcall, execute_of_le hsteps hsame hover, finish_withFuel, hr]
    rfl

/-- A metered call is over one instruction after its fuel, if not before. -/
theorem exists_call_metered (i : Instance) (fuel : Nat) (index : UInt32) (args : List Value) :
    ∃ r, (i.withFuel (some fuel)).call (fuel + 1) index args = some r := by
  classical
  by_cases hover : ∃ n, n ≤ fuel ∧ (i.withFuel none).call n index args ≠ none
  · obtain ⟨hle, hne⟩ := Nat.find_spec hover
    obtain ⟨r, hr⟩ := Option.ne_none_iff_exists'.mp hne
    have hbefore : ∀ k < Nat.find hover, (i.withFuel none).call k index args = none := by
      intro k hk
      have hmin := Nat.find_min hover hk
      simp only [not_and, not_not] at hmin
      exact hmin (Nat.le_trans (Nat.le_of_lt hk) hle)
    exact ⟨_, i.call_paid hr hbefore hle (Nat.le_succ_of_le hle)⟩
  · simp only [not_exists, not_and, not_not] at hover
    obtain ⟨m, -, hout⟩ := i.call_outOfFuel hover
    exact ⟨_, hout (fuel + 1) (Nat.lt_succ_self fuel)⟩

end Instance

/-- If an unmetered call is over after exactly `n` instructions, the same call with fuel for `n` of
them comes to the same end and has that much less fuel left; with less fuel it is out of fuel, in
the state reached after as many instructions as there was fuel. If the unmetered call is never over,
the metered one is always out of fuel. So every metered call is over at some time. -/
theorem call_metered (i : Instance) (index : UInt32) (args : List Value) :
    (∀ n r, (i.withFuel none).call n index args = some r →
      (∀ k < n, (i.withFuel none).call k index args = none) →
      (∀ fuel ≥ n, ∀ steps ≥ n, (i.withFuel (some fuel)).call steps index args =
        some (r.withFuel (some (fuel - n)))) ∧
      ∀ fuel < n, ∃ m, (i.withFuel none).execute fuel index args = .running m ∧
        ∀ steps > fuel, (i.withFuel (some fuel)).call steps index args = some (i.outOfFuel m)) ∧
    ((∀ n, (i.withFuel none).call n index args = none) →
      ∀ fuel, ∃ m, (i.withFuel none).execute fuel index args = .running m ∧
        ∀ steps > fuel, (i.withFuel (some fuel)).call steps index args = some (i.outOfFuel m)) ∧
    ∀ fuel, ∃ r, (i.withFuel (some fuel)).call (fuel + 1) index args = some r := by
  refine ⟨fun n r hr hbefore => ⟨?_, ?_⟩, fun hnever fuel => ?_, fun fuel => ?_⟩
  · exact fun fuel hfuel steps hsteps => i.call_paid hr hbefore hfuel hsteps
  · exact fun fuel hfuel => i.call_outOfFuel fun k hk => hbefore k (Nat.lt_of_le_of_lt hk hfuel)
  · exact i.call_outOfFuel fun k _ => hnever k
  · exact i.exists_call_metered fuel index args

/-- Code that puts five into a global. -/
def fiveSetter : Code where
  type := ⟨[], []⟩
  body := #[0x41, 0x05, 0x24, 0x00, 0x0B]
  localCount := 0
  types := #[]
  blocks := ∅

/-- An instance with one function and one global. -/
def fiveSetting : Instance where
  module := {}
  space := ⟨#[.code fiveSetter], none, none, #[⟨⟨.i32, true⟩, 0⟩]⟩
  exports := ∅
  stack := { limit := 16 }
  config := {}
  fuel := none

/-- The function takes three instructions. With fuel for two of them the global is set, but the
function has not returned. -/
theorem call_metered_fiveSetting :
    (∃ r, (fiveSetting.withFuel (some 7)).call 3 0 [] = some r ∧ r.outcome = .ok [] ∧
      r.after.fuel = some 4) ∧
    ∃ r, (fiveSetting.withFuel (some 2)).call 3 0 [] = some r ∧ r.outcome = .error .outOfFuel ∧
      r.after.fuel = some 0 ∧ r.after.space.globals = #[⟨⟨.i32, true⟩, 5⟩] := by
  obtain ⟨hpaid, hunpaid⟩ := (call_metered fiveSetting 0 []).1 3 _ rfl (by decide +kernel)
  obtain ⟨m, hm, hout⟩ := hunpaid 2 (by decide)
  refine ⟨⟨_, hpaid 7 (by decide) 3 (by decide), rfl, rfl⟩, _, hout 3 (by decide), rfl, rfl, ?_⟩
  cases hm
  rfl

end Wasm
