import Wasm.Instance

/-!
# Wasm.Linker

A linker collects things under names of modules and instantiates modules against them. It either
lets a later definition replace an earlier one of the same name, or refuses it.
-/

namespace Wasm

/-- Things by module and name, and how modules are instantiated against them. -/
structure Linker where
  modules : Imports := ∅
  shadowing : Bool := true
  engine : EngineConfig := {}

/-- Definitions; one that is refused ends a series, and those before it stay. -/
abbrev LinkerM := EStateM LinkError Linker

namespace Linker

/-- What stands under a name of a module. -/
def lookup? (l : Linker) (module name : String) : Option Extern := do
  (← l.modules.get? module).get? name

/-- Define a name of a module. -/
def define (module name : String) (ext : Extern) : LinkerM Unit := fun l =>
  if (l.lookup? module name).isSome && !l.shadowing then
    .error (.duplicateDefinition module name) l
  else
    let names := ((l.modules.get? module).getD ∅).insert name ext
    .ok () { l with modules := l.modules.insert module names }

/-- Define names of a module one after the other. -/
def defineAll (module : String) : List (String × Extern) → LinkerM Unit
  | [] => return ()
  | (name, ext) :: rest => do
    define module name ext
    defineAll module rest

/-- Define every export of an instance, in some order. -/
def defineInstance (module : String) (i : Instance) (order : i.externs.Order := .inserted) :
    LinkerM Unit :=
  defineAll module order.entries

/-- Instantiate a module against what has been defined. -/
def instantiate (l : Linker) (m : Module) (steps : Nat) : Option Instantiation :=
  m.instantiate l.modules l.engine steps

end Linker

end Wasm
