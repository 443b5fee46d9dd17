import Wasm.ConstExpr
import Wasm.Global
import Wasm.Link.Error

/-!
# Wasm.ConstExpr.Eval

The value of a constant expression, given the globals that exist when it is evaluated.
-/

namespace Wasm.ConstExpr

/-- Evaluate an expression against the globals so far. -/
def evaluate (e : ConstExpr) (globals : Array Global) : Except LinkError Value :=
  match e.constant with
  | .error reason => .error (.read reason)
  | .ok (.value v) => .ok v
  | .ok (.global index) =>
    match globals[index.toNat]? with
    | some g => .ok g.value
    | none => .error (.indexOutOfRange .global index globals.size)

end Wasm.ConstExpr
