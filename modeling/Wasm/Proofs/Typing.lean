import Wasm.Proofs.Linked
import Wasm.Proofs.Scan

/-!
# Wasm.Proofs.Typing

When a module is valid: the typing rules of instructions, bodies and modules. Nothing that runs
checks them; a module that keeps them is its producer's concern.

* `PlainInstr.Typed`, `Instr.Typed` and `Body.Typed` give what instructions take from the stack and
  leave there, types from the bottom up. After an instruction that does not go on to the next one
  anything may be on the stack.
* `Module.Valid` collects what a module has to keep.
-/

namespace Wasm

/-! ## Numeric instructions -/

/-- The integers of a width. -/
def Width.int : Width → ValType
  | .w32 => .i32
  | .w64 => .i64

/-- The floats of a width. -/
def Width.float : Width → ValType
  | .w32 => .f32
  | .w64 => .f64

/-- The other type of the same width. -/
def ValType.reinterpreted : ValType → ValType
  | .i32 => .f32
  | .i64 => .f64
  | .f32 => .i32
  | .f64 => .i64

def Conversion.type : Conversion → FuncType
  | .wrap => ⟨[.i64], [.i32]⟩
  | .extend _ => ⟨[.i32], [.i64]⟩
  | .truncate source target _ => ⟨[source.float], [target.int]⟩
  | .convert source target _ => ⟨[source.int], [target.float]⟩
  | .demote => ⟨[.f64], [.f32]⟩
  | .promote => ⟨[.f32], [.f64]⟩
  | .reinterpret source => ⟨[source], [source.reinterpreted]⟩

/-- What a numeric instruction takes and leaves. -/
def NumericOp.type : NumericOp → FuncType
  | .unary (.eqz w) => ⟨[w.int], [.i32]⟩
  | .unary (.int w _) => ⟨[w.int], [w.int]⟩
  | .unary (.float w _) => ⟨[w.float], [w.float]⟩
  | .unary (.conversion op) => op.type
  | .binary (.intRel w _) => ⟨[w.int, w.int], [.i32]⟩
  | .binary (.int w _) => ⟨[w.int, w.int], [w.int]⟩
  | .binary (.floatRel w _) => ⟨[w.float, w.float], [.i32]⟩
  | .binary (.float w _) => ⟨[w.float, w.float], [w.float]⟩

/-! ## Instructions -/

/-- What the instructions of a function refer to, beside the types of its module. -/
structure Context where
  funcs : Nat → Option FuncType
  tables : Nat
  memories : Nat
  globals : List GlobalType
  locals : List ValType
  results : List ValType

/-- What a plain instruction takes and leaves. -/
inductive PlainInstr.Typed (C : Context) :
    PlainInstr → List ValType → List ValType → Prop where
  | unreachable (ts us : List ValType) : Typed C .unreachable ts us
  | nop : Typed C .nop [] []
  | drop (t : ValType) : Typed C .drop [t] []
  | select (t : ValType) : Typed C .select [t, t, .i32] [t]
  | localGet (h : C.locals[index.toNat]? = some t) : Typed C (.localGet index) [] [t]
  | localSet (h : C.locals[index.toNat]? = some t) : Typed C (.localSet index) [t] []
  | localTee (h : C.locals[index.toNat]? = some t) : Typed C (.localTee index) [t] [t]
  | globalGet (h : C.globals[index.toNat]? = some g) : Typed C (.globalGet index) [] [g.valType]
  | globalSet (h : C.globals[index.toNat]? = some g) (hmutable : g.mutable) :
      Typed C (.globalSet index) [g.valType] []
  | load (h : 0 < C.memories) : Typed C (.load op offset) [.i32] [op.type]
  | store (h : 0 < C.memories) : Typed C (.store op offset) [.i32, op.type] []
  | memorySize (h : 0 < C.memories) : Typed C .memorySize [] [.i32]
  | memoryGrow (h : 0 < C.memories) : Typed C .memoryGrow [.i32] [.i32]
  | const (v : Value) : Typed C (.const v) [] [v.type]
  | numeric (op : NumericOp) : Typed C (.numeric op) op.type.params op.type.results

/-- What an instruction outside the block structure takes and leaves. A branch carries what the
label it goes to says; the innermost label comes first, and behind the outermost block stands the
function. -/
inductive Instr.Typed (types : Array FuncType) (C : Context) (labels : List (List ValType)) :
    Instr → List ValType → List ValType → Prop where
  | plain (h : op.Typed C ts us) : Typed types C labels (.plain op) ts us
  | br (h : labels[depth.toNat]? = some ts) (vs us : List ValType) :
      Typed types C labels (.br depth) (vs ++ ts) us
  | brIf (h : labels[depth.toNat]? = some ts) :
      Typed types C labels (.brIf depth) (ts ++ [.i32]) ts
  | brTable (hdepths : ∀ depth ∈ depths, labels[depth.toNat]? = some ts)
      (hlast : labels[last.toNat]? = some ts) (vs us : List ValType) :
      Typed types C labels (.brTable depths last) (vs ++ (ts ++ [.i32])) us
  | ret (vs us : List ValType) : Typed types C labels .ret (vs ++ C.results) us
  | call {func : UInt32} {type : FuncType} (h : C.funcs func.toNat = some type) :
      Typed types C labels (.call func) type.params type.results
  | callIndirect {index : UInt32} {table : UInt8} {type : FuncType}
      (htable : table.toNat < C.tables) (h : types[index.toNat]? = some type) :
      Typed types C labels (.callIndirect index table) (type.params ++ [.i32]) type.results

/-! ## Bodies -/

/-- What a block of a type takes and leaves. -/
def BlockType.funcType? (types : Array FuncType) : BlockType → Option FuncType
  | .empty => some ⟨[], []⟩
  | .value type => some ⟨[], [type]⟩
  | .func index => types[index.toNat]?

/-- The arity that execution knows is that of the type. -/
theorem BlockType.arity?_eq (types : Array FuncType) (b : BlockType) :
    b.arity? types = (b.funcType? types).map fun t => ⟨t.params.length, t.results.length⟩ := by
  cases b <;> rfl

theorem BlockHead.arity_eq (head : BlockHead types) (h : head.type.funcType? types = some t) :
    head.arity = ⟨t.params.length, t.results.length⟩ := by
  have hknown := head.known
  rw [BlockType.arity?_eq, h] at hknown
  exact (Option.some.inj hknown).symm

/-- What instructions in a row take and leave. Each of them leaves what lies below its operands, and
a block sees nothing of that. -/
inductive Body.Typed {types : Array FuncType} (C : Context) :
    List (List ValType) → Body types → List ValType → List ValType → Prop where
  | nil (ts : List ValType) : Typed C labels .nil ts ts
  | leaf (vs : List ValType) (hl : l.instr.Typed types C labels ts us)
      (hrest : Typed C labels rest (vs ++ us) ws) :
      Typed C labels (.leaf l rest) (vs ++ ts) ws
  | block (vs : List ValType) (hhead : head.type.funcType? types = some t)
      (hbody : Typed C (t.results :: labels) body t.params t.results)
      (hrest : Typed C labels rest (vs ++ t.results) ws) :
      Typed C labels (.nest .block head body rest) (vs ++ t.params) ws
  | loop (vs : List ValType) (hhead : head.type.funcType? types = some t)
      (hbody : Typed C (t.params :: labels) body t.params t.results)
      (hrest : Typed C labels rest (vs ++ t.results) ws) :
      Typed C labels (.nest .loop head body rest) (vs ++ t.params) ws
  | cond (vs : List ValType) (hhead : head.type.funcType? types = some t)
      (hskip : t.params = t.results)
      (hbody : Typed C (t.results :: labels) body t.params t.results)
      (hrest : Typed C labels rest (vs ++ t.results) ws) :
      Typed C labels (.nest .cond head body rest) (vs ++ (t.params ++ [.i32])) ws
  | ifElse (vs : List ValType) (hhead : head.type.funcType? types = some t)
      (hthen : Typed C (t.results :: labels) thenArm t.params t.results)
      (helse : Typed C (t.results :: labels) elseArm t.params t.results)
      (hrest : Typed C labels rest (vs ++ t.results) ws) :
      Typed C labels (.ifElse head thenArm elseArm rest) (vs ++ (t.params ++ [.i32])) ws

/-! ## Modules -/

/-- The types of the declared locals. -/
def CodeBody.localTypes (c : CodeBody) : List ValType :=
  c.locals.toList.flatMap fun decl => List.replicate decl.count.toNat decl.type

/-- Groups of locals, written out, are as many as were counted. -/
theorem CodeBody.length_localTypes (c : CodeBody) : c.localTypes.length = c.localCount := by
  have hfold : ∀ (ds : List LocalDecl) (n : Nat), ds.foldl (fun n decl => n + decl.count.toNat) n =
      n + (ds.flatMap fun decl => List.replicate decl.count.toNat decl.type).length := by
    intro ds
    induction ds with
    | nil => exact fun n => rfl
    | cons decl ds ih =>
      intro n
      rw [List.foldl_cons, ih, List.flatMap_cons, List.length_append, List.length_replicate,
        Nat.add_assoc]
  rw [localTypes, localCount, ← Array.foldl_toList, hfold, Nat.zero_add]

/-- What the instructions of a function of the module refer to. -/
def Module.context (m : Module) (locals results : List ValType) : Context :=
  ⟨m.signature?, m.count .table, m.count .memory, m.globalTypes, locals, results⟩

/-- A maximum is not below the minimum, and neither is beyond what is possible. -/
def Limits.Valid (l : Limits) (bound : Nat) : Prop :=
  l.min.toNat ≤ bound ∧ ∀ max, l.max = some max → l.min ≤ max ∧ max.toNat ≤ bound

/-- The types, limits and so on that an import asks for are possible ones. -/
def ImportDesc.Valid (m : Module) : ImportDesc → Prop
  | .func type => type.toNat < m.types.size
  | .table limits => limits.Valid (UInt32.size - 1)
  | .memory limits => limits.Valid maxPages
  | .global _ => True

/-- The type of a constant expression. Of the globals it may use those that are imported and cannot
be changed. -/
inductive ConstExpr.Typed (m : Module) (e : ConstExpr) : ValType → Prop where
  | value (h : e.constant = .ok (.value v)) : Typed m e v.type
  | global (h : e.constant = .ok (.global index))
      (hg : m.importedGlobals[index.toNat]? = some ⟨t, false⟩) : Typed m e t

/-- The body of a function has its type, and is encoded by a tree that has it. -/
def Module.TypedBody (m : Module) (type : UInt32) (code : CodeBody) : Prop :=
  ∃ t, m.types[type.toNat]? = some t ∧ ∃ b : Body m.types, b.Encodes code.body ∧
    b.Typed (m.context (t.params ++ code.localTypes) t.results) [t.results] [] t.results

/-- A module that keeps the rules. -/
structure Module.Valid (m : Module) : Prop where
  imports : ∀ i ∈ m.imports, i.desc.Valid m
  bodyCount : m.funcs.size = m.codes.size
  bodies : ∀ (k : Nat) type code, m.funcs[k]? = some type → m.codes[k]? = some code →
    m.TypedBody type code
  tables : ∀ limits ∈ m.tables, limits.Valid (UInt32.size - 1)
  memories : ∀ limits ∈ m.memories, limits.Valid maxPages
  tableCount : m.count .table ≤ 1
  memoryCount : m.count .memory ≤ 1
  globals : ∀ d ∈ m.globals, d.init.Typed m d.type.valType
  elements : ∀ s ∈ m.elements, s.table.toNat < m.count .table ∧ s.offset.Typed m .i32 ∧
    ∀ func ∈ s.funcs, func.toNat < m.count .func
  data : ∀ s ∈ m.data, s.memory.toNat < m.count .memory ∧ s.offset.Typed m .i32
  start : ∀ func, m.start = some func → m.signature? func.toNat = some ⟨[], []⟩
  exports : ∀ e ∈ m.exports, e.index.toNat < m.count e.kind
  names : (m.exports.toList.map Export.name).Nodup

end Wasm
