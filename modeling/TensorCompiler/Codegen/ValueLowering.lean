import TensorCompiler.Error
import TensorCompiler.Expr.Typing
import TensorCompiler.Program.Function
import TensorCompiler.Stmt.Builder
import TensorCompiler.Task.Basic

/-! # Lowering of values

A value of a task refers to the task's nodes and may hold reductions. Lowering makes it a plain expression:
nodes become the parameters of the function, and each reduction becomes a variable that a loop in front of
the value fills.
-/

namespace TensorCompiler

/-- Steps that build a function and may fail. -/
abbrev CodegenM := StateT FunctionBuilder (Except Error)

namespace CodegenM

/-- A step that cannot fail. -/
def build {α : Type} (step : BuildM α) : CodegenM α :=
  fun b => .ok (step.run b)

/-- A value that must be there. -/
def ofOption {α : Type} (error : Error) : Option α → CodegenM α
  | some a => pure a
  | none => throw error

end CodegenM

/-- The parameters that stand for the nodes of a task, by the names of the nodes; the entry in front
counts. -/
abbrev ParamMap := List (String × Var)

namespace ParamMap

open CodegenM

/-- Declares a parameter for each parameter of the task that has a type, under the name of its node. -/
def declare (task : Task) : CodegenM ParamMap :=
  (task.params.zip task.paramTypes).foldlM (fun params (param, ty) => do
    let name ← ofOption (.invalidOperand (.unnamedParameter param task.name)) param.nodeName?
    let v : Var := ⟨name, ty⟩
    build (FunctionBuilder.extendParams [v])
    pure ((name, v) :: params)) []

/-- The parameter of a node, as an expression. -/
def read (params : ParamMap) (name : String) : Except Error Expr :=
  match params.lookup name with
  | some v => .ok (.var v)
  | none => .error (.invalidOperand (.notAParameter name))

end ParamMap

/-- The element type of a value inside a definition. -/
def Expr.scalarDType (e : Expr) : Except Error DType := do
  match ← e.inferType with
  | .scalar (.known dtype) => pure dtype
  | other => throw (.unresolved (.scalarTypeOf e other))

/-- The number of values of an average over the given shape. -/
def averageCount (shape : List Expr) : Except Error Int64 :=
  match Expr.constShape? shape with
  | some extents => .ok (numElements extents)
  | none => .error (.unresolved .averageExtent)

/-- A lowered value: the statements that must run first, and the expression. -/
structure Lowered (α : Type) where
  prelude : List Stmt
  value : α

namespace Reduction

/-- The statement that leaves a reduction in `acc`: the start value, the loops, and for an average the
division by the number of values. -/
def toStmt (kind : ReduceKind) (dtype : DType) (acc : Var) (shape : List Expr) (axes : List Var)
    (combined : Lowered Expr) (divide : List Stmt) : Stmt :=
  let body := combined.prelude ++ [Stmt.assign acc (kind.combine (.var acc) combined.value)]
  let start := Stmt.assign acc (Expr.literal (kind.init dtype) dtype)
  let opened := (axes.zip shape).foldl
    (fun b (axis, extent) => StmtBuilder.enter b (.forRange axis extent none)) (StmtBuilder.append {} start)
  let closed := StmtBuilder.leaveTimes axes.length (opened.appendAll body)
  (closed.appendAll divide).finish

/-- The statement that turns a sum into an average. -/
def divide (kind : ReduceKind) (dtype : DType) (acc : Var) (shape : List Expr) : Except Error (List Stmt) :=
  match kind with
  | .avg => do
    let count ← averageCount shape
    pure [.assign acc (.var acc / Expr.literal (.int count) dtype)]
  | _ => .ok []

end Reduction

open CodegenM

mutual

/-- Lowers an expression. -/
def Expr.lower (params : ParamMap) : Expr → CodegenM (Lowered Expr)
  | .tensorInput name _ _ => do pure ⟨[], ← params.read name⟩
  | .scalarInput name _ => do pure ⟨[], ← params.read name⟩
  | .compute name _ _ _ => throw (.invalidOperand (.nestedCompute name))
  | .reduce kind shape axes value => do
    let dtype ← value.scalarDType
    let acc ← build (FunctionBuilder.declareLocal "acc" (.ofDType dtype))
    let combined ← Expr.lower params value
    let divide ← Reduction.divide kind dtype acc shape
    pure ⟨[Reduction.toStmt kind dtype acc shape axes combined divide], .var acc⟩
  | .unary op arg => do
    let arg ← Expr.lower params arg
    pure ⟨arg.prelude, .unary op arg.value⟩
  | .cast target arg => do
    let arg ← Expr.lower params arg
    pure ⟨arg.prelude, .cast target arg.value⟩
  | .deref arg => do
    let arg ← Expr.lower params arg
    pure ⟨arg.prelude, .deref arg.value⟩
  | .addr arg => do
    let arg ← Expr.lower params arg
    pure ⟨arg.prelude, .addr arg.value⟩
  | .ref arg => do
    let arg ← Expr.lower params arg
    pure ⟨arg.prelude, .ref arg.value⟩
  | .binary op lhs rhs => do
    let lhs ← Expr.lower params lhs
    let rhs ← Expr.lower params rhs
    pure ⟨lhs.prelude ++ rhs.prelude, .binary op lhs.value rhs.value⟩
  | .letIn v value body => do
    let value ← Expr.lower params value
    let body ← Expr.lower params body
    pure ⟨value.prelude ++ body.prelude, .letIn v value.value body.value⟩
  | .ite cond thenE elseE => do
    let cond ← Expr.lower params cond
    let thenE ← Expr.lower params thenE
    let elseE ← Expr.lower params elseE
    pure ⟨cond.prelude ++ thenE.prelude ++ elseE.prelude, .ite cond.value thenE.value elseE.value⟩
  | .element base indices => do
    let base ← Expr.lower params base
    let indices ← Expr.lowerAll params indices
    pure ⟨base.prelude ++ indices.prelude, .element base.value indices.value⟩
  | .call func args => do
    let args ← Expr.lowerAll params args
    pure ⟨args.prelude, .call func args.value⟩
  | e => pure ⟨[], e⟩

/-- Lowers several expressions, one after the other. -/
def Expr.lowerAll (params : ParamMap) : List Expr → CodegenM (Lowered (List Expr))
  | [] => pure ⟨[], []⟩
  | e :: es => do
    let e ← Expr.lower params e
    let es ← Expr.lowerAll params es
    pure ⟨e.prelude ++ es.prelude, e.value :: es.value⟩

end

namespace Expr

theorem lower_const {params : ParamMap} (v : Value) (d : DType) (b : FunctionBuilder) :
    (const v d).lower params b = .ok (⟨[], const v d⟩, b) := by
  rw [Expr.lower]
  · rfl
  all_goals simp

theorem lower_var {params : ParamMap} (v : Var) (b : FunctionBuilder) :
    (var v).lower params b = .ok (⟨[], var v⟩, b) := by
  rw [Expr.lower]
  · rfl
  all_goals simp

end Expr

end TensorCompiler
