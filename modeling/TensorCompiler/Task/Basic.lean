import TensorCompiler.Expr.Equality
import TensorCompiler.Expr.Traversal
import TensorCompiler.Expr.Typing

/-! # Tasks

A task is one tensor definition together with the worker that computes it. Its parameters are the nodes of
the definition that a caller supplies: the inputs, then the definition itself, each with its type.
-/

namespace TensorCompiler

/-- A definition to be computed on a worker. -/
structure Task where
  name : String
  computation : TensorCompute
  /-- The compute nodes that are parameters. -/
  params : List Expr
  /-- The types of the parameters, in the same order. -/
  paramTypes : List Ty
  worker : Worker

/-- The element type of the tensor that a definition computes. -/
def TensorCompute.elementType (c : TensorCompute) : Except Error DType := do
  match ← c.value.inferType with
  | .scalar (.known dtype) => pure dtype
  | _ => throw (.unresolved (.elementTypeOf c.name))

/-- The type of a tensor in the memory of the device. -/
def TensorInput.globalType (input : TensorInput) : Ty :=
  .tensor ⟨.known .global, input.dtype, input.shape, none⟩

namespace Task

/-- The task that reads its inputs from the memory of the device and writes its result there. -/
def ofCompute (name : String) (inputs : List TensorInput) (computation : TensorCompute)
    (worker : Worker) : Except Error Task := do
  let dtype ← computation.elementType
  let resultType := .tensor ⟨.known .global, .known dtype, some computation.shape, none⟩
  pure {
    name
    computation
    params := inputs.map TensorInput.toExpr ++ [computation.toExpr]
    paramTypes := inputs.map TensorInput.globalType ++ [resultType]
    worker }

/-- The position of a node among the parameters. -/
def paramIndex? (task : Task) (node : Expr) : Option Nat :=
  task.params.findIdx? fun param => param.same node

/-- Refuses a task with an open field in its definition or in the type of a parameter. -/
def checkResolved (task : Task) : Except Error Unit :=
  if !task.computation.toExpr.isResolved then .error (.unresolved (.computationOf task.name))
  else
    match task.paramTypes.findIdx? fun ty => !ty.isResolved with
    | some index => .error (.unresolved (.parameterTypeOf index task.name))
    | none => .ok ()

/-- The text of a task. -/
def render (task : Task) : String :=
  let params := task.params.zip task.paramTypes |>.map fun (param, ty) =>
    "  param " ++ param.nodeName?.getD "_" ++ ": " ++ ty.render ++ "\n"
  "task " ++ task.name ++ " on " ++ task.worker.render ++ "\n" ++ String.join params ++
    "  compute " ++ task.computation.toExpr.render ++ "\n"

end Task

end TensorCompiler
