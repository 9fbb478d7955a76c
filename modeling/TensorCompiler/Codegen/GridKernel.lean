import TensorCompiler.Codegen.Coordinates
import TensorCompiler.Codegen.Implementer
import TensorCompiler.Codegen.ValueLowering
import TensorCompiler.Expr.Primitive

/-! # One thread for each element

The fallback for every task on a grid. Each thread numbers itself, leaves if there is no element of its
number, and otherwise computes and stores that one element.
-/

namespace TensorCompiler.GridKernel

open CodegenM

/-- The name of the implementer. -/
def key : String := "grid_naive_implementer"

/-- The number of threads of a block, where it is not open a literal. -/
def blockDim (worker : Worker) : Expr :=
  match worker.blockDim? with
  | some dim => Expr.int (Int64.ofNat dim.toNat)
  | none => Primitive.blockDim

/-- The body of the kernel: the thread's number, the test that there is such an element, its coordinates, and
the store. -/
def body (worker : Worker) (c : TensorCompute) (shape : List Int64) (out thread : Var)
    (lowered : Lowered Expr) : Stmt :=
  let number := Primitive.blockIdx * blockDim worker + Primitive.threadIdx
  let guarded := (({} : StmtBuilder).enter (.letIn thread number)).enter
    (.ifThen ((Expr.var thread).lt (Expr.int (numElements shape))))
  let located := (c.axes.zip (unravel (.var thread) shape)).foldl
    (fun b (axis, coordinate) => StmtBuilder.enter b (.letIn axis coordinate)) guarded
  let store := Stmt.store (.var out) (c.axes.map .var) lowered.value
  (located.appendAll (lowered.prelude ++ [store])).finish

/-- Generates the kernel of a task of the given shape. -/
def emit (task : Task) (shape : List Int64) : CodegenM Unit := do
  build (FunctionBuilder.setLabel key)
  let params ← ParamMap.declare task
  let out ← ofOption (.codegen key (.unboundOutput task.name)) (params.lookup task.computation.name)
  let thread ← build (FunctionBuilder.freshVar "tid" (.ofDType .int32))
  let lowered ← task.computation.value.lower params
  build (FunctionBuilder.setBody (body task.worker task.computation shape out thread lowered))

/-- The kernel of a task. -/
def kernel (task : Task) : Except Error Function :=
  match task.computation.constShape? with
  | none => .error (.codegen key (.dynamicShape task.name))
  | some shape => do
    let (_, built) ← (emit task shape).run (.new task.name task.worker)
    pure built.function

/-- The implementer. -/
def implementer : Implementer where
  key
  pattern := .anyGridTask
  implement task _ := do return ⟨[← kernel task]⟩

end TensorCompiler.GridKernel
