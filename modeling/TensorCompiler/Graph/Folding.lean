import TensorCompiler.Graph.Eval
import TensorCompiler.Graph.Normal

/-! # Constant folding of graphs

An operator whose inputs are all constants is evaluated, and its output becomes a constant. Operators with
very large outputs stay, and so do those that the evaluator rejects, such as an integer division by zero.

Each step of the loop turns one node into a constant or sets one aside, so a graph needs no more steps than
it has nodes.
-/

namespace TensorCompiler.Graph

/-- Operators with larger outputs are left to run on the device. -/
def maxFoldedElements : Int64 := 65536

/-- Whether all the given tensors are constants. -/
def allConstant (g : Graph) (ids : List TensorId) : Except Error Bool := do
  let infos ← ids.mapM g.tensor
  pure (infos.all TensorInfo.isConstant)

/-- Whether a node is to be evaluated: it is not set aside, small enough and reads constants only. -/
def isFoldable (g : Graph) (setAside : List TensorId) (op : Operator) : Except Error Bool := do
  if setAside.contains op.output then pure false
  else
    let info ← g.tensor op.output
    if maxFoldedElements < info.numel then pure false else g.allConstant op.inputs

/-- The first of the given nodes that is to be evaluated. -/
def firstFoldable (g : Graph) (setAside : List TensorId) : List Operator → Except Error (Option Operator)
  | [] => .ok none
  | op :: ops => do
    if ← g.isFoldable setAside op then pure (some op) else g.firstFoldable setAside ops

/-- The values of the constants among the given tensors. -/
def constants (g : Graph) (ids : List TensorId) : Tensors :=
  ids.filterMap fun id => do
    let info ← g.tensors.lookup id
    let value ← info.constant?
    pure (id.name, value)

/-- The graph with the output of a node turned into a constant. -/
def setConstant (g : Graph) (id : TensorId) (value : NDArray) : Except Error Graph :=
  (g.removeProducer id).recordConstant id value

/-- Folds at most `fuel` nodes. The flag tells whether a node has been folded. -/
def foldSteps [FloatOps] : (fuel : Nat) → (setAside : List TensorId) → (changed : Bool) → Graph →
    Except Error (Bool × Graph)
  | 0, _, changed, g => .ok (changed, g)
  | fuel + 1, setAside, changed, g => do
    match ← g.firstFoldable setAside g.nodes with
    | none => pure (changed, g)
    | some op =>
      match op.computation.evaluate (g.constants op.inputs) with
      | .error _ => foldSteps fuel (op.output :: setAside) changed g
      | .ok value => foldSteps fuel setAside true (← g.setConstant op.output value)

/-- Evaluates the operators that read constants only. -/
def foldConstants [FloatOps] (g : Graph) : Except Error Graph := do
  let (changed, folded) ← foldSteps g.nodes.length [] false g
  if changed then folded.normalize else pure folded

end TensorCompiler.Graph
