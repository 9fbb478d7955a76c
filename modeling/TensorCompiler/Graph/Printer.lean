import TensorCompiler.Graph.Basic

/-! # The text of a graph

The inputs and constants by their numbers, the operators in the order of the nodes, and the outputs.
-/

namespace TensorCompiler

/-- Constants with more elements are written without their values. -/
def maxPrintedElements : Nat := 16

/-- The text of a list of tensors. -/
def TensorId.listed (ids : List TensorId) : String :=
  Text.listed (ids.map TensorId.name)

/-- The element type and shape of a tensor. -/
def TensorInfo.typeText (info : TensorInfo) : String :=
  info.dtype.name ++ RegisterTile.extents info.shape

/-- The line of a tensor that no operator computes. -/
def TensorInfo.line? (id : TensorId) (info : TensorInfo) : Option String :=
  match info.source with
  | .input name => some ("  input " ++ id.name ++ " " ++ Text.quote name ++ ": " ++ info.typeText ++ "\n")
  | .constant value =>
    let values := if value.data.size ≤ maxPrintedElements then
        " = " ++ Text.bracketed (value.data.toList.map Value.floatText)
      else ""
    some ("  const " ++ id.name ++ ": " ++ info.typeText ++ values ++ "\n")
  | .operator => none

namespace Graph

/-- The line of an operator. -/
def nodeLine (g : Graph) (op : Operator) : String :=
  let type := ((g.tensors.lookup op.output).map TensorInfo.typeText).getD ""
  "  " ++ op.output.name ++ " = " ++ op.kind.label ++ "(" ++ TensorId.listed op.inputs ++ ") : " ++ type ++
    " on " ++ op.task.worker.render ++ "\n"

/-- The text of a graph. -/
def render (g : Graph) : String :=
  "graph \x7b\n" ++ String.join (g.tensors.filterMap fun (id, info) => info.line? id) ++
    String.join (g.nodes.map g.nodeLine) ++ "  return " ++ TensorId.listed g.outputs ++ "\n\x7d\n"

end Graph

end TensorCompiler
