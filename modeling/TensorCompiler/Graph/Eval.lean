import TensorCompiler.Graph.Basic

/-! # Evaluation of graphs

The values of the outputs of a graph for given inputs: the operators are evaluated in the order of the
nodes, each from the values known by then.
-/

namespace TensorCompiler.Graph

/-- The values of the tensors that no operator computes. -/
def sources (g : Graph) (inputs : Tensors) : Except Error Tensors :=
  g.tensors.foldlM (fun values (id, info) =>
    match info.source with
    | .input name =>
      match inputs.lookup name with
      | some value => .ok ((id.name, value) :: values)
      | none => .error (.eval (.missingInput name))
    | .constant value => .ok ((id.name, value) :: values)
    | .operator => .ok values) []

/-- The values with the output of an operator added. -/
def evalNode [FloatOps] (values : Tensors) (op : Operator) : Except Error Tensors := do
  let value ← op.computation.evaluate values
  pure ((op.output.name, value) :: values)

/-- The value of a tensor that is wanted as an output. -/
def outputValue (values : Tensors) (id : TensorId) : Except Error NDArray :=
  match values.lookup id.name with
  | some value => .ok value
  | none => .error (.eval (.missingOutput id))

/-- The values of the outputs. -/
def evaluate [FloatOps] (g : Graph) (inputs : Tensors) : Except Error (List NDArray) := do
  let values ← g.nodes.foldlM evalNode (← g.sources inputs)
  g.outputs.mapM (outputValue values)

end TensorCompiler.Graph
