import TensorCompiler.Graph.Basic

/-! # The normal form of a graph

In normal form a graph holds just the operators that its outputs depend on, each after the operators whose
results it reads, and just the tensors that these mention. `Graph.normalize` brings a graph into this form
or finds a cycle.

The nodes are collected depth first from the outputs: a node is placed once all it depends on is placed. The
nodes on the way from an output to the one being placed are open; meeting an open node again closes a cycle.
-/

namespace TensorCompiler.Graph

/-- The position of the last node that computes a tensor. -/
def lastProducer? (nodes : List Operator) (id : TensorId) : Option Nat :=
  (List.range nodes.length).reverse.find? fun i => (nodes[i]?.map Operator.output) == some id

/-- The positions placed so far with those that `id` depends on placed behind them. `closed` holds the
positions that are not open. -/
def place (nodes : List Operator) (closed placed : List Nat) (id : TensorId) : Except Error (List Nat) :=
  match lastProducer? nodes id with
  | none => .ok placed
  | some index =>
    if placed.contains index then .ok placed
    else
      match nodes[index]? with
      | none => .ok placed
      | some op =>
        if _h : index ∈ closed then do
          let placed ← op.inputs.foldlM (fun placed input => place nodes (closed.erase index) placed input) placed
          pure (placed ++ [index])
        else .error (.cyclicGraph op.task.name)
termination_by closed.length
decreasing_by
  have := List.length_pos_of_mem _h
  rw [List.length_erase_of_mem _h]
  omega

/-- The nodes that the outputs depend on, each after those that it depends on. -/
def liveNodes (g : Graph) : Except Error (List Operator) := do
  let order ← g.outputs.foldlM (place g.nodes (List.range g.nodes.length)) []
  pure (order.filterMap fun i => g.nodes[i]?)

/-- Whether a tensor is an input or an output of the graph or belongs to one of its nodes. -/
def mentions (g : Graph) (id : TensorId) : Bool :=
  g.inputs.contains id || g.outputs.contains id ||
    g.nodes.any fun op => op.inputs.contains id || op.output == id

/-- Drops the nodes that no output depends on, orders the others so that each follows those it depends on,
and forgets the tensors that are not mentioned any more. -/
def normalize (g : Graph) : Except Error Graph := do
  let live := { g with nodes := ← g.liveNodes }
  pure { live with tensors := g.tensors.filter fun entry => live.mentions entry.1 }

end TensorCompiler.Graph

namespace TensorCompiler.GraphM

/-- Brings the graph into normal form. A graph with a cycle stays as it is. -/
def normalize : GraphM Unit := do
  set (← ofExcept (← get).normalize)

end TensorCompiler.GraphM
