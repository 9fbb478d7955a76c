import TensorCompiler.Graph.Normal

/-! # Fusion

A producer whose result only one operator reads, and which is no output of the graph, can be merged into its
reader: wherever the reader reads an element of the result, the definition of that element is written in its
place. The merged operator keeps the reader's output and reads what both read.

A fusion rule says which classes of operators are merged. Each pass applies its rule until no pair is left;
every merge removes a node, so a graph needs no more merges than it has nodes.
-/

namespace TensorCompiler

/-- The definition with every read of an element of `source` replaced by the definition of that element. -/
def TensorCompute.inline (c source : TensorCompute) : TensorCompute :=
  { c with
    value := c.value.mapBottomUp fun node =>
      match node with
      | .element (.tensorInput name dtype shape) indices =>
        if name = source.name then
          source.value.substitute ((source.axes.map Var.name).zip indices).reverse
        else .element (.tensorInput name dtype shape) indices
      | other => other }

/-- The class of a producer merged into a consumer, for the classes that a pass merges. -/
abbrev FusionRule := FusionClass → FusionClass → Option FusionClass

namespace FusionRule

/-- Chains of operators with one input. -/
def unary : FusionRule
  | .unary, .unary => some .unary
  | _, _ => none

/-- An anchor takes in the elementwise operators that read its result. -/
def epilogue : FusionRule := fun producer consumer =>
  if producer = .anchor ∧ consumer.isElementwise then some .anchor else none

/-- An anchor takes in the elementwise operators whose results it reads. -/
def prologue : FusionRule := fun producer consumer =>
  if producer.isElementwise ∧ consumer = .anchor then some .anchor else none

end FusionRule

/-- Two nodes to be merged and the class of the result. -/
structure FusionPair where
  producer : Nat
  consumer : Nat
  cls : FusionClass

namespace Graph

/-- The inputs of a consumer with those of the producer in the place of its result, each once. -/
def mergedInputs (producer consumer : Operator) : List TensorId :=
  firstOccurrences <| consumer.inputs.flatMap fun id =>
    if id = producer.output then producer.inputs else [id]

/-- Merges one node into another, which keeps its place. -/
def fuse (g : Graph) (pair : FusionPair) : Except Error Graph :=
  match g.nodes[pair.producer]?, g.nodes[pair.consumer]? with
  | some producer, some consumer => do
    let (merged, g) ← g.operator (OpKind.fuse producer.kind consumer.kind pair.cls)
      (mergedInputs producer consumer) consumer.output (consumer.computation.inline producer.computation)
    pure ((g.replaceNode pair.consumer merged).removeNode pair.producer)
  | _, _ => .ok g

/-- The pair for one input of a node: what computes it, if the rule allows the merge and no one else needs
the tensor. -/
def pairAt? (g : Graph) (rule : FusionRule) (index : Nat) (consumer : Operator) (id : TensorId) :
    Option FusionPair := do
  let source ← g.producer? id
  let producer ← g.nodes[source]?
  if g.isOutput id || (g.consumers id).length != 1 then none
  else
    let cls ← rule producer.fusionClass consumer.fusionClass
    pure ⟨source, index, cls⟩

/-- The first pair that the rule allows, in the order of the consumers and of their inputs. -/
def firstPair? (g : Graph) (rule : FusionRule) : Option FusionPair :=
  g.nodes.zipIdx.findSome? fun (consumer, index) => consumer.inputs.findSome? (g.pairAt? rule index consumer)

/-- Merges at most `fuel` pairs. The flag tells whether a pair has been merged. -/
def fuseSteps (rule : FusionRule) : (fuel : Nat) → (changed : Bool) → Graph → Except Error (Bool × Graph)
  | 0, changed, g => .ok (changed, g)
  | fuel + 1, changed, g =>
    match g.firstPair? rule with
    | none => .ok (changed, g)
    | some pair => do fuseSteps rule fuel true (← g.fuse pair)

/-- Merges pairs of nodes until the rule allows no more. -/
def fuseAll (rule : FusionRule) (g : Graph) : Except Error Graph := do
  let (changed, fused) ← fuseSteps rule g.nodes.length false g
  if changed then fused.normalize else pure fused

end Graph

end TensorCompiler
