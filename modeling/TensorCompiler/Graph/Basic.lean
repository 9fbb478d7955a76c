import TensorCompiler.Expr.Eval
import TensorCompiler.Graph.Kind
import TensorCompiler.Task.Basic

/-! # Operator graphs

A graph holds tensors and the operators between them. Each operator owns the task that computes its one
output; inside the task the tensors of the graph appear under their names, so rewiring an edge is a renaming
inside the definition.

Graphs are built in `GraphM`, whose steps keep the state they have reached when they fail: an operator that
is refused has already taken its tensor number. Edits of a finished graph are functions on `Graph`.
-/

namespace TensorCompiler

/-- Where the value of a tensor comes from. -/
inductive TensorSource where
  /-- Given by the caller under a name. -/
  | input (name : String)
  /-- Known when the graph is compiled. -/
  | constant (value : NDArray)
  /-- Computed by an operator. -/
  | operator

/-- What a graph knows of a tensor. -/
structure TensorInfo where
  dtype : DType
  shape : List Int64
  source : TensorSource

namespace TensorInfo

/-- The number of elements. -/
def numel (info : TensorInfo) : Int64 :=
  numElements info.shape

/-- The value of a constant. -/
def constant? (info : TensorInfo) : Option NDArray :=
  match info.source with
  | .constant value => some value
  | _ => none

def isConstant (info : TensorInfo) : Bool :=
  info.constant?.isSome

/-- The name of an input. -/
def inputName? (info : TensorInfo) : Option String :=
  match info.source with
  | .input name => some name
  | _ => none

/-- Whether two tensors have the same element type and shape. -/
def sameType (a b : TensorInfo) : Bool :=
  a.dtype == b.dtype && a.shape == b.shape

end TensorInfo

/-- A node of a graph: one task that computes one tensor. -/
structure Operator where
  kind : OpKind
  /-- The tensors that the task reads. -/
  inputs : List TensorId
  output : TensorId
  task : Task

namespace Operator

def fusionClass (op : Operator) : FusionClass :=
  op.kind.fusionClass

def computation (op : Operator) : TensorCompute :=
  op.task.computation

end Operator

/-- The definition with every read of the tensor named `old` turned into a read of `new`. -/
def TensorCompute.rewire (c : TensorCompute) (old : String) (new : TensorInput) : TensorCompute :=
  { c with
    value := c.value.mapBottomUp fun node =>
      match node with
      | .tensorInput name dtype shape =>
        if name = old then new.toExpr else .tensorInput name dtype shape
      | other => other }

/-- The tensors of a graph, in the order of their numbers. -/
abbrev TensorTable := List (TensorId × TensorInfo)

/-- The table with what is known of a tensor recorded. -/
def TensorTable.insert (id : TensorId) (info : TensorInfo) : TensorTable → TensorTable
  | [] => [(id, info)]
  | (other, known) :: rest =>
    if id < other then (id, info) :: (other, known) :: rest
    else if id = other then (id, info) :: rest
    else (other, known) :: TensorTable.insert id info rest

/-- A graph of operators. -/
structure Graph where
  tensors : TensorTable := []
  nodes : List Operator := []
  inputs : List TensorId := []
  outputs : List TensorId := []
  /-- The number of the next tensor. -/
  nextId : TensorId := 0

namespace Graph

/-! ## Looking things up -/

/-- What is known of a tensor. -/
def tensor (g : Graph) (id : TensorId) : Except Error TensorInfo :=
  match g.tensors.lookup id with
  | some info => .ok info
  | none => .error (.unknownTensor id)

/-- The tensor as an input of a task. -/
def tensorInput (g : Graph) (id : TensorId) : Except Error TensorInput := do
  let info ← g.tensor id
  pure (.ofShape id.name info.dtype info.shape)

def isOutput (g : Graph) (id : TensorId) : Bool :=
  g.outputs.contains id

/-- The tasks of the operators, in the order of the nodes. -/
def tasks (g : Graph) : List Task :=
  g.nodes.map Operator.task

/-- The position of the first node that computes a tensor. -/
def producer? (g : Graph) (id : TensorId) : Option Nat :=
  g.nodes.findIdx? fun op => op.output == id

/-- The positions of the nodes that read a tensor. -/
def consumers (g : Graph) (id : TensorId) : List Nat :=
  (List.range g.nodes.length).filter fun i =>
    match g.nodes[i]? with
    | some op => op.inputs.contains id
    | none => false

/-! ## Operators -/

/-- The operator that computes `output` by the given definition, and the graph in which that tensor is
recorded. The operator is not yet a node. -/
def operator (g : Graph) (kind : OpKind) (inputs : List TensorId) (output : TensorId)
    (computation : TensorCompute) : Except Error (Operator × Graph) := do
  let computation := { computation with name := output.name }
  match computation.constShape? with
  | none => throw (.unresolved (.shapeOf output))
  | some shape =>
    let args ← inputs.mapM g.tensorInput
    let name := kind.label ++ "_" ++ output.name
    let task ← Task.ofCompute name args computation
      (Worker.launch (numElements shape) Worker.defaultBlockSize)
    let dtype ← computation.elementType
    pure (⟨kind, inputs, output, task⟩,
      { g with tensors := g.tensors.insert output ⟨dtype, shape, .operator⟩ })

/-- Puts an operator in the place of a node. -/
def replaceNode (g : Graph) (index : Nat) (op : Operator) : Graph :=
  { g with nodes := g.nodes.set index op }

/-- Puts an operator before the node at `index`, or at the end. -/
def insertNode (g : Graph) (index : Nat) (op : Operator) : Graph :=
  { g with nodes := g.nodes.insertIdx (min index g.nodes.length) op }

/-- Takes a node out. -/
def removeNode (g : Graph) (index : Nat) : Graph :=
  { g with nodes := g.nodes.eraseIdx index }

/-- Takes out the first node that computes a tensor. -/
def removeProducer (g : Graph) (id : TensorId) : Graph :=
  match g.producer? id with
  | some index => g.removeNode index
  | none => g

/-- Records a value for a tensor of the graph. Its shape and element type stay. -/
def recordConstant (g : Graph) (id : TensorId) (value : NDArray) : Except Error Graph := do
  let info ← g.tensor id
  pure { g with tensors := g.tensors.insert id { info with source := .constant value } }

/-- Makes a node read `new` wherever it read `old`; both tensors must have the same type. -/
def replaceInput (g : Graph) (index : Nat) (old new : TensorId) : Except Error Graph :=
  match g.nodes[index]? with
  | none => .ok g
  | some op => do
    let before ← g.tensor old
    let after ← g.tensor new
    if before.sameType after then
      let replacement ← g.tensorInput new
      let inputs := firstOccurrences (op.inputs.map fun id => if id = old then new else id)
      let (rebuilt, g) ← g.operator op.kind inputs op.output (op.computation.rewire old.name replacement)
      pure (g.replaceNode index rebuilt)
    else
      throw (.shapeMismatch ("rewire " ++ old.name ++ " -> " ++ new.name) before.shape after.shape)

end Graph

/-! ## Building -/

/-- Steps that build a graph. A step that fails leaves the graph as it was at that point. -/
abbrev GraphM := EStateM Error Graph

namespace GraphM

/-- The result of a lookup as a step. -/
def ofExcept {α : Type} : Except Error α → GraphM α
  | .ok a => pure a
  | .error e => throw e

/-- Takes the next tensor number. -/
def freshId : GraphM TensorId :=
  modifyGet fun g => (g.nextId, { g with nextId := g.nextId + 1 })

/-- Takes the next tensor number and records a tensor under it. -/
def addTensor (info : TensorInfo) : GraphM TensorId := do
  let id ← freshId
  modify fun g => { g with tensors := g.tensors.insert id info }
  pure id

/-- Declares a tensor that the caller supplies. -/
def addInput (name : String) (dtype : DType) (shape : List Int64) : GraphM TensorId := do
  let id ← addTensor ⟨dtype, shape, .input name⟩
  modify fun g => { g with inputs := g.inputs ++ [id] }
  pure id

/-- Declares a tensor that is known when the graph is compiled. -/
def addConstant (value : NDArray) (dtype : DType) : GraphM TensorId :=
  addTensor ⟨dtype, value.shape.map Int64.ofNat, .constant value⟩

/-- Appends an operator. `define` is given the name of the output, which it puts in front of the names of its
axes so that they stay unique in the graph. -/
def addOperator (kind : OpKind) (inputs : List TensorId) (define : String → TensorCompute) :
    GraphM TensorId := do
  inputs.forM fun id => do discard (ofExcept ((← get).tensor id))
  let output ← freshId
  let (op, g) ← ofExcept ((← get).operator kind inputs output (define output.name))
  set { g with nodes := g.nodes ++ [op] }
  pure output

/-- Makes a tensor an output of the graph. -/
def markOutput (id : TensorId) : GraphM Unit :=
  modify fun g => if g.isOutput id then g else { g with outputs := g.outputs ++ [id] }

/-- Turns a tensor into a constant; the first node that computed it goes. -/
def setConstant (id : TensorId) (value : NDArray) : GraphM Unit := do
  modify fun g => g.removeProducer id
  set (← ofExcept ((← get).recordConstant id value))

end GraphM

end TensorCompiler
