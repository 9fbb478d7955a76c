import TensorCompiler.Graph.Normal

/-! # Algebraic simplification of graphs

An operator that leaves one of its operands as it is gives way to that operand:

* `x + 0`, `0 + x`, `x - 0`, `x * 1`, `1 * x` and `x / 1` are `x`;
* `neg (neg x)` is `x`;
* `relu (relu x)` is `relu x`.

The replacements are found on the graph as it stands, then every reader of a replaced tensor is rewired to
the end of its chain of replacements. The outputs of the graph are never replaced.
-/

namespace TensorCompiler

/-- The operands that a binary operator may leave as they are: the operand, the other one, and the value
that the other one must have everywhere. -/
def BinaryFn.identities (fn : BinaryFn) (a b : TensorId) : List (TensorId × TensorId × Float) :=
  match fn with
  | .add => [(a, b, 0.0), (b, a, 0.0)]
  | .mul => [(a, b, 1.0), (b, a, 1.0)]
  | .sub => [(a, b, 0.0)]
  | .div => [(a, b, 1.0)]
  | .max => []

namespace Graph

/-- Whether a tensor is a constant with the given value everywhere. -/
def isSplat [FloatOps] (g : Graph) (id : TensorId) (x : Float) : Except Error Bool := do
  let info ← g.tensor id
  pure <| match info.constant? with
    | some value => value.data.all fun y => FloatOps.eq y x
    | none => false

/-- The first operand whose partner has the value that it must have. -/
def firstIdentity [FloatOps] (g : Graph) : List (TensorId × TensorId × Float) → Except Error (Option TensorId)
  | [] => .ok none
  | (kept, other, x) :: rest => do
    if ← g.isSplat other x then pure (some kept) else g.firstIdentity rest

/-- The node that computes a tensor. -/
def producerNode? (g : Graph) (id : TensorId) : Option Operator :=
  (g.producer? id).bind fun i => g.nodes[i]?

/-- The tensor whose elements the output of a node repeats, if a rule gives one. -/
def simplified? [FloatOps] (g : Graph) (op : Operator) : Except Error (Option TensorId) :=
  match op.kind, op.inputs with
  | .binary fn, [a, b] => g.firstIdentity (fn.identities a b)
  | .unary .neg, [x] =>
    match g.producerNode? x with
    | some inner => .ok (if inner.kind = .unary .neg then inner.inputs.head? else none)
    | none => .ok none
  | .unary .relu, [x] =>
    match g.producerNode? x with
    | some inner => .ok (if inner.kind = .unary .relu then some x else none)
    | none => .ok none
  | _, _ => .ok none

/-- The tensor that can stand for the output of a node: one of the same type by a rule. -/
def replacement? [FloatOps] (g : Graph) (op : Operator) : Except Error (Option TensorId) := do
  match ← g.simplified? op with
  | none => pure none
  | some x =>
    let info ← g.tensor x
    let output ← g.tensor op.output
    pure (if info.sameType output then some x else none)

/-- Replaced tensors with their replacements; the entry in front counts. -/
abbrev Replacements := List (TensorId × TensorId)

/-- The replacements for the outputs of the nodes, those of the graph's own outputs left out. -/
def replacements [FloatOps] (g : Graph) : Except Error Replacements :=
  g.nodes.foldlM (fun found op => do
    if g.isOutput op.output then pure found
    else
      match ← g.replacement? op with
      | some x => pure ((op.output, x) :: found)
      | none => pure found) []

/-- The end of the chain of replacements from a tensor, after at most `fuel` steps. -/
def resolveSteps (map : Replacements) : (fuel : Nat) → TensorId → TensorId
  | 0, id => id
  | fuel + 1, id =>
    match map.lookup id with
    | some next => resolveSteps map fuel next
    | none => id

/-- The end of the chain of replacements from a tensor. A chain is no longer than the list. -/
def resolve (map : Replacements) (id : TensorId) : TensorId :=
  resolveSteps map map.length id

/-- Rewires the inputs of one node. -/
def rewireNode (map : Replacements) (g : Graph) (index : Nat) : Except Error Graph :=
  match g.nodes[index]? with
  | none => .ok g
  | some op =>
    op.inputs.foldlM (fun g old =>
      let new := resolve map old
      if new = old then .ok g else g.replaceInput index old new) g

/-- Replaces the outputs of operators that leave an operand as it is. -/
def simplifyAlgebra [FloatOps] (g : Graph) : Except Error Graph := do
  let map ← g.replacements
  if map.isEmpty then pure g
  else
    let rewired ← (List.range g.nodes.length).foldlM (rewireNode map) g
    rewired.normalize

end Graph

end TensorCompiler
