import TensorCompiler.Expr.Folding
import TensorCompiler.Program.Function

/-! # Flat buffers

A tensor parameter or local with several dimensions becomes a buffer of one dimension, and an access at
`i₀, …, iₙ` one at the sum of the `iₖ · strideₖ`.
-/

namespace TensorCompiler

/-- A tensor variable that became a buffer. -/
structure FlatBuffer where
  /-- The variable, typed as a buffer. -/
  buffer : Var
  /-- The strides that the tensor had. -/
  strides : List Expr

/-- The sum of the products of indices and strides; a stride of one is left out. -/
def linearIndex (indices strides : List Expr) : Expr :=
  let terms := indices.zipWith (fun index stride => if stride.int? = some 1 then index else index * stride) strides
  match terms with
  | [] => Expr.int 0
  | first :: rest => rest.foldl (· + ·) first

variable [FloatOps]

/-- The number of elements that the buffer of a tensor must hold: with declared strides the distance from the
first element to the last and one more, otherwise the product of the extents. -/
def TensorType.flatExtent (type : TensorType) (shape strides : List Expr) : Expr :=
  let extent :=
    if type.strides.isSome then
      (shape.zip strides).foldl (fun span (dim, stride) => span + (dim - Expr.int 1) * stride) (Expr.int 1)
    else
      match shape with
      | [] => Expr.int 1
      | first :: rest => rest.foldl (· * ·) first
  extent.fold

/-- The buffer of a tensor variable that is not one already. -/
def Var.flatten? (v : Var) : Option FlatBuffer := do
  let type ← v.ty.tensor?
  let shape ← type.shape
  if shape.length ≤ 1 && type.strides.isNone then none
  else
    let strides ← type.effectiveStrides?
    let flat : TensorType := { type with shape := some [type.flatExtent shape strides], strides := none }
    pure ⟨⟨v.name, .tensor flat⟩, strides⟩

/-- Buffers by the names of their variables; the entry in front counts. -/
abbrev FlatBuffers := List (String × FlatBuffer)

namespace FlatBuffers

/-- The buffers of those variables that become one. -/
def ofVars (vars : List Var) : FlatBuffers :=
  (vars.filterMap fun v => v.flatten?.map fun flat => (v.name, flat)).reverse

/-- The indices of an access to `base`: one linear index if it is a buffer and there is one index for each
stride. -/
def indices (buffers : FlatBuffers) (base : Expr) (indices : List Expr) : List Expr :=
  match base.var?.bind fun v => buffers.lookup v.name with
  | some flat => if indices.length = flat.strides.length then [linearIndex indices flat.strides] else indices
  | none => indices

/-- An expression with accesses to buffers made linear. -/
def linearizeExpr (buffers : FlatBuffers) (e : Expr) : Expr :=
  e.mapBottomUp fun node =>
    match node with
    | .var v => .var (((buffers.lookup v.name).map FlatBuffer.buffer).getD v)
    | .element base is => .element base (buffers.indices base is)
    | other => other

/-- A statement whose expressions are linear already, with a store into a buffer made linear. -/
def linearizeStore (buffers : FlatBuffers) : Stmt → Stmt
  | .store buf is value => .store buf (buffers.indices buf is) value
  | s => s

end FlatBuffers

/-- The function with its tensor parameters and locals turned into buffers. -/
def Function.flattenTensors (f : Function) : Function :=
  let buffers := FlatBuffers.ofVars (f.params ++ f.locals)
  if buffers.isEmpty then f
  else
    let flat (v : Var) : Var := (v.flatten?.map FlatBuffer.buffer).getD v
    { f with
      params := f.params.map flat
      locals := f.locals.map flat
      body := f.body.map buffers.linearizeStore buffers.linearizeExpr }

end TensorCompiler
