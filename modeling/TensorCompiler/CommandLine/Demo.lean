import TensorCompiler.Codegen.Registry
import TensorCompiler.CommandLine.Options
import TensorCompiler.Graph.Operators

/-! # The programs of the command line

Two graphs and a single task for a warp.
-/

namespace TensorCompiler.CommandLine

/-- The graph of `relu (x · w + b)`. -/
def denseLayer : GraphM Unit := do
  let x ← GraphM.addInput "x" .float32 [32, 64]
  let w ← GraphM.addInput "w" .float32 [64, 128]
  let b ← GraphM.addInput "b" .float32 [128]
  let product ← GraphM.matmul x w
  let sum ← GraphM.binary .add product b
  let y ← GraphM.unary .relu sum
  GraphM.markOutput y

/-- The graph of `relu (conv2d x w)` with a border of one pixel. -/
def convolution : GraphM Unit := do
  let x ← GraphM.addInput "x" .float32 [1, 3, 16, 16]
  let w ← GraphM.addInput "w" .float32 [8, 3, 3, 3]
  let image ← GraphM.conv2d x w (1, 1) (1, 1)
  let y ← GraphM.unary .relu image
  GraphM.markOutput y

/-- The graph that steps build from nothing. -/
def builtGraph (steps : GraphM Unit) : Except Error Graph :=
  match steps.run {} with
  | .ok _ g => .ok g
  | .error e _ => .error e

/-- A tile of 8 by 8 in shared memory, spread over 32 lanes with two registers each. -/
def warpTask : Task :=
  let shape : List Int64 := [8, 8]
  let tile : RegisterTile := ⟨[2, 1], .cyclic [4, 8]⟩
  let input := TensorInput.ofShape "tile" .float32 shape
  let copy := TensorCompute.define "frag" shape "i" input.elementAt
  { name := "warp_s2r"
    computation := copy
    params := [input.toExpr, copy.toExpr]
    paramTypes :=
      [.tensor (.ofShape .shared .float32 shape),
        .tensor (.ofShape (.register (.known tile)) .float32 tile.localShape)]
    worker := .warp }

end TensorCompiler.CommandLine
