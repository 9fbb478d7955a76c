import TensorCompiler.Scalar.DType
import TensorCompiler.Text.Quoted

/-! # Memory scopes and register tiles

A tensor lives in one memory scope. A tensor held in the registers of a warp is described by a
`RegisterTile`: the shape of the registers of one lane and the way in which the lanes tile the tensor they
hold together.
-/

namespace TensorCompiler

/-- The number of lanes of a warp. -/
def warpSize : Int64 := 32

/-- The product of the extents of a shape. -/
def numElements (shape : List Int64) : Int64 :=
  shape.foldl (· * ·) 1

/-- How the lanes of a warp share a tensor. -/
inductive LaneLayout where
  /-- Every lane holds the whole tensor. -/
  | identity
  /-- The lanes form a row-major grid and interleave: the global index is `local · lanes + lane`. -/
  | cyclic (lanes : List Int64)
  /-- Each lane owns a contiguous block: the global index is `lane · extent + local`. -/
  | blocked (lanes : List Int64)
  deriving Repr, DecidableEq

/-- The registers of one lane and how the lanes tile the tensor. -/
structure RegisterTile where
  localShape : List Int64
  layout : LaneLayout
  deriving Repr, DecidableEq

namespace RegisterTile

/-- The lane grid, for the layouts that have one. -/
def lanes? (tile : RegisterTile) : Option (List Int64) :=
  match tile.layout with
  | .identity => none
  | .cyclic lanes => some lanes
  | .blocked lanes => some lanes

/-- The number of lanes that take part. -/
def numLanes (tile : RegisterTile) : Int64 :=
  match tile.lanes? with
  | none => 1
  | some lanes => numElements lanes

/-- The shape of the tensor that the lanes hold together. -/
def globalShape (tile : RegisterTile) : List Int64 :=
  match tile.lanes? with
  | none => tile.localShape
  | some lanes => tile.localShape.zipWith (· * ·) lanes

/-- A lane grid has one positive extent for each dimension and fits in one warp. -/
def isValid (tile : RegisterTile) : Bool :=
  match tile.lanes? with
  | none => true
  | some lanes =>
    lanes.length == tile.localShape.length && lanes.all (fun n => decide (0 < n)) &&
      decide (tile.numLanes ≤ warpSize)

/-- The text of a list of extents. -/
def extents (shape : List Int64) : String :=
  Text.bracketed (shape.map toString)

/-- The text of a register tile. -/
def render (tile : RegisterTile) : String :=
  let layout := match tile.layout with
    | .identity => "identity"
    | .cyclic lanes => "cyclic" ++ extents lanes
    | .blocked lanes => "blocked" ++ extents lanes
  "register(" ++ extents tile.localShape ++ ", " ++ layout ++ ")"

end RegisterTile

/-- Where a tensor lives. -/
inductive MemoryScope where
  /-- The memory of the device. -/
  | global
  /-- Scratch memory shared by a thread block. -/
  | shared
  /-- Memory private to a thread. -/
  | perThread
  /-- Spread over the registers of a warp. -/
  | register (tile : Slot RegisterTile)
  deriving Repr, DecidableEq

namespace MemoryScope

/-- Whether no field of the scope is open. -/
def isResolved : MemoryScope → Bool
  | register tile => tile.isResolved
  | _ => true

/-- The text of a scope. -/
def render : MemoryScope → String
  | global => "global"
  | shared => "shared"
  | perThread => "local"
  | register (.known tile) => tile.render
  | register (.hole id) => "register(" ++ Slot.holeText id ++ ")"

end MemoryScope

end TensorCompiler
