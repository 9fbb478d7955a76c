import TensorCompiler.Expr.Basic

/-! # Where a lane's registers lie in the tensor

The lanes of a warp form a row-major grid. `RegisterTile.globalIndices` gives, for a lane and the position of
one of its registers, the indices of the element that the register holds.
-/

namespace TensorCompiler

/-- The coordinates of a lane in a row-major grid. `inner` is the number of lanes in the grid that remains,
its first extent included. -/
def laneCoordinates (lane : Expr) (inner : Int64) : List Int64 → List Expr
  | [] => []
  | extent :: lanes =>
    let below := inner / extent
    let coordinate :=
      if below = 1 then lane % Expr.int extent else lane / Expr.int below % Expr.int extent
    coordinate :: laneCoordinates lane below lanes

namespace RegisterTile

/-- The index along one dimension when the lanes interleave. -/
def cyclicIndex (position lanes : Int64) (coordinate : Expr) : Expr :=
  Expr.int (position * lanes) + coordinate

/-- The index along one dimension when each lane owns a block of `extent` elements. -/
def blockedIndex (position extent : Int64) (coordinate : Expr) : Expr :=
  coordinate * Expr.int extent + Expr.int position

/-- The element that a lane holds in the register at `position`. -/
def globalIndices (tile : RegisterTile) (lane : Expr) (position : List Int64) : List Expr :=
  match tile.layout with
  | .identity => position.map Expr.int
  | .cyclic lanes =>
    ((position.zip lanes).zip (laneCoordinates lane (numElements lanes) lanes)).map
      fun ((p, n), coordinate) => cyclicIndex p n coordinate
  | .blocked lanes =>
    ((position.zip tile.localShape).zip (laneCoordinates lane (numElements lanes) lanes)).map
      fun ((p, extent), coordinate) => blockedIndex p extent coordinate

end RegisterTile

end TensorCompiler
