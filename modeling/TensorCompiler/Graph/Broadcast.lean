import TensorCompiler.Error

/-! # Broadcasting

Two shapes are aligned at their last dimensions. An extent of one, or a dimension that one of them lacks,
stretches to the extent of the other.
-/

namespace TensorCompiler

/-- The common extent of two aligned dimensions. -/
def broadcastExtent? (a b : Int64) : Option Int64 :=
  if a = b then some a
  else if a = 1 then some b
  else if b = 1 then some a
  else none

/-- The common shape of two shapes that are given from their last dimension on. -/
def broadcastReversed? : List Int64 → List Int64 → Option (List Int64)
  | [], b => some b
  | a, [] => some a
  | x :: a, y :: b => do
    let extent ← broadcastExtent? x y
    let rest ← broadcastReversed? a b
    pure (extent :: rest)

/-- The common shape of two shapes. -/
def broadcastShape? (a b : List Int64) : Option (List Int64) :=
  (broadcastReversed? a.reverse b.reverse).map List.reverse

/-- The common shape of the operands of `op`. -/
def broadcastShape (op : String) (a b : List Int64) : Except Error (List Int64) :=
  match broadcastShape? a b with
  | some shape => .ok shape
  | none => .error (.shapeMismatch op a b)

/-- The index into an operand of the given shape for the element of the result at `axes`: zero along a
dimension that is stretched, the aligned axis elsewhere. -/
def broadcastIndices (shape result : List Int64) (axes : List Expr) : List Expr :=
  let leading := result.length - shape.length
  shape.zipWith (fun extent (stretched, axis) =>
      if extent = 1 ∧ stretched ≠ 1 then Expr.int 0 else axis)
    ((result.zip axes).drop leading)

end TensorCompiler
