import TensorCompiler.Expr.Basic

/-! # Row-major coordinates

The coordinates of a position in a tensor: `unravel` gives them as expressions of a position that is known
when the program runs, `indices` lists them for every position of a static shape.
-/

namespace TensorCompiler

/-- The coordinates in the dimensions that remain. `size` is the number of elements that one step along the
dimension before them covers; the first dimension of all needs no remainder. -/
def unravelFrom (flat : Expr) (first : Bool) (size : Int64) : List Int64 → List Expr
  | [] => []
  | extent :: shape =>
    let stride := size / max extent 1
    let scaled := if stride = 1 then flat else flat / Expr.int stride
    let coordinate := if first then scaled else scaled % Expr.int extent
    coordinate :: unravelFrom flat false stride shape

/-- The coordinates of the position `flat` within a shape. -/
def unravel (flat : Expr) (shape : List Int64) : List Expr :=
  unravelFrom flat true (numElements shape) shape

/-- The coordinates of a position within a shape, both given and written from the last dimension on. -/
def reversedIndex (flat : Int64) : List Int64 → List Int64
  | [] => []
  | extent :: shape => flat % extent :: reversedIndex (flat / extent) shape

/-- Every index of a shape, in row-major order. -/
def indices (shape : List Int64) : List (List Int64) :=
  (List.range (numElements shape).toNatClampNeg).map fun flat =>
    (reversedIndex (Int64.ofNat flat) shape.reverse).reverse

end TensorCompiler
