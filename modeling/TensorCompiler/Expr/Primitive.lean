import TensorCompiler.Expr.Basic

/-! # Primitives

The hardware indices and the mathematical functions are calls of reserved names, so that they pass through
every transform and are never taken for functions of a module.
-/

namespace TensorCompiler.Primitive

def threadIdxName : String := "threadIdx.x"
def blockIdxName : String := "blockIdx.x"
def blockDimName : String := "blockDim.x"

/-- The index of the thread within its block. -/
def threadIdx : Expr := .call threadIdxName []

/-- The index of the block within the grid. -/
def blockIdx : Expr := .call blockIdxName []

/-- The number of threads of a block. -/
def blockDim : Expr := .call blockDimName []

/-- The lane of the thread within its warp. -/
def laneId : Expr := threadIdx % Expr.int warpSize

/-- Whether a name belongs to a hardware index. -/
def isHardwareIndex (name : String) : Bool :=
  name == threadIdxName || name == blockIdxName || name == blockDimName

/-- Whether a name belongs to a mathematical function. -/
def isIntrinsic (name : String) : Bool :=
  Intrinsic.names.contains name

/-- Whether a name is reserved for a primitive. -/
def isPrimitive (name : String) : Bool :=
  isHardwareIndex name || isIntrinsic name

end TensorCompiler.Primitive
