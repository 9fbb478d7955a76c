import TensorCompiler.Graph.Basic
import TensorCompiler.Graph.Broadcast

/-! # The operators

For each kind of operator its definition as a tensor compute, and the step that appends it to a graph after
checking the shapes of its operands. The axes of a result named `t` are `t_i0`, `t_i1`, …, and those of a
reduction inside it `t_k0`, `t_k1`, ….
-/

namespace TensorCompiler

/-- The names of the axes of a result. -/
def axisName (out : String) : String :=
  out ++ "_i"

/-- The names of the axes of a reduction inside a result. -/
def reductionAxisName (out : String) : String :=
  out ++ "_k"

/-- Zero as a literal of an element type. -/
def Expr.zero (dtype : DType) : Expr :=
  Expr.literal (.int 0) dtype

/-! ## Definitions -/

/-- The value of the function at an element of the given type. -/
def UnaryFn.toExpr (fn : UnaryFn) (dtype : DType) (x : Expr) : Expr :=
  match fn with
  | .relu => .call "max" [x, Expr.zero dtype]
  | .neg => -x
  | other => .call other.name [x]

/-- The value of the function at a pair of elements. -/
def BinaryFn.toExpr (fn : BinaryFn) (x y : Expr) : Expr :=
  match fn with
  | .add => x + y
  | .sub => x - y
  | .mul => x * y
  | .div => x / y
  | .max => .call "max" [x, y]

namespace TensorCompute

/-- The function at each element of `x`. -/
def unary (fn : UnaryFn) (x : TensorInput) (dtype : DType) (shape : List Int64) (out : String) :
    TensorCompute :=
  define out shape (axisName out) fun axes => fn.toExpr dtype (x.elementAt axes)

/-- The function at each pair of elements of `a` and `b`, both stretched to the given shape. -/
def binary (fn : BinaryFn) (a b : TensorInput) (shape : List Int64) (out : String) : TensorCompute :=
  let read (operand : TensorInput) (axes : List Expr) : Expr :=
    operand.elementAt (broadcastIndices (operand.constShape?.getD []) shape axes)
  define out shape (axisName out) fun axes => fn.toExpr (read a axes) (read b axes)

/-- The product of a matrix of `rows` by `inner` and one of `inner` by `columns`. -/
def matmul (a b : TensorInput) (rows inner columns : Int64) (out : String) : TensorCompute :=
  define out [rows, columns] (axisName out) fun axes =>
    Expr.reduceOver [inner] (reductionAxisName out) .sum fun k =>
      a.elementAt (axes.take 1 ++ k) * b.elementAt (k ++ axes.drop 1)

/-- The coordinate in the image that a tap of the kernel reads for a coordinate of the result. -/
def tapCoordinate (axis tap : Expr) (stride padding : Int64) : Expr :=
  axis * Expr.int stride + tap - Expr.int padding

/-- Whether a pixel lies inside an image. -/
def insideImage (row column : Expr) (height width : Int64) : Expr :=
  (((Expr.int 0).le row).and (row.lt (Expr.int height))).and ((Expr.int 0).le column)
    |>.and (column.lt (Expr.int width))

/-- The convolution of images by kernels, with results of `height` by `width`. With padding, a pixel outside
the image counts as zero. -/
def conv2d (x w : TensorInput) (dtype : DType) (image kernel : List Int64) (stride padding : Int64 × Int64)
    (height width : Int64) (out : String) : TensorCompute :=
  let extent (shape : List Int64) (k : Nat) : Int64 := shape.getD k 0
  let axis (k : Nat) : Expr := .var (Var.axis (axisName out) k)
  let tap (k : Nat) : Expr := .var (Var.axis (reductionAxisName out) k)
  let row := tapCoordinate (axis 2) (tap 1) stride.1 padding.1
  let column := tapCoordinate (axis 3) (tap 2) stride.2 padding.2
  let read := x.elementAt [axis 0, tap 0, row, column]
  let pixel :=
    if padding = (0, 0) then read
    else .ite (insideImage row column (extent image 2) (extent image 3)) read (Expr.zero dtype)
  define out [extent image 0, extent kernel 0, height, width] (axisName out) fun _ =>
    Expr.reduceOver (kernel.drop 1) (reductionAxisName out) .sum fun _ =>
      pixel * w.elementAt [axis 1, tap 0, tap 1, tap 2]

/-- The reduction of `x` along one axis, which the result lacks. -/
def reduceAxis (kind : ReduceKind) (x : TensorInput) (shape : List Int64) (axis : Nat) (out : String) :
    TensorCompute :=
  define out (shape.eraseIdx axis) (axisName out) fun axes =>
    Expr.reduceOver [shape.getD axis 0] (reductionAxisName out) kind fun k =>
      x.elementAt (axes.take axis ++ k ++ axes.drop axis)

end TensorCompute

/-! ## Appending operators -/

/-- Refuses a shape of the wrong rank. -/
def expectRank (op : String) (shape : List Int64) (rank : Nat) : Except Error Unit :=
  if shape.length = rank then .ok () else .error (.invalidOperand (.wrongRank op rank shape))

/-- The number of positions of a kernel in a padded image along one dimension. The division truncates. -/
def windowCount (image kernel stride padding : Int64) : Int64 :=
  (image + 2 * padding - kernel) / stride + 1

/-- The rows and columns of a convolution, if its operands fit. -/
def convolutionSize? (image kernel : List Int64) (stride padding : Int64 × Int64) : Option (Int64 × Int64) :=
  match image, kernel with
  | [_, channels, height, width], [_, kernelChannels, kernelHeight, kernelWidth] =>
    if channels ≠ kernelChannels ∨ stride.1 < 1 ∨ stride.2 < 1 ∨ padding.1 < 0 ∨ padding.2 < 0 then none
    else
      let rows := windowCount height kernelHeight stride.1 padding.1
      let columns := windowCount width kernelWidth stride.2 padding.2
      if rows < 1 ∨ columns < 1 then none else some (rows, columns)
  | _, _ => none

namespace GraphM

/-- What is known of a tensor, as a step. -/
def tensor (id : TensorId) : GraphM TensorInfo := do
  ofExcept ((← get).tensor id)

/-- A tensor as the input of a task. -/
def asInput (id : TensorId) (info : TensorInfo) : TensorInput :=
  .ofShape id.name info.dtype info.shape

/-- Applies a function to every element of `x`. -/
def unary (fn : UnaryFn) (x : TensorId) : GraphM TensorId := do
  let info ← tensor x
  addOperator (.unary fn) [x] (TensorCompute.unary fn (asInput x info) info.dtype info.shape)

/-- The tensors that an operator with two operands reads. -/
def pairInputs (a b : TensorId) : List TensorId :=
  if a = b then [a] else [a, b]

/-- Applies a function to every pair of elements of `a` and `b`. -/
def binary (fn : BinaryFn) (a b : TensorId) : GraphM TensorId := do
  let lhs ← tensor a
  let rhs ← tensor b
  let shape ← ofExcept (broadcastShape fn.name lhs.shape rhs.shape)
  addOperator (.binary fn) (pairInputs a b) (TensorCompute.binary fn (asInput a lhs) (asInput b rhs) shape)

/-- Multiplies two matrices. -/
def matmul (a b : TensorId) : GraphM TensorId := do
  let lhs ← tensor a
  let rhs ← tensor b
  ofExcept (expectRank "matmul" lhs.shape 2)
  ofExcept (expectRank "matmul" rhs.shape 2)
  match lhs.shape, rhs.shape with
  | [rows, inner], [inner', columns] =>
    if inner ≠ inner' then throw (.shapeMismatch "matmul" lhs.shape rhs.shape)
    else
      addOperator .matmul (pairInputs a b)
        (TensorCompute.matmul (asInput a lhs) (asInput b rhs) rows inner columns)
  | _, _ => throw (.shapeMismatch "matmul" lhs.shape rhs.shape)

/-- Convolves images with kernels. The image has the dimensions batch, channel, row and column, the kernel
those of output channel, input channel, row and column. -/
def conv2d (x w : TensorId) (stride padding : Int64 × Int64) : GraphM TensorId := do
  let image ← tensor x
  let kernel ← tensor w
  ofExcept (expectRank "conv2d" image.shape 4)
  ofExcept (expectRank "conv2d" kernel.shape 4)
  match convolutionSize? image.shape kernel.shape stride padding with
  | none => throw (.shapeMismatch "conv2d" image.shape kernel.shape)
  | some (height, width) =>
    addOperator (.conv2d stride padding) [x, w]
      (TensorCompute.conv2d (asInput x image) (asInput w kernel) image.dtype image.shape kernel.shape stride
        padding height width)

/-- Reduces a tensor along one axis. -/
def reduceAxis (kind : ReduceKind) (x : TensorId) (axis : Nat) : GraphM TensorId := do
  let info ← tensor x
  if axis ≥ info.shape.length then throw (.invalidOperand (.axisOutOfRange axis info.shape))
  else
    addOperator (.reduce kind axis) [x] (TensorCompute.reduceAxis kind (asInput x info) info.shape axis)

end GraphM

end TensorCompiler
