import TensorCompiler.Expr.Memory
import TensorCompiler.Scalar.Arithmetic

/-! # Expressions and types

Expressions are trees of scalar and tensor values; each node owns its children. Types and expressions refer
to each other: a tensor type has expressions for its extents, and a variable or a cast carries a type.

Three groups of nodes share the one type. The plain nodes form programs. The compute nodes (inputs, tensor
computes and reductions) describe what a task computes. The pattern nodes stand for anything of their kind
when a pattern is matched against a task.
-/

namespace TensorCompiler

/-- How a reduction combines its values. -/
inductive ReduceKind where
  | sum
  | max
  | min
  | avg
  deriving Repr, DecidableEq

mutual

/-- A type. -/
inductive Ty where
  | scalar (dtype : ScalarType)
  | tensor (type : TensorType)
  | pointer (base : Ty)
  | reference (base : Ty)
  | tensorPointer (type : TensorType)
  | void

/-- The type of a tensor. Only patterns leave the shape open; absent strides mean row-major order. -/
structure TensorType where
  scope : Slot MemoryScope
  dtype : ScalarType
  shape : Option (List Expr)
  strides : Option (List Expr)

/-- A variable, identified by its name within a function. -/
structure Var where
  name : String
  ty : Ty

/-- An expression. -/
inductive Expr where
  | var (v : Var)
  | const (value : Value) (dtype : DType)
  | unary (op : UnaryOp) (arg : Expr)
  | binary (op : BinaryOp) (lhs rhs : Expr)
  /-- `value` under the name `v` inside `body`. -/
  | letIn (v : Var) (value body : Expr)
  | ite (cond thenE elseE : Expr)
  /-- The element of `base` at the given indices. -/
  | element (base : Expr) (indices : List Expr)
  /-- A call of a primitive or of a function of the module. -/
  | call (func : String) (args : List Expr)
  | cast (target : Ty) (arg : Expr)
  | deref (arg : Expr)
  | addr (arg : Expr)
  | ref (arg : Expr)
  | scalarInput (name : String) (dtype : ScalarType)
  | tensorInput (name : String) (dtype : ScalarType) (shape : Option (List Expr))
  /-- The tensor whose element at the coordinates `axes` is `value`. -/
  | compute (name : String) (shape : List Expr) (axes : List Var) (value : Expr)
  /-- The reduction of `value` over the coordinates `axes`. -/
  | reduce (kind : ReduceKind) (shape : List Expr) (axes : List Var) (value : Expr)
  /-- Stands for any expression. -/
  | any (hole : Hole)
  /-- Stands for any tensor compute of the given rank, with reductions where they are allowed. -/
  | anyCompute (rank : Option Nat) (allowReduce : Bool)
  /-- Stands for any reduction of the given kind. -/
  | anyReduce (kind : Option ReduceKind)

end

instance : Inhabited Ty := ⟨.void⟩
instance : Inhabited Expr := ⟨.const (.int 0) .int32⟩
instance : Inhabited Var := ⟨⟨"", .void⟩⟩

namespace ReduceKind

def name : ReduceKind → String
  | sum => "sum"
  | max => "max"
  | min => "min"
  | avg => "avg"

/-- The reduction of the given name. -/
def ofName? (text : String) : Option ReduceKind :=
  [sum, max, min, avg].find? fun kind => kind.name == text

/-- The value that combining starts from. -/
def init (kind : ReduceKind) (dtype : DType) : Value :=
  match kind, dtype.isFloat with
  | sum, true | avg, true => .float 0.0
  | sum, false | avg, false => .int 0
  | max, true => .float (-1.0 / 0.0)
  | max, false => .int Int64.minValue
  | min, true => .float (1.0 / 0.0)
  | min, false => .int Int64.maxValue

end ReduceKind

namespace Ty

/-- The type of a scalar of a known element type. -/
def ofDType (dtype : DType) : Ty :=
  .scalar (.known dtype)

/-- The element type of a scalar, a tensor or a tensor pointer. -/
def scalarType? : Ty → Option ScalarType
  | scalar dtype => some dtype
  | tensor type | tensorPointer type => some type.dtype
  | _ => none

/-- The tensor type of a tensor. -/
def tensor? : Ty → Option TensorType
  | tensor type => some type
  | _ => none

def isTensor : Ty → Bool
  | tensor _ => true
  | _ => false

end Ty

/-- An `int32` variable. -/
def Var.int (name : String) : Var :=
  ⟨name, .ofDType .int32⟩

namespace Expr

/-- An `int32` literal. -/
def int (n : Int64) : Expr := const (.int n) .int32

/-- A `float32` literal. -/
def float (x : Float) : Expr := const (.float x) .float32

/-- A boolean literal. -/
def bool (b : Bool) : Expr := const (.bool b) .bool

/-- The literal of an element type nearest to a value. -/
def literal (value : Value) (dtype : DType) : Expr := const (value.cast dtype) dtype

instance : Add Expr := ⟨binary .add⟩
instance : Sub Expr := ⟨binary .sub⟩
instance : Mul Expr := ⟨binary .mul⟩
instance : Div Expr := ⟨binary .div⟩
instance : Mod Expr := ⟨binary .mod⟩
instance : Neg Expr := ⟨unary .neg⟩

/-- The comparison `a < b`. -/
def lt (a b : Expr) : Expr := binary .lt a b

/-- The comparison `a <= b`. -/
def le (a b : Expr) : Expr := binary .le a b

/-- The comparison `a == b`. -/
def equals (a b : Expr) : Expr := binary .eq a b

/-- The conjunction of two conditions. -/
def and (a b : Expr) : Expr := binary .and a b

/-- The value of an integer literal. -/
def int? : Expr → Option Int64
  | const (.int n) _ => some n
  | _ => none

/-- The value of a literal. -/
def value? : Expr → Option Value
  | const value _ => some value
  | _ => none

/-- The variable that an occurrence names. -/
def var? : Expr → Option Var
  | var v => some v
  | _ => none

/-- The name of an input or of a tensor compute. -/
def nodeName? : Expr → Option String
  | scalarInput name _ => some name
  | tensorInput name _ _ => some name
  | compute name _ _ _ => some name
  | _ => none

/-- Whether the node stands for others in a pattern. -/
def isPattern : Expr → Bool
  | any _ | anyCompute .. | anyReduce _ => true
  | _ => false

/-- The extents of a shape when all of them are integer literals. -/
def constShape? (shape : List Expr) : Option (List Int64) :=
  shape.mapM int?

/-- The literals of a shape. -/
def ofShape (shape : List Int64) : List Expr :=
  shape.map int

end Expr

/-- The value of `acc` combined with `value`, as an expression. -/
def ReduceKind.combine (kind : ReduceKind) (acc value : Expr) : Expr :=
  match kind with
  | sum | avg => acc + value
  | max => .call "max" [acc, value]
  | min => .call "min" [acc, value]

/-! ## Tensors of a task -/

/-- A tensor that a task reads. -/
structure TensorInput where
  name : String
  dtype : ScalarType
  shape : Option (List Expr)

namespace TensorInput

/-- A tensor of known element type and shape. -/
def ofShape (name : String) (dtype : DType) (shape : List Int64) : TensorInput :=
  ⟨name, .known dtype, some (Expr.ofShape shape)⟩

/-- The node that stands for the tensor in a definition. -/
def toExpr (input : TensorInput) : Expr :=
  .tensorInput input.name input.dtype input.shape

/-- The extents when all of them are literals. -/
def constShape? (input : TensorInput) : Option (List Int64) :=
  input.shape.bind Expr.constShape?

/-- The element of the tensor at the given indices. -/
def elementAt (input : TensorInput) (indices : List Expr) : Expr :=
  .element input.toExpr indices

end TensorInput

/-- The definition of a tensor: its element at the coordinates `axes` is `value`. -/
structure TensorCompute where
  name : String
  shape : List Expr
  axes : List Var
  value : Expr

namespace Expr

/-- The tensor input that a node stands for. -/
def tensorInput? : Expr → Option TensorInput
  | tensorInput name dtype shape => some ⟨name, dtype, shape⟩
  | _ => none

/-- The definition that a node holds. -/
def compute? : Expr → Option TensorCompute
  | compute name shape axes value => some ⟨name, shape, axes, value⟩
  | _ => none

end Expr

namespace TensorCompute

/-- The definition as a node. -/
def toExpr (c : TensorCompute) : Expr :=
  .compute c.name c.shape c.axes c.value

def rank (c : TensorCompute) : Nat :=
  c.axes.length

/-- The extents when all of them are literals. -/
def constShape? (c : TensorCompute) : Option (List Int64) :=
  Expr.constShape? c.shape

/-- The number of elements when the shape is static. -/
def numElements? (c : TensorCompute) : Option Int64 :=
  c.constShape?.map numElements

end TensorCompute

/-- The axis with the given number: the name with the number behind it. -/
def Var.axis (name : String) (k : Nat) : Var :=
  Var.int (name ++ toString k)

/-- The first `rank` axes of a name. -/
def axisVars (name : String) (rank : Nat) : List Var :=
  (List.range rank).map (Var.axis name)

/-- The tensor of a static shape whose axes bear the name `axis`. -/
def TensorCompute.define (name : String) (shape : List Int64) (axis : String)
    (value : List Expr → Expr) : TensorCompute :=
  let axes := axisVars axis shape.length
  ⟨name, Expr.ofShape shape, axes, value (axes.map .var)⟩

/-- The reduction over a static shape whose axes bear the name `axis`. -/
def Expr.reduceOver (shape : List Int64) (axis : String) (kind : ReduceKind)
    (value : List Expr → Expr) : Expr :=
  let axes := axisVars axis shape.length
  .reduce kind (Expr.ofShape shape) axes (value (axes.map .var))

namespace TensorType

/-- A row-major tensor type without open fields. -/
def ofShape (scope : MemoryScope) (dtype : DType) (shape : List Int64) : TensorType :=
  ⟨.known scope, .known dtype, some (Expr.ofShape shape), none⟩

/-- The type with strides declared. -/
def withStrides (type : TensorType) (strides : List Int64) : TensorType :=
  { type with strides := some (Expr.ofShape strides) }

def rank? (type : TensorType) : Option Nat :=
  type.shape.map List.length

/-- The extents when all of them are literals. -/
def constShape? (type : TensorType) : Option (List Int64) :=
  type.shape.bind Expr.constShape?

/-- The product of a stride and the extent of its dimension, a literal where both are. -/
def scaledStride (stride extent : Expr) : Expr :=
  match stride.int?, extent.int? with
  | some s, some d => .int (s * d)
  | _, _ => stride * extent

/-- Row-major strides: the last is one, each other is the next one times the extent it steps over. -/
def rowMajorStrides : List Expr → List Expr
  | [] => []
  | [_] => [.int 1]
  | _ :: extent :: rest =>
    let strides := rowMajorStrides (extent :: rest)
    scaledStride (strides.headD (.int 1)) extent :: strides

/-- The declared strides, or the row-major ones of a known shape. -/
def effectiveStrides? (type : TensorType) : Option (List Expr) :=
  type.strides <|> type.shape.map rowMajorStrides

end TensorType

end TensorCompiler
