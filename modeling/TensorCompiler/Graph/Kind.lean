import TensorCompiler.Expr.Basic

/-! # Kinds of operators

What an operator of a graph computes, and the class that decides which operators may be fused with it.
-/

namespace TensorCompiler

/-- A function applied to each element of one tensor. -/
inductive UnaryFn where
  | relu
  | neg
  | exp
  | sigmoid
  | tanh
  | sqrt
  | abs
  deriving Repr, DecidableEq

/-- A function applied to the elements of two tensors, one of each. -/
inductive BinaryFn where
  | add
  | sub
  | mul
  | div
  | max
  deriving Repr, DecidableEq

/-- How an operator takes part in fusion. -/
inductive FusionClass where
  /-- One input, element by element. -/
  | unary
  /-- Several inputs, element by element. -/
  | elementwise
  /-- A heavier operator that elementwise work is fused into. -/
  | anchor
  deriving Repr, DecidableEq

/-- What an operator computes. -/
inductive OpKind where
  | unary (fn : UnaryFn)
  | binary (fn : BinaryFn)
  | matmul
  /-- A convolution; stride and padding are given for rows, then for columns. -/
  | conv2d (stride padding : Int64 × Int64)
  | reduce (kind : ReduceKind) (axis : Nat)
  /-- Several operators merged into one, by their names. -/
  | fused (cls : FusionClass) (ops : List String)
  deriving Repr, DecidableEq

namespace UnaryFn

def name : UnaryFn → String
  | relu => "relu"
  | neg => "neg"
  | exp => "exp"
  | sigmoid => "sigmoid"
  | tanh => "tanh"
  | sqrt => "sqrt"
  | abs => "abs"

/-- The function of the given name. -/
def ofName? (text : String) : Option UnaryFn :=
  [relu, neg, exp, sigmoid, tanh, sqrt, abs].find? fun fn => fn.name == text

end UnaryFn

namespace BinaryFn

def name : BinaryFn → String
  | add => "add"
  | sub => "sub"
  | mul => "mul"
  | div => "div"
  | max => "max"

/-- The function of the given name. -/
def ofName? (text : String) : Option BinaryFn :=
  [add, sub, mul, div, max].find? fun fn => fn.name == text

end BinaryFn

namespace FusionClass

def name : FusionClass → String
  | unary => "unary"
  | elementwise => "elementwise"
  | anchor => "anchor"

/-- The class of the given name. -/
def ofName? (text : String) : Option FusionClass :=
  [unary, elementwise, anchor].find? fun cls => cls.name == text

def isElementwise : FusionClass → Bool
  | unary | elementwise => true
  | anchor => false

end FusionClass

namespace OpKind

def fusionClass : OpKind → FusionClass
  | unary _ => .unary
  | binary _ => .elementwise
  | matmul | conv2d .. | reduce .. => .anchor
  | fused cls _ => cls

/-- The names of the basic operators that the kind stands for. -/
def opNames : OpKind → List String
  | unary fn => [fn.name]
  | binary fn => [fn.name]
  | matmul => ["matmul"]
  | conv2d .. => ["conv2d"]
  | reduce kind _ => ["reduce_" ++ kind.name]
  | fused _ ops => ops

/-- The name of the kind in dumps and in the names of tasks. -/
def label (kind : OpKind) : String :=
  let joined := "_".intercalate kind.opNames
  match kind with
  | fused .. => "fused_" ++ joined
  | _ => joined

/-- The kind of a producer merged into its consumer. -/
def fuse (producer consumer : OpKind) (cls : FusionClass) : OpKind :=
  fused cls (producer.opNames ++ consumer.opNames)

end OpKind

end TensorCompiler
