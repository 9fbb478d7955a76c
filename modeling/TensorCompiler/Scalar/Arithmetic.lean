import TensorCompiler.Scalar.Value

/-! # Scalar arithmetic

The one table of scalar operations that the evaluator, the constant folder and the simplifiers share.
Integer arithmetic wraps at 64 bits. An operation without a defined result (a division by zero, a shift by
64 or more, bits of a float) gives `none`.

The operations on floats are fields of the class `FloatOps`, whose instance `FloatOps.binary64` is the
arithmetic of the machine. A theorem that takes them as uninterpreted quantifies over the class.
-/

namespace TensorCompiler

/-- The operations on binary64 numbers that programs use. -/
class FloatOps where
  add : Float → Float → Float
  sub : Float → Float → Float
  mul : Float → Float → Float
  div : Float → Float → Float
  rem : Float → Float → Float
  neg : Float → Float
  abs : Float → Float
  exp : Float → Float
  log : Float → Float
  sqrt : Float → Float
  tanh : Float → Float
  max : Float → Float → Float
  min : Float → Float → Float
  eq : Float → Float → Bool
  lt : Float → Float → Bool

namespace FloatOps

/-- The machine's operations. The greater and the lesser of two numbers pass over an operand that is not a
number, and take the second of two equal ones, which shows on zeros of both signs. -/
instance binary64 : FloatOps where
  add := (· + ·)
  sub := (· - ·)
  mul := (· * ·)
  div := (· / ·)
  rem := Binary64.remainder
  neg := (- ·)
  abs := Float.abs
  exp := Float.exp
  log := Float.log
  sqrt := Float.sqrt
  tanh := Float.tanh
  max x y := if y.isNaN || y < x then x else y
  min x y := if y.isNaN || x < y then x else y
  eq := (· == ·)
  lt x y := decide (x < y)

/-- The logistic function `1 / (1 + exp (-x))`. -/
def sigmoid [FloatOps] (x : Float) : Float :=
  div 1.0 (add 1.0 (exp (neg x)))

/-- The order of two floats; `none` when one of them is not a number. -/
def compare? [FloatOps] (x y : Float) : Option Ordering :=
  if lt x y then some .lt
  else if eq x y then some .eq
  else if lt y x then some .gt
  else none

end FloatOps

/-- A unary operator. -/
inductive UnaryOp where
  | neg
  | not
  | bitNot
  deriving Repr, DecidableEq

/-- A binary operator. -/
inductive BinaryOp where
  | add
  | sub
  | mul
  | div
  | mod
  | lt
  | le
  | eq
  | ne
  | and
  | or
  | bitAnd
  | bitOr
  | shl
  | shr
  deriving Repr, DecidableEq

namespace BinaryOp

/-- The sign between the operands. -/
def symbol : BinaryOp → String
  | add => "+"
  | sub => "-"
  | mul => "*"
  | div => "/"
  | mod => "%"
  | lt => "<"
  | le => "<="
  | eq => "=="
  | ne => "!="
  | and => "&&"
  | or => "||"
  | bitAnd => "&"
  | bitOr => "|"
  | shl => "<<"
  | shr => ">>"

/-- Every binary operator. -/
def all : List BinaryOp :=
  [add, sub, mul, div, mod, lt, le, eq, ne, and, or, bitAnd, bitOr, shl, shr]

/-- The operator with the given sign. -/
def ofSymbol? (text : String) : Option BinaryOp :=
  all.find? fun op => op.symbol == text

/-- Comparisons give a boolean whatever the type of their operands. -/
def isComparison : BinaryOp → Bool
  | lt | le | eq | ne => true
  | _ => false

def isLogical : BinaryOp → Bool
  | and | or => true
  | _ => false

end BinaryOp

section

variable [FloatOps]

/-- The order of two values: booleans and integers as integers, otherwise as floats. -/
def Value.compare? (a b : Value) : Option Ordering :=
  match a.discrete?, b.discrete? with
  | some x, some y => some (compare x y)
  | _, _ => FloatOps.compare? a.toFloat b.toFloat

namespace BinaryOp

/-- A shift amount below the width of the word. -/
def shiftAmount? (n : Int64) : Option Int64 :=
  if 0 ≤ n ∧ n < 64 then some n else none

/-- Whether a truncating division of the two integers is defined: the divisor is not zero and the quotient
fits the word. -/
def dividesSafely (x y : Int64) : Bool :=
  y != 0 && !(x == Int64.minValue && y == -1)

/-- Arithmetic and bit operations on 64-bit integers. -/
def applyInt? (op : BinaryOp) (x y : Int64) : Option Int64 :=
  match op with
  | add => some (x + y)
  | sub => some (x - y)
  | mul => some (x * y)
  | div => if dividesSafely x y then some (x / y) else none
  | mod => if dividesSafely x y then some (x % y) else none
  | bitAnd => some (x &&& y)
  | bitOr => some (x ||| y)
  | shl => (shiftAmount? y).map (x <<< ·)
  | shr => (shiftAmount? y).map (x >>> ·)
  | _ => none

/-- Arithmetic on floats. -/
def applyFloat? (op : BinaryOp) (x y : Float) : Option Float :=
  match op with
  | add => some (FloatOps.add x y)
  | sub => some (FloatOps.sub x y)
  | mul => some (FloatOps.mul x y)
  | div => some (FloatOps.div x y)
  | mod => some (FloatOps.rem x y)
  | _ => none

/-- The value of `a op b`, if it is defined. Two integers compute as integers, two booleans have no
arithmetic, and every other pair computes as floats. -/
def eval? (op : BinaryOp) (a b : Value) : Option Value :=
  match op with
  | and => some (.bool (a.truthy && b.truthy))
  | or => some (.bool (a.truthy || b.truthy))
  | lt => (a.compare? b).map fun order => .bool (order == .lt)
  | le => (a.compare? b).map fun order => .bool (order != .gt)
  | eq => (a.compare? b).map fun order => .bool (order == .eq)
  | ne => (a.compare? b).map fun order => .bool (order != .eq)
  | _ =>
    match a, b with
    | .int x, .int y => (op.applyInt? x y).map .int
    | .bool _, .bool _ => none
    | _, _ => (op.applyFloat? a.toFloat b.toFloat).map .float

end BinaryOp

/-- The value of a unary operator, if it is defined. -/
def UnaryOp.eval? (op : UnaryOp) (v : Value) : Option Value :=
  match op, v with
  | .not, _ => some (.bool (!v.truthy))
  | .neg, .int n => some (.int (-n))
  | .neg, .float x => some (.float (FloatOps.neg x))
  | .bitNot, .int n => some (.int (~~~n))
  | _, _ => none

namespace Intrinsic

/-- The names of the mathematical functions that programs may call. -/
def names : List String :=
  ["abs", "exp", "log", "sqrt", "tanh", "sigmoid", "max", "min"]

/-- The real function of one argument with the given name. -/
def real? (name : String) (x : Float) : Option Float :=
  if name = "abs" then some (FloatOps.abs x)
  else if name = "exp" then some (FloatOps.exp x)
  else if name = "log" then some (FloatOps.log x)
  else if name = "sqrt" then some (FloatOps.sqrt x)
  else if name = "tanh" then some (FloatOps.tanh x)
  else if name = "sigmoid" then some (FloatOps.sigmoid x)
  else none

/-- The absolute value of an integer; the least one is its own. -/
def absInt (n : Int64) : Int64 :=
  if n < 0 then -n else n

/-- The value of the mathematical function `name`, if it is defined for these arguments. Integers stay
integers under `abs`, `max` and `min`. -/
def eval? (name : String) (args : List Value) : Option Value :=
  match args with
  | [.int n] => if name = "abs" then some (.int (absInt n)) else (real? name (Value.int n).toFloat).map .float
  | [v] => (real? name v.toFloat).map .float
  | [.int x, .int y] =>
    if name = "max" then some (.int (if x < y then y else x))
    else if name = "min" then some (.int (if y < x then y else x))
    else none
  | [a, b] =>
    if name = "max" then some (.float (FloatOps.max a.toFloat b.toFloat))
    else if name = "min" then some (.float (FloatOps.min a.toFloat b.toFloat))
    else none
  | _ => none

end Intrinsic

end

end TensorCompiler
