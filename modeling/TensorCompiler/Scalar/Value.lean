import TensorCompiler.Number.Decimal
import TensorCompiler.Scalar.DType

/-! # Scalar values

A scalar value is a boolean, a 64-bit integer or a binary64 number, whatever the width of the element
type it belongs to. This module holds the conversions between the three and the text of a value.
-/

namespace TensorCompiler

/-- A scalar value. -/
inductive Value where
  | bool (b : Bool)
  | int (n : Int64)
  | float (x : Float)
  deriving Repr, DecidableEq, Inhabited

namespace Value

/-- The value as a float. -/
def toFloat : Value → Float
  | bool b => if b then 1.0 else 0.0
  | int n => Binary64.ofInt64 n
  | float x => x

/-- Whether the value counts as true: it is not zero. A float that is not a number counts as true. -/
def truthy : Value → Bool
  | bool b => b
  | int n => n != 0
  | float x => x != 0.0

/-- The integer a boolean or an integer stands for. -/
def discrete? : Value → Option Int64
  | bool b => some (if b then 1 else 0)
  | int n => some n
  | float _ => none

/-- The value in the representation of an element type. An integer is kept as it is by both integer
types; a float loses its fraction and is kept within 64 bits. -/
def cast (dtype : DType) (v : Value) : Value :=
  match dtype with
  | .bool => .bool v.truthy
  | .int32 | .int64 => .int (v.discrete?.getD (Binary64.truncate v.toFloat))
  | .float16 | .float32 | .float64 => .float v.toFloat

/-- Equality of values, floats compared as numbers: the two zeros are equal, and a float that is not a
number differs from itself. -/
def same : Value → Value → Bool
  | bool a, bool b => a == b
  | int a, int b => a == b
  | float x, float y => x == y
  | _, _ => false

/-- Floats are written with the fewest digits that identify them, positionally between `10 ^ -4` and
`10 ^ 16`, otherwise with an exponent. -/
def floatNotation : Notation where
  plainFrom := -4
  plainBelow := 16
  notANumber := "NaN"
  infinity := "inf"

/-- The text of a float. -/
def floatText (x : Float) : String :=
  floatNotation.render x

/-- The text of a boolean. -/
def boolText (b : Bool) : String :=
  if b then "true" else "false"

/-- The text of a value. -/
def render : Value → String
  | bool b => boolText b
  | int n => toString n
  | float x => floatText x

example : (float 0.1).render = "0.1" := by decide +kernel
example : (float 1e16).render = "1e16" := by decide +kernel
example : (float (-0.0)).render = "-0.0" := by decide +kernel

end Value

end TensorCompiler
