import TensorCompiler.Expr.Primitive
import TensorCompiler.Task.Worker

/-! # Intervals of integer expressions

An interval bounds the values of an integer expression; a missing bound means that the side is open. The
interval of an expression follows from those of the variables in scope and of the hardware indices. Bounds
that leave the 64-bit range are dropped.
-/

namespace TensorCompiler

/-- The integers from `lo` to `hi`, both included. -/
structure Interval where
  lo : Option Int
  hi : Option Int
  deriving Repr, DecidableEq

namespace Interval

/-- Every integer. -/
def any : Interval := ⟨none, none⟩

/-- One integer. -/
def exact (n : Int) : Interval := ⟨some n, some n⟩

/-- The integers from `lo` on. -/
def atLeast (lo : Int) : Interval := ⟨some lo, none⟩

/-- The integers from zero to below a bound, where there is one. -/
def below (bound : Option Int) : Interval := ⟨some 0, bound.map (· - 1)⟩

/-- A bound within the 64-bit range. -/
def wordBound? (n : Int) : Option Int :=
  if Int64.minValue.toInt ≤ n ∧ n ≤ Int64.maxValue.toInt then some n else none

/-- An operation on two bounds, where both are there and the result fits. -/
def combine (op : Int → Int → Int) (a b : Option Int) : Option Int := do
  wordBound? (op (← a) (← b))

/-- Whether the interval lies at or above zero. -/
def isNonNegative (a : Interval) : Bool :=
  match a.lo with
  | some lo => decide (0 ≤ lo)
  | none => false

/-- Whether the interval lies in the range from zero to below `c`. -/
def isWithin (a : Interval) (c : Int) : Bool :=
  a.isNonNegative &&
    match a.hi with
    | some hi => decide (hi < c)
    | none => false

def add (a b : Interval) : Interval :=
  ⟨combine (· + ·) a.lo b.lo, combine (· + ·) a.hi b.hi⟩

def sub (a b : Interval) : Interval :=
  ⟨combine (· - ·) a.lo b.hi, combine (· - ·) a.hi b.lo⟩

/-- The least and greatest of the products of the bounds, where all four are there and fit. -/
def mulBounded? (a b : Interval) : Option Interval := do
  let p ← combine (· * ·) a.lo b.lo
  let q ← combine (· * ·) a.lo b.hi
  let r ← combine (· * ·) a.hi b.lo
  let s ← combine (· * ·) a.hi b.hi
  pure ⟨some (min (min p q) (min r s)), some (max (max p q) (max r s))⟩

def mul (a b : Interval) : Interval :=
  match mulBounded? a b with
  | some products => products
  | none =>
    if a.isNonNegative && b.isNonNegative then
      ⟨combine (· * ·) a.lo b.lo, combine (· * ·) a.hi b.hi⟩
    else any

/-- Division by a positive number, toward zero. An interval without members may have a negative upper bound. -/
def div (a : Interval) (c : Int) : Interval :=
  if a.isNonNegative then ⟨a.lo.map (Int.tdiv · c), a.hi.map (Int.tdiv · c)⟩ else any

/-- The remainder of a division by a positive number. -/
def mod (a : Interval) (c : Int) : Interval :=
  if a.isNonNegative then
    match a.hi with
    | some hi => ⟨some 0, some (min hi (c - 1))⟩
    | none => ⟨some 0, some (c - 1)⟩
  else any

/-- Whether `x < y` for all or for no members `x` and `y`, or `x ≤ y` where the comparison is not strict. -/
def compare? (strict : Bool) (a b : Interval) : Option Bool :=
  let always := match a.hi, b.lo with
    | some x, some y => decide (x < y) || (!strict && decide (x = y))
    | _, _ => false
  let never := match a.lo, b.hi with
    | some x, some y => decide (y < x) || (strict && decide (x = y))
    | _, _ => false
  if always then some true else if never then some false else none

end Interval

/-- What is known of the variables in scope, innermost first, and of the hardware indices. -/
structure Bounds where
  vars : List (String × Interval) := []
  threadIdx : Interval
  blockIdx : Interval
  blockDim : Interval

namespace Bounds

/-- What is known in the body of a function on the given worker. -/
def ofWorker (worker : Worker) : Bounds :=
  let dim (d : Option UInt32) : Option Int := d.map fun n => (n.toNat : Int)
  let (gridDim, blockDim) := match worker with
    | .grid gridDim blockDim => (dim gridDim, dim blockDim)
    | .threadBlock blockDim => (none, dim blockDim)
    | _ => (none, none)
  { threadIdx := .below blockDim
    blockIdx := .below gridDim
    blockDim := match blockDim with
      | some n => .exact n
      | none => .atLeast 1 }

/-- The bounds inside the scope of a variable. -/
def bind (env : Bounds) (name : String) (interval : Interval) : Bounds :=
  { env with vars := (name, interval) :: env.vars }

/-- What is known of a primitive without arguments. -/
def ofPrimitive (env : Bounds) (name : String) : Interval :=
  if name = Primitive.threadIdxName then env.threadIdx
  else if name = Primitive.blockIdxName then env.blockIdx
  else if name = Primitive.blockDimName then env.blockDim
  else .any

end Bounds

namespace Expr

/-- The value of a positive integer literal. -/
def positive? (e : Expr) : Option Int :=
  match e.int? with
  | some n => if 0 < n then some n.toInt else none
  | none => none

/-- Bounds on the value of an expression. -/
def interval (env : Bounds) : Expr → Interval
  | const (.int n) _ => .exact n.toInt
  | var v => (env.vars.lookup v.name).getD .any
  | call func [] => env.ofPrimitive func
  | binary op lhs rhs =>
    match op, rhs.positive? with
    | .add, _ => (interval env lhs).add (interval env rhs)
    | .sub, _ => (interval env lhs).sub (interval env rhs)
    | .mul, _ => (interval env lhs).mul (interval env rhs)
    | .div, some c => (interval env lhs).div c
    | .mod, some c => (interval env lhs).mod c
    | _, _ => .any
  | _ => .any

end Expr

end TensorCompiler
