import TensorCompiler.Error
import TensorCompiler.Expr.Traversal

/-! # Evaluation of definitions

The value of an expression under an environment of variables and a supply of named tensors, and the tensor
that a definition computes. The environment is a list of bindings in which an inner one hides an outer one
of the same name.
-/

namespace TensorCompiler

/-- An array of floats in row-major order. -/
structure NDArray where
  shape : List Nat
  data : Array Float

namespace NDArray

/-- The position of an index tuple in row-major order, if there is one coordinate for each dimension and
each lies within its extent. -/
def position? : List Nat → List Nat → Option Nat
  | [], [] => some 0
  | extent :: shape, index :: indices =>
    if index < extent then (position? shape indices).map (index * shape.foldl (· * ·) 1 + ·) else none
  | _, _ => none

/-- The element at an index tuple. -/
def get? (array : NDArray) (indices : List Nat) : Option Float :=
  (position? array.shape indices).bind fun position => array.data[position]?

/-- The array with one value everywhere. -/
def fill (shape : List Nat) (x : Float) : NDArray :=
  ⟨shape, Array.replicate (shape.foldl (· * ·) 1) x⟩

end NDArray

/-- Named tensors. -/
abbrev Tensors := List (String × NDArray)

/-- The variables in scope, innermost first. -/
abbrev Env := List (String × Value)

namespace Env

/-- The environment with each variable bound to the value at its place; a later variable hides an earlier
one of the same name. -/
def bind (env : Env) : List Var → List Value → Env
  | v :: vs, x :: xs => bind ((v.name, x) :: env) vs xs
  | _, _ => env

end Env

/-- The coordinates below each extent, the last one running fastest. -/
def grid : List Int64 → List (List Int64)
  | [] => [[]]
  | extent :: shape =>
    let rest := grid shape
    (List.range extent.toNatClampNeg).flatMap fun i => rest.map (Int64.ofNat i :: ·)

/-- The coordinates of a shape in row-major order; a shape with an empty extent has none. -/
def points (shape : List Int64) : List (List Int64) :=
  if shape.any (fun extent => decide (extent ≤ 0)) then [] else grid shape

/-- Combines two values of a reduction. -/
def ReduceKind.merge? [FloatOps] (kind : ReduceKind) (acc v : Value) : Option Value :=
  match kind with
  | .sum | .avg => BinaryOp.add.eval? acc v
  | .max => Intrinsic.eval? "max" [acc, v]
  | .min => Intrinsic.eval? "min" [acc, v]

/-- The result of a reduction that combined `count` values into `acc`, if it is defined. An average divides by the
count as the operator does, so that of integers is an integer; the count is a word, which may wrap around to a
number that does not divide. A reduction over no values gives the start value of a float. -/
def ReduceKind.finish? [FloatOps] (kind : ReduceKind) (acc : Option Value) (count : Int64) : Option Value :=
  match kind, acc with
  | kind, none => some (kind.init .float32)
  | .avg, some total => BinaryOp.div.eval? total (.int count)
  | _, some v => some v

/-- The value with another one combined into it; the first value starts the reduction. -/
def ReduceKind.accumulate [FloatOps] (kind : ReduceKind) (acc : Option Value) (v : Value) :
    Except Error (Option Value) :=
  match acc with
  | none => .ok (some v)
  | some a =>
    match kind.merge? a v with
    | some combined => .ok (some combined)
    | none => .error (.eval .undefinedCombine)

/-- The index that a value stands for in the expression `e`. -/
def Value.toIndex (e : Expr) : Value → Except Error Nat
  | .int n => if 0 ≤ n then .ok n.toNatClampNeg else .error (.eval (.negativeIndex n e))
  | other => .error (.eval (.nonIntegerIndex other e))

/-- The element of the tensor `name`, as a value of its element type. An open element type counts as
`float32`. -/
def NDArray.read (array : NDArray) (name : String) (dtype : ScalarType) (indices : List Nat) :
    Except Error Value :=
  match array.get? indices with
  | some x => .ok ((Value.float x).cast (dtype.known?.getD .float32))
  | none => .error (.eval (.outOfBounds indices name))

section

variable [FloatOps] (tensors : Tensors)

mutual

/-- The value of an expression. -/
def Expr.eval (env : Env) : Expr → Except Error Value
  | .var v =>
    match env.lookup v.name with
    | some value => .ok value
    | none => .error (.eval (.unboundVariable v.name))
  | .const value _ => .ok value
  | .unary op arg => do
    let v ← arg.eval env
    match op.eval? v with
    | some result => pure result
    | none => throw (.eval (.undefined (.unary op arg)))
  | .binary op lhs rhs => do
    let a ← lhs.eval env
    let b ← rhs.eval env
    match op.eval? a b with
    | some result => pure result
    | none => throw (.eval (.undefinedBinary (.binary op lhs rhs) a b))
  | .letIn v value body => do
    let x ← value.eval env
    body.eval ((v.name, x) :: env)
  | .ite cond thenE elseE => do
    let c ← cond.eval env
    if c.truthy then thenE.eval env else elseE.eval env
  | .element (.tensorInput name dtype _) indices =>
    match tensors.lookup name with
    | none => .error (.eval (.missingTensor name))
    | some array => do
      let indices ← Expr.evalIndices env indices
      array.read name dtype indices
  | .element base _ => .error (.eval (.notATensor base))
  | .call func args => do
    let values ← Expr.evalAll env args
    match Intrinsic.eval? func values with
    | some result => pure result
    | none => throw (.eval (.undefinedCall (.call func args)))
  | .cast target arg => do
    let v ← arg.eval env
    match target with
    | .scalar (.known dtype) => pure (v.cast dtype)
    | other => throw (.eval (.castTarget other))
  | .reduce kind shape axes value =>
    match Expr.constShape? shape with
    | none => .error (.eval .symbolicExtent)
    | some extents => do
      let coordinates := points extents
      let acc ← coordinates.foldlM (fun acc point => do
        let v ← value.eval (env.bind axes (point.map .int))
        kind.accumulate acc v) none
      match kind.finish? acc (Int64.ofNat coordinates.length) with
      | some result => pure result
      | none => throw (.eval .undefinedCombine)
  | other => .error (.eval (.undefined other))

/-- The values of several expressions. -/
def Expr.evalAll (env : Env) : List Expr → Except Error (List Value)
  | [] => .ok []
  | e :: es => do
    let v ← e.eval env
    let vs ← Expr.evalAll env es
    pure (v :: vs)

/-- The values of several expressions as indices, each checked before the next is evaluated. -/
def Expr.evalIndices (env : Env) : List Expr → Except Error (List Nat)
  | [] => .ok []
  | e :: es => do
    let v ← e.eval env
    let index ← v.toIndex e
    let indices ← Expr.evalIndices env es
    pure (index :: indices)

end

theorem Expr.eval_const (env : Env) (v : Value) (d : DType) : (Expr.const v d).eval tensors env = .ok v := by
  rw [Expr.eval]

/-- The tensor that a definition computes, each element stored as a float. -/
def TensorCompute.evaluate (c : TensorCompute) : Except Error NDArray :=
  match c.constShape? with
  | none => .error (.eval (.symbolicShape c.name))
  | some shape =>
    if shape.any (fun extent => decide (extent < 0)) then .error (.eval (.negativeExtent c.name))
    else do
      let data ← (points shape).foldlM (fun (data : Array Float) point => do
        let v ← c.value.eval tensors (Env.bind [] c.axes (point.map .int))
        pure (data.push v.toFloat)) #[]
      pure ⟨shape.map Int64.toNatClampNeg, data⟩

end

end TensorCompiler
