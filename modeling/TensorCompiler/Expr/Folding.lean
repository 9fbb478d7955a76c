import TensorCompiler.Expr.Traversal
import TensorCompiler.Expr.Typing

/-! # Constant folding of expressions

Bottom-up simplification. An operation on literals becomes the literal of its value, computed by the table of
scalar operations that the evaluator uses; an operation that leaves one operand as it is becomes that
operand. What has no value, such as a division by zero, stays.
-/

namespace TensorCompiler.Expr

variable [FloatOps]

/-- Whether an expression is a literal of a number type with the given value. -/
def isNumber (e : Expr) (x : Float) : Bool :=
  match e with
  | const value dtype => dtype != .bool && FloatOps.eq value.toFloat x
  | _ => false

/-- Whether an expression is a literal of an integer type. -/
def isIntegerLiteral : Expr → Bool
  | const _ dtype => dtype.isInteger
  | _ => false

/-- The element type of an expression of integer type. -/
def integerType? (e : Expr) : Option DType :=
  e.knownDType?.filter DType.isInteger

/-- The expression as a truth value, cast unless it is one already. -/
def asBool (e : Expr) : Expr :=
  if e.knownDType? = some .bool then e else cast (.ofDType .bool) e

/-- The element type of the literal that stands for an operation on literals. -/
def resultType (op : BinaryOp) (a b : DType) : DType :=
  if op.isComparison || op.isLogical then .bool else a.promote b

/-- The literal of an operation on two literals, where it has a value. -/
def foldLiterals? (op : BinaryOp) (lhs rhs : Expr) : Option Expr :=
  match lhs, rhs with
  | const a d, const b e => (op.eval? a b).map fun v => literal v (resultType op d e)
  | _, _ => none

/-- The product of `x` with the literal zero `zero`: zero, if both have integer types. -/
def foldZero? (x zero : Expr) : Option Expr :=
  match x.integerType? with
  | some dtype => if zero.isIntegerLiteral then some (literal (.int 0) dtype) else none
  | none => none

/-- A product. -/
def foldMul (lhs rhs : Expr) : Expr :=
  if rhs.isNumber 1.0 then lhs
  else if lhs.isNumber 1.0 then rhs
  else if rhs.isNumber 0.0 then (foldZero? lhs rhs).getD (lhs * rhs)
  else if lhs.isNumber 0.0 then (foldZero? rhs lhs).getD (lhs * rhs)
  else lhs * rhs

/-- A remainder. -/
def foldMod (lhs rhs : Expr) : Expr :=
  if rhs.isNumber 1.0 && rhs.isIntegerLiteral then
    match lhs.integerType? with
    | some dtype => literal (.int 0) dtype
    | none => lhs % rhs
  else lhs % rhs

/-- A conjunction or a disjunction. An operand with the `absorbing` truth value decides it; a literal without
that value leaves the other operand. -/
def foldLogical (op : BinaryOp) (absorbing : Bool) (lhs rhs : Expr) : Expr :=
  let truth (e : Expr) : Option Bool := e.value?.map Value.truthy
  if truth lhs = some absorbing ∨ truth rhs = some absorbing then bool absorbing
  else if (truth lhs).isSome then rhs.asBool
  else if (truth rhs).isSome then lhs.asBool
  else binary op lhs rhs

/-- A binary operation on simplified operands. -/
def foldBinary (op : BinaryOp) (lhs rhs : Expr) : Expr :=
  match foldLiterals? op lhs rhs with
  | some folded => folded
  | none =>
    match op with
    | .add => if rhs.isNumber 0.0 then lhs else if lhs.isNumber 0.0 then rhs else lhs + rhs
    | .sub => if rhs.isNumber 0.0 then lhs else lhs - rhs
    | .mul => foldMul lhs rhs
    | .div => if rhs.isNumber 1.0 then lhs else lhs / rhs
    | .mod => foldMod lhs rhs
    | .and => foldLogical .and false lhs rhs
    | .or => foldLogical .or true lhs rhs
    | other => binary other lhs rhs

/-- A unary operation on a simplified operand. -/
def foldUnary (op : UnaryOp) (arg : Expr) : Expr :=
  match arg with
  | const value dtype =>
    match op.eval? value with
    | some (.bool b) => if dtype = .bool then literal (.bool b) dtype else bool b
    | some v => literal v dtype
    | none => unary op arg
  | _ => unary op arg

/-- A choice with a simplified condition. -/
def foldIte (cond thenE elseE : Expr) : Expr :=
  match cond.value? with
  | some value => if value.truthy then thenE else elseE
  | none => ite cond thenE elseE

/-- A cast of a simplified operand. -/
def foldCast (target : Ty) (arg : Expr) : Expr :=
  match target, arg with
  | .scalar (.known dtype), const value _ => literal value dtype
  | _, _ => cast target arg

/-- A call with simplified arguments. A mathematical function of literals takes the type of the first. -/
def foldCall (func : String) (args : List Expr) : Expr :=
  let folded := do
    let values ← args.mapM value?
    let value ← Intrinsic.eval? func values
    let dtype ← args.head?.bind knownDType?
    pure (literal value dtype)
  folded.getD (call func args)

/-- Simplifies a node whose sub-expressions are simplified. -/
def foldNode : Expr → Expr
  | binary op lhs rhs => foldBinary op lhs rhs
  | unary op arg => foldUnary op arg
  | ite cond thenE elseE => foldIte cond thenE elseE
  | cast target arg => foldCast target arg
  | call func args => foldCall func args
  | e => e

/-- Simplifies an expression bottom-up. -/
def fold (e : Expr) : Expr :=
  e.mapBottomUp foldNode

end TensorCompiler.Expr
