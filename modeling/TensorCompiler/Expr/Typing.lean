import TensorCompiler.Error
import TensorCompiler.Expr.Primitive

/-! # The type of an expression

The two operands of a binary operator, and the two branches of a choice, must agree in their element type;
an open element type takes that of the other side.
-/

namespace TensorCompiler

/-- The element type of a scalar type. -/
def Ty.scalarOrFault : Ty → Except Error ScalarType
  | .scalar dtype => .ok dtype
  | other => .error (.invalidOperand (.notScalar other))

/-- The common element type of two operands of `op`. -/
def unify (op : String) (lhs rhs : ScalarType) : Except Error ScalarType :=
  match lhs, rhs with
  | .known a, .known b => if a = b then .ok lhs else .error (.typeMismatch op a b)
  | .hole _, .known _ => .ok rhs
  | _, .hole _ => .ok lhs

/-- The type of an element of a value. -/
def Ty.elementType : Ty → Except Error Ty
  | .tensor type | .tensorPointer type => .ok (.scalar type.dtype)
  | .pointer base => .ok base
  | other => .error (.invalidOperand (.notIndexable other))

/-- The type of what a value points to. -/
def Ty.pointee : Ty → Except Error Ty
  | .pointer base | .reference base => .ok base
  | .tensorPointer type => .ok (.tensor type)
  | other => .error (.invalidOperand (.notPointer other))

namespace Expr

mutual

/-- The type of an expression. -/
def inferType : Expr → Except Error Ty
  | var v => .ok v.ty
  | const _ dtype => .ok (.ofDType dtype)
  | unary op arg => do
    let dtype ← (← inferType arg).scalarOrFault
    match op with
    | .not => pure (.ofDType .bool)
    | .neg | .bitNot => pure (.scalar dtype)
  | binary op lhs rhs => do
    let a ← (← inferType lhs).scalarOrFault
    let b ← (← inferType rhs).scalarOrFault
    let unified ← unify op.symbol a b
    if op.isComparison || op.isLogical then pure (.ofDType .bool) else pure (.scalar unified)
  | letIn _ _ body => inferType body
  | ite _ thenE elseE => do
    let a ← (← inferType thenE).scalarOrFault
    let b ← (← inferType elseE).scalarOrFault
    let unified ← unify "if_then_else" a b
    pure (.scalar unified)
  | element base _ => do (← inferType base).elementType
  | call func args =>
    if Primitive.isHardwareIndex func then .ok (.ofDType .int32)
    else if Primitive.isIntrinsic func then inferFirst args
    else .ok .void
  | cast target _ => .ok target
  | deref arg => do (← inferType arg).pointee
  | addr arg => do return .pointer (← inferType arg)
  | ref arg => do return .reference (← inferType arg)
  | scalarInput _ dtype => .ok (.scalar dtype)
  | tensorInput _ dtype shape => .ok (.tensor ⟨.known .global, dtype, shape, none⟩)
  | compute _ shape _ value => do
    let dtype ← (← inferType value).scalarOrFault
    pure (.tensor ⟨.known .global, dtype, some shape, none⟩)
  | reduce _ _ _ value => inferType value
  | any _ | anyCompute .. | anyReduce _ => .error (.unresolved .wildcardType)

/-- The type of a mathematical function: that of its first argument. -/
def inferFirst : List Expr → Except Error Ty
  | [] => .ok (.ofDType .float32)
  | first :: _ => inferType first

end

@[simp]
theorem inferType_var (v : Var) : (var v).inferType = .ok v.ty := by
  rw [inferType]

/-- The element type of an expression that is a scalar of known type. -/
def knownDType? (e : Expr) : Option DType :=
  match e.inferType with
  | .ok (.scalar (.known dtype)) => some dtype
  | _ => none

end Expr

end TensorCompiler
