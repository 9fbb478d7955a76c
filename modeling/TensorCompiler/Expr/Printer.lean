import TensorCompiler.Expr.Basic

/-! # The text of expressions and types

The text is deterministic: equal trees have equal texts. Every binary node and every choice is parenthesised,
so no precedence is involved.
-/

namespace TensorCompiler

/-- The text of a rank that may be open. -/
def rankText : Option Nat → String
  | none => "None"
  | some rank => toString rank

mutual

/-- The text of an expression. -/
def Expr.render : Expr → String
  | .var v => v.name
  | .const value _ => value.render
  | .unary .neg arg => "(-" ++ arg.render ++ ")"
  | .unary .not arg => "!" ++ arg.render
  | .unary .bitNot arg => "~" ++ arg.render
  | .binary op lhs rhs => "(" ++ lhs.render ++ " " ++ op.symbol ++ " " ++ rhs.render ++ ")"
  | .letIn v value body => "let(" ++ v.name ++ "=" ++ value.render ++ ": " ++ body.render ++ ")"
  | .ite cond thenE elseE => "(" ++ cond.render ++ " ? " ++ thenE.render ++ " : " ++ elseE.render ++ ")"
  | .element base indices => base.render ++ Text.bracketed (Expr.renderAll indices)
  | .call func args => func ++ "(" ++ Text.listed (Expr.renderAll args) ++ ")"
  | .cast target arg => "cast(" ++ target.render ++ ", " ++ arg.render ++ ")"
  | .deref arg => "*" ++ arg.render
  | .addr arg => "&" ++ arg.render
  | .ref arg => "Ref(" ++ arg.render ++ ")"
  | .scalarInput name _ => name
  | .tensorInput name _ _ => name
  | .compute name shape axes value =>
    "TensorCompute(" ++ name ++ ", " ++ Text.bracketed (Expr.renderAll shape) ++ ", " ++
      Text.bracketed (axes.map Var.name) ++ ", " ++ value.render ++ ")"
  | .reduce kind shape axes value =>
    "ReduceCompute(" ++ kind.name ++ ", " ++ Text.bracketed (Expr.renderAll shape) ++ ", " ++
      Text.bracketed (axes.map Var.name) ++ ", " ++ value.render ++ ")"
  | .any hole => "AnyExpr(" ++ Slot.holeText hole ++ ")"
  | .anyCompute rank allowReduce =>
    "TensorComputePattern(rank=" ++ rankText rank ++ ", allow_reduce=" ++ Value.boolText allowReduce ++ ")"
  | .anyReduce kind => "ReduceComputePattern(kind=" ++ (kind.map ReduceKind.name).getD "None" ++ ")"

/-- The texts of several expressions. -/
def Expr.renderAll : List Expr → List String
  | [] => []
  | e :: es => e.render :: Expr.renderAll es

/-- The text of a tensor type. -/
def TensorType.render : TensorType → String
  | ⟨scope, dtype, shape, strides⟩ =>
    "TensorType(" ++ dtype.render DType.name ++ ", " ++ Expr.renderShape "[..]" "[" "]" shape ++ ", " ++
      scope.render MemoryScope.render ++ Expr.renderShape "" ", strides=[" "]" strides ++ ")"

/-- The text of a list that may be absent, with what stands in its place and on its two sides. -/
def Expr.renderShape (absent opening closing : String) : Option (List Expr) → String
  | none => absent
  | some es => opening ++ Text.listed (Expr.renderAll es) ++ closing

/-- The text of a type. -/
def Ty.render : Ty → String
  | .scalar dtype => dtype.render DType.name
  | .tensor type => type.render
  | .pointer base => "PointerType(" ++ base.render ++ ")"
  | .reference base => "ReferenceType(" ++ base.render ++ ")"
  | .tensorPointer type => "TensorPointerType(" ++ type.render ++ ")"
  | .void => "VoidType"

end

end TensorCompiler
