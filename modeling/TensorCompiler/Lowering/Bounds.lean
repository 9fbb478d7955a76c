import TensorCompiler.Expr.Interval
import TensorCompiler.Program.Function
import TensorCompiler.Stmt.Folding

/-! # Simplification by bounds

Intervals of loop variables, `let` variables and hardware indices decide comparisons, and drop divisions and
remainders of numbers that are known to lie below the divisor. Constant folding follows at each node.
-/

namespace TensorCompiler

variable [FloatOps]

namespace Expr

/-- The element type of a literal; any other expression counts as `int32`. -/
def literalType : Expr → DType
  | const _ dtype => dtype
  | _ => .int32

/-- Simplifies a binary operation by the bounds of its operands. -/
def boundBinary (env : Bounds) (op : BinaryOp) (lhs rhs : Expr) : Expr :=
  let keep := binary op lhs rhs
  match op, rhs.positive? with
  | .lt, _ => (((lhs.interval env).compare? true (rhs.interval env)).map bool).getD keep
  | .le, _ => (((lhs.interval env).compare? false (rhs.interval env)).map bool).getD keep
  | .mod, some c => if (lhs.interval env).isWithin c then lhs else keep
  | .div, some c => if (lhs.interval env).isWithin c then literal (.int 0) rhs.literalType else keep
  | _, _ => keep

/-- Simplifies a node whose sub-expressions are simplified. -/
def boundNode (env : Bounds) : Expr → Expr
  | binary op lhs rhs => foldNode (boundBinary env op lhs rhs)
  | e => foldNode e

mutual

/-- Simplifies an expression under bounds for its variables. -/
def simplifyBounds (env : Bounds) : Expr → Expr
  | letIn v value body =>
    let value := simplifyBounds env value
    letIn v value (simplifyBounds (env.bind v.name (value.interval env)) body)
  | unary op arg => boundNode env (unary op (simplifyBounds env arg))
  | binary op lhs rhs => boundNode env (binary op (simplifyBounds env lhs) (simplifyBounds env rhs))
  | ite cond thenE elseE =>
    boundNode env (ite (simplifyBounds env cond) (simplifyBounds env thenE) (simplifyBounds env elseE))
  | element base indices => boundNode env (element (simplifyBounds env base) (simplifyAllBounds env indices))
  | call func args => boundNode env (call func (simplifyAllBounds env args))
  | cast target arg => boundNode env (cast target (simplifyBounds env arg))
  | deref arg => boundNode env (deref (simplifyBounds env arg))
  | addr arg => boundNode env (addr (simplifyBounds env arg))
  | ref arg => boundNode env (ref (simplifyBounds env arg))
  | tensorInput name dtype (some shape) =>
    boundNode env (tensorInput name dtype (some (simplifyAllBounds env shape)))
  | compute name shape axes value =>
    boundNode env (compute name (simplifyAllBounds env shape) axes (simplifyBounds env value))
  | reduce kind shape axes value =>
    boundNode env (reduce kind (simplifyAllBounds env shape) axes (simplifyBounds env value))
  | e => boundNode env e

/-- Simplifies several expressions. -/
def simplifyAllBounds (env : Bounds) : List Expr → List Expr
  | [] => []
  | e :: es => simplifyBounds env e :: simplifyAllBounds env es

end

end Expr

namespace Stmt

mutual

/-- Simplifies a statement under bounds for its variables. -/
def simplifyBounds (env : Bounds) : Stmt → Stmt
  | forRange v extent unroll body =>
    let extent := extent.simplifyBounds env
    foldNode <| forRange v extent unroll <|
      simplifyBounds (env.bind v.name (.below (extent.interval env).hi)) body
  | letIn v value body =>
    let value := value.simplifyBounds env
    foldNode (letIn v value (simplifyBounds (env.bind v.name (value.interval env)) body))
  | ite cond thenS none => foldNode (ite (cond.simplifyBounds env) (simplifyBounds env thenS) none)
  | ite cond thenS (some elseS) =>
    foldNode <| ite (cond.simplifyBounds env) (simplifyBounds env thenS) (some (simplifyBounds env elseS))
  | seq stmts => foldNode (seq (simplifyAllBounds env stmts))
  | s => foldNode (s.mapOwnExprs fun e => e.simplifyBounds env)

/-- Simplifies several statements. -/
def simplifyAllBounds (env : Bounds) : List Stmt → List Stmt
  | [] => []
  | s :: ss => simplifyBounds env s :: simplifyAllBounds env ss

end

end Stmt

/-- Simplifies the body of a function by the bounds that its worker gives. -/
def Function.simplifyBounds (f : Function) : Function :=
  { f with body := f.body.simplifyBounds (.ofWorker f.worker) }

/-- Folds the constants in the body of a function. -/
def Function.foldConstants (f : Function) : Function :=
  { f with body := f.body.fold }

end TensorCompiler
