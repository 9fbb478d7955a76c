import TensorCompiler.Expr.Folding
import TensorCompiler.Stmt.Traversal

/-! # Constant folding of statements

Branches on a literal keep the side that is taken, loops over nothing and assertions of the truth vanish, and
nested sequences are joined.
-/

namespace TensorCompiler.Stmt

mutual

/-- The statements of a statement with all nested sequences opened. -/
def flatten : Stmt → List Stmt
  | seq stmts => flattenAll stmts
  | s => [s]

/-- The statements of several statements with all nested sequences opened. -/
def flattenAll : List Stmt → List Stmt
  | [] => []
  | s :: ss => flatten s ++ flattenAll ss

end

variable [FloatOps]

/-- Whether a literal is a number that is not positive. -/
def isEmptyExtent (extent : Expr) : Bool :=
  match extent.value? with
  | some value => FloatOps.lt value.toFloat 0.0 || FloatOps.eq value.toFloat 0.0
  | none => false

/-- Simplifies a statement whose parts are simplified. -/
def foldNode : Stmt → Stmt
  | ite cond thenS elseS =>
    match cond.value? with
    | some value => if value.truthy then thenS else elseS.getD (seq [])
    | none => ite cond thenS elseS
  | forRange v extent unroll body =>
    if isEmptyExtent extent then seq [] else forRange v extent unroll body
  | assert cond message =>
    match cond.value? with
    | some value => if value.truthy then seq [] else assert cond message
    | none => assert cond message
  | seq stmts => block (flattenAll stmts)
  | s => s

/-- Simplifies a statement bottom-up, its expressions included. -/
def fold (s : Stmt) : Stmt :=
  s.map foldNode Expr.fold

end TensorCompiler.Stmt
