import TensorCompiler.Expr.Basic

/-! # Statements

Statements are trees of imperative code. Like expressions they own their children.
-/

namespace TensorCompiler

/-- A statement. -/
inductive Stmt where
  /-- Evaluates an expression for its effects. -/
  | eval (e : Expr)
  /-- Assigns to a declared local variable. -/
  | assign (v : Var) (value : Expr)
  /-- Stores into an element of a buffer. -/
  | store (buf : Expr) (indices : List Expr) (value : Expr)
  /-- `value` under the name `v` for the duration of `body`. -/
  | letIn (v : Var) (value : Expr) (body : Stmt)
  /-- Runs `body` for each `v` from zero to below `extent`. The hint asks for or against unrolling. -/
  | forRange (v : Var) (extent : Expr) (unroll : Option Bool) (body : Stmt)
  | ite (cond : Expr) (thenS : Stmt) (elseS : Option Stmt)
  | assert (cond : Expr) (message : String)
  /-- Inline assembly; operands are paired with their constraints. -/
  | asm (template : String) (outputs inputs : List (String × Expr)) (volatile : Bool)
  /-- Text for the backend; each pair of braces in the template stands for the next expression. -/
  | raw (template : String) (args : List Expr)
  | ret (value : Option Expr)
  | seq (stmts : List Stmt)

instance : Inhabited Stmt := ⟨.seq []⟩

/-- A sequence; a single statement stands for itself. -/
def Stmt.block : List Stmt → Stmt
  | [s] => s
  | stmts => .seq stmts

end TensorCompiler
