import TensorCompiler.Stmt.Basic

/-! # Building nested statements

A `StmtBuilder` holds the scopes that are open, innermost first, each with the statements that it has
collected. Entering opens a scope; leaving wraps what it collected and hands the result to the scope around
it.
-/

namespace TensorCompiler

/-- The head of an open scope. -/
inductive Scope where
  | letIn (v : Var) (value : Expr)
  | forRange (v : Var) (extent : Expr) (unroll : Option Bool)
  | ifThen (cond : Expr)

/-- The statement of a scope with the given body. -/
def Scope.wrap (scope : Scope) (body : Stmt) : Stmt :=
  match scope with
  | letIn v value => .letIn v value body
  | forRange v extent unroll => .forRange v extent unroll body
  | ifThen cond => .ite cond body none

/-- Open scopes, innermost first, and the statements collected outside of all of them. -/
structure StmtBuilder where
  scopes : List (Scope × List Stmt) := []
  root : List Stmt := []

namespace StmtBuilder

/-- Adds a statement to the innermost scope. -/
def append (b : StmtBuilder) (s : Stmt) : StmtBuilder :=
  match b.scopes with
  | [] => { b with root := b.root ++ [s] }
  | (scope, body) :: outer => { b with scopes := (scope, body ++ [s]) :: outer }

/-- Adds several statements to the innermost scope. -/
def appendAll (b : StmtBuilder) (stmts : List Stmt) : StmtBuilder :=
  stmts.foldl append b

/-- Opens a scope. -/
def enter (b : StmtBuilder) (scope : Scope) : StmtBuilder :=
  { b with scopes := (scope, []) :: b.scopes }

/-- Closes the innermost scope; outside of all scopes it does nothing. -/
def leave (b : StmtBuilder) : StmtBuilder :=
  match b.scopes with
  | [] => b
  | (scope, body) :: outer => { b with scopes := outer }.append (scope.wrap (Stmt.block body))

/-- Closes open scopes, as many as the first argument says. -/
def leaveTimes : Nat → StmtBuilder → StmtBuilder
  | 0, b => b
  | n + 1, b => leaveTimes n b.leave

/-- Closes every open scope and gives the statement built. -/
def finish (b : StmtBuilder) : Stmt :=
  Stmt.block (leaveTimes b.scopes.length b).root

end StmtBuilder

end TensorCompiler
