import TensorCompiler.Expr.Traversal
import TensorCompiler.Stmt.Basic

/-! # Walking and rebuilding statements

The direct sub-statements and expressions of a statement, the statements and expressions of a tree in
preorder, and `map`, which rebuilds a tree bottom-up with one function for its expressions and one for its
statements. `mapM` does so with the effects of the two functions.
-/

namespace TensorCompiler.Stmt

/-- The direct sub-statements. -/
def children : Stmt → List Stmt
  | letIn _ _ body | forRange _ _ _ body => [body]
  | ite _ thenS elseS => thenS :: elseS.toList
  | seq stmts => stmts
  | _ => []

/-- The expressions that the statement itself holds. -/
def exprs : Stmt → List Expr
  | eval e => [e]
  | assign _ value | letIn _ value _ => [value]
  | store buf indices value => buf :: indices ++ [value]
  | forRange _ extent _ _ => [extent]
  | ite cond _ _ | assert cond _ => [cond]
  | asm _ outputs inputs _ => outputs.map Prod.snd ++ inputs.map Prod.snd
  | raw _ args => args
  | ret value => value.toList
  | seq _ => []

mutual

/-- The statements of a tree, each before its sub-statements. -/
def preorder : Stmt → List Stmt
  | s@(letIn _ _ body) | s@(forRange _ _ _ body) => s :: preorder body
  | s@(ite _ thenS none) => s :: preorder thenS
  | s@(ite _ thenS (some elseS)) => s :: (preorder thenS ++ preorder elseS)
  | s@(seq stmts) => s :: preorderAll stmts
  | s => [s]

/-- The statements of several trees, one tree after the other. -/
def preorderAll : List Stmt → List Stmt
  | [] => []
  | s :: ss => preorder s ++ preorderAll ss

end

/-- The expression nodes that occur anywhere in the tree. -/
def exprNodes (s : Stmt) : List Expr :=
  s.preorder.flatMap fun t => t.exprs.flatMap Expr.preorder

/-- The statement with `f` applied to each expression that it holds itself. -/
def mapOwnExprs (f : Expr → Expr) : Stmt → Stmt
  | eval e => eval (f e)
  | assign v value => assign v (f value)
  | store buf indices value => store (f buf) (indices.map f) (f value)
  | letIn v value body => letIn v (f value) body
  | forRange v extent unroll body => forRange v (f extent) unroll body
  | ite cond thenS elseS => ite (f cond) thenS elseS
  | assert cond message => assert (f cond) message
  | asm template outputs inputs volatile =>
    asm template (outputs.map fun o => (o.1, f o.2)) (inputs.map fun i => (i.1, f i.2)) volatile
  | raw template args => raw template (args.map f)
  | ret value => ret (value.map f)
  | seq stmts => seq stmts

section

variable (fs : Stmt → Stmt) (fe : Expr → Expr)

mutual

/-- Rebuilds a tree bottom-up: expressions by `fe`, then sub-statements, then `fs` on the rebuilt
statement. -/
def map : Stmt → Stmt
  | letIn v value body => fs (letIn v (fe value) (map body))
  | forRange v extent unroll body => fs (forRange v (fe extent) unroll (map body))
  | ite cond thenS none => fs (ite (fe cond) (map thenS) none)
  | ite cond thenS (some elseS) => fs (ite (fe cond) (map thenS) (some (map elseS)))
  | seq stmts => fs (seq (mapAll stmts))
  | s => fs (s.mapOwnExprs fe)

/-- Rebuilds several trees. -/
def mapAll : List Stmt → List Stmt
  | [] => []
  | s :: ss => map s :: mapAll ss

end

end

/-! ## Effects -/

section

variable {m : Type → Type} [Monad m]

/-- The statement with each expression that it holds itself replaced by what `f` gives for it, one after the
other. -/
def mapOwnExprsM (f : Expr → m Expr) : Stmt → m Stmt
  | eval e => do
    let e ← f e
    pure (eval e)
  | assign v value => do
    let value ← f value
    pure (assign v value)
  | store buf indices value => do
    let buf ← f buf
    let indices ← indices.mapM f
    let value ← f value
    pure (store buf indices value)
  | letIn v value body => do
    let value ← f value
    pure (letIn v value body)
  | forRange v extent unroll body => do
    let extent ← f extent
    pure (forRange v extent unroll body)
  | ite cond thenS elseS => do
    let cond ← f cond
    pure (ite cond thenS elseS)
  | assert cond message => do
    let cond ← f cond
    pure (assert cond message)
  | asm template outputs inputs volatile => do
    let outputs ← outputs.mapM fun o => do
      let e ← f o.2
      pure (o.1, e)
    let inputs ← inputs.mapM fun i => do
      let e ← f i.2
      pure (i.1, e)
    pure (asm template outputs inputs volatile)
  | raw template args => do
    let args ← args.mapM f
    pure (raw template args)
  | ret none => pure (ret none)
  | ret (some value) => do
    let value ← f value
    pure (ret (some value))
  | seq stmts => pure (seq stmts)

variable (fs : Stmt → m Stmt) (fe : Expr → m Expr)

mutual

/-- Rebuilds a tree bottom-up, each statement in the order of `map`: its expressions, its sub-statements and
then the rebuilt statement. -/
def mapM : Stmt → m Stmt
  | letIn v value body => do
    let value ← fe value
    let body ← mapM body
    fs (letIn v value body)
  | forRange v extent unroll body => do
    let extent ← fe extent
    let body ← mapM body
    fs (forRange v extent unroll body)
  | ite cond thenS none => do
    let cond ← fe cond
    let thenS ← mapM thenS
    fs (ite cond thenS none)
  | ite cond thenS (some elseS) => do
    let cond ← fe cond
    let thenS ← mapM thenS
    let elseS ← mapM elseS
    fs (ite cond thenS (some elseS))
  | seq stmts => do
    let stmts ← mapAllM stmts
    fs (seq stmts)
  | s => do
    let s ← s.mapOwnExprsM fe
    fs s

/-- Rebuilds several trees, one after the other. -/
def mapAllM : List Stmt → m (List Stmt)
  | [] => pure []
  | s :: ss => do
    let s ← mapM s
    let ss ← mapAllM ss
    pure (s :: ss)

end

end

/-- The tree with every expression it holds replaced by its image. -/
def mapExprs (f : Expr → Expr) (s : Stmt) : Stmt :=
  s.map id f

/-- The number of statements of a tree that satisfy a test. -/
def count (test : Stmt → Bool) (s : Stmt) : Nat :=
  s.preorder.countP test

end TensorCompiler.Stmt
