import TensorCompiler.Expr.Basic

/-! # Walking and rebuilding expressions

The direct sub-expressions of a node, the nodes of a tree in preorder, and the two ways to rebuild a tree:
`mapChildrenM` replaces the direct sub-expressions and `mapBottomUpM` replaces every node bottom-up, each with the
effects of the replacement in that order. The types of variables and casts are not part of the tree that is
walked.
-/

namespace TensorCompiler.Expr

/-- The direct sub-expressions, in evaluation order. -/
def children : Expr → List Expr
  | unary _ arg | cast _ arg | deref arg | addr arg | ref arg => [arg]
  | binary _ lhs rhs => [lhs, rhs]
  | letIn _ value body => [value, body]
  | ite cond thenE elseE => [cond, thenE, elseE]
  | element base indices => base :: indices
  | call _ args => args
  | tensorInput _ _ shape => shape.getD []
  | compute _ shape _ value | reduce _ shape _ value => shape ++ [value]
  | var _ | const .. | scalarInput .. | any _ | anyCompute .. | anyReduce _ => []

mutual

/-- The nodes of a tree, each before its sub-expressions. -/
def preorder : Expr → List Expr
  | e@(unary _ arg) | e@(cast _ arg) | e@(deref arg) | e@(addr arg) | e@(ref arg) => e :: preorder arg
  | e@(binary _ lhs rhs) => e :: (preorder lhs ++ preorder rhs)
  | e@(letIn _ value body) => e :: (preorder value ++ preorder body)
  | e@(ite cond thenE elseE) => e :: (preorder cond ++ (preorder thenE ++ preorder elseE))
  | e@(element base indices) => e :: (preorder base ++ preorderAll indices)
  | e@(call _ args) => e :: preorderAll args
  | e@(tensorInput _ _ (some shape)) => e :: preorderAll shape
  | e@(compute _ shape _ value) | e@(reduce _ shape _ value) => e :: (preorderAll shape ++ preorder value)
  | e => [e]

/-- The nodes of several trees, one tree after the other. -/
def preorderAll : List Expr → List Expr
  | [] => []
  | e :: es => preorder e ++ preorderAll es

end

/-- The node with `f` applied to each direct sub-expression. -/
def mapChildren (f : Expr → Expr) : Expr → Expr
  | unary op arg => unary op (f arg)
  | cast target arg => cast target (f arg)
  | deref arg => deref (f arg)
  | addr arg => addr (f arg)
  | ref arg => ref (f arg)
  | binary op lhs rhs => binary op (f lhs) (f rhs)
  | letIn v value body => letIn v (f value) (f body)
  | ite cond thenE elseE => ite (f cond) (f thenE) (f elseE)
  | element base indices => element (f base) (indices.map f)
  | call func args => call func (args.map f)
  | tensorInput name dtype shape => tensorInput name dtype (shape.map (List.map f))
  | compute name shape axes value => compute name (shape.map f) axes (f value)
  | reduce kind shape axes value => reduce kind (shape.map f) axes (f value)
  | e => e

section

variable {m : Type → Type} [Monad m] (f : Expr → m Expr)

/-- The node with each direct sub-expression replaced by what `f` gives for it, one after the other. -/
def mapChildrenM : Expr → m Expr
  | unary op arg => do
    let arg ← f arg
    pure (unary op arg)
  | cast target arg => do
    let arg ← f arg
    pure (cast target arg)
  | deref arg => do
    let arg ← f arg
    pure (deref arg)
  | addr arg => do
    let arg ← f arg
    pure (addr arg)
  | ref arg => do
    let arg ← f arg
    pure (ref arg)
  | binary op lhs rhs => do
    let lhs ← f lhs
    let rhs ← f rhs
    pure (binary op lhs rhs)
  | letIn v value body => do
    let value ← f value
    let body ← f body
    pure (letIn v value body)
  | ite cond thenE elseE => do
    let cond ← f cond
    let thenE ← f thenE
    let elseE ← f elseE
    pure (ite cond thenE elseE)
  | element base indices => do
    let base ← f base
    let indices ← indices.mapM f
    pure (element base indices)
  | call func args => do
    let args ← args.mapM f
    pure (call func args)
  | tensorInput name dtype (some shape) => do
    let shape ← shape.mapM f
    pure (tensorInput name dtype (some shape))
  | compute name shape axes value => do
    let shape ← shape.mapM f
    let value ← f value
    pure (compute name shape axes value)
  | reduce kind shape axes value => do
    let shape ← shape.mapM f
    let value ← f value
    pure (reduce kind shape axes value)
  | e => pure e

mutual

/-- Rebuilds a tree bottom-up: the sub-expressions first, in order, then `f` on the rebuilt node. -/
def mapBottomUpM : Expr → m Expr
  | unary op arg => do
    let arg ← mapBottomUpM arg
    f (unary op arg)
  | cast target arg => do
    let arg ← mapBottomUpM arg
    f (cast target arg)
  | deref arg => do
    let arg ← mapBottomUpM arg
    f (deref arg)
  | addr arg => do
    let arg ← mapBottomUpM arg
    f (addr arg)
  | ref arg => do
    let arg ← mapBottomUpM arg
    f (ref arg)
  | binary op lhs rhs => do
    let lhs ← mapBottomUpM lhs
    let rhs ← mapBottomUpM rhs
    f (binary op lhs rhs)
  | letIn v value body => do
    let value ← mapBottomUpM value
    let body ← mapBottomUpM body
    f (letIn v value body)
  | ite cond thenE elseE => do
    let cond ← mapBottomUpM cond
    let thenE ← mapBottomUpM thenE
    let elseE ← mapBottomUpM elseE
    f (ite cond thenE elseE)
  | element base indices => do
    let base ← mapBottomUpM base
    let indices ← mapBottomUpAllM indices
    f (element base indices)
  | call func args => do
    let args ← mapBottomUpAllM args
    f (call func args)
  | tensorInput name dtype (some shape) => do
    let shape ← mapBottomUpAllM shape
    f (tensorInput name dtype (some shape))
  | compute name shape axes value => do
    let shape ← mapBottomUpAllM shape
    let value ← mapBottomUpM value
    f (compute name shape axes value)
  | reduce kind shape axes value => do
    let shape ← mapBottomUpAllM shape
    let value ← mapBottomUpM value
    f (reduce kind shape axes value)
  | e => f e

/-- Rebuilds several trees, one after the other. -/
def mapBottomUpAllM : List Expr → m (List Expr)
  | [] => pure []
  | e :: es => do
    let e ← mapBottomUpM e
    let es ← mapBottomUpAllM es
    pure (e :: es)

end

end

/-- Rebuilds a tree bottom-up with a replacement that has no effects. -/
def mapBottomUp (f : Expr → Expr) (e : Expr) : Expr :=
  Id.run (mapBottomUpM (fun node => pure (f node)) e)

/-- The nodes that a bottom-up rebuild meets, in its order. -/
def postorder (e : Expr) : List Expr :=
  (StateT.run (mapBottomUpM (m := StateT (List Expr) Id)
    (fun node => do modify (· ++ [node]); pure node) e) []).2

/-- Replaces variables by name, all at once. Names bound inside the expression are assumed to differ from
the free names of the replacements. -/
def substitute (map : List (String × Expr)) (e : Expr) : Expr :=
  e.mapBottomUp fun node =>
    match node with
    | var v => (map.lookup v.name).getD (var v)
    | other => other

/-- Whether the tree holds a reduction. -/
def hasReduction (e : Expr) : Bool :=
  e.preorder.any fun node =>
    match node with
    | reduce .. => true
    | _ => false

end TensorCompiler.Expr

namespace TensorCompiler

/-- The distinct members of a list in the order of their first occurrence. -/
def firstOccurrences {α : Type} [BEq α] (items : List α) : List α :=
  items.foldl (fun seen item => if seen.contains item then seen else seen ++ [item]) []

namespace TensorCompute

/-- Whether the value holds a reduction. -/
def hasReduction (c : TensorCompute) : Bool :=
  c.value.hasReduction

/-- The names of the tensors that the value reads, in the order of their first use. -/
def inputNames (c : TensorCompute) : List String :=
  firstOccurrences <| c.value.preorder.filterMap fun node =>
    match node with
    | .tensorInput name _ _ => some name
    | _ => none

end TensorCompute

/-! ## Resolution -/

mutual

/-- Whether no part of the tree is a pattern node or carries an open field. -/
def Expr.isResolved : Expr → Bool
  | .var ⟨_, ty⟩ => ty.isResolved
  | .const .. => true
  | .unary _ arg | .deref arg | .addr arg | .ref arg => arg.isResolved
  | .binary _ lhs rhs => lhs.isResolved && rhs.isResolved
  | .letIn _ value body => value.isResolved && body.isResolved
  | .ite cond thenE elseE => cond.isResolved && thenE.isResolved && elseE.isResolved
  | .element base indices => base.isResolved && Expr.allResolved indices
  | .call _ args => Expr.allResolved args
  | .cast target arg => target.isResolved && arg.isResolved
  | .scalarInput _ dtype => dtype.isResolved
  | .tensorInput _ dtype (some shape) => dtype.isResolved && Expr.allResolved shape
  | .tensorInput _ _ none => false
  | .compute _ shape _ value | .reduce _ shape _ value => Expr.allResolved shape && value.isResolved
  | .any _ | .anyCompute .. | .anyReduce _ => false

/-- Whether every tree of a list is resolved. -/
def Expr.allResolved : List Expr → Bool
  | [] => true
  | e :: es => e.isResolved && Expr.allResolved es

/-- Whether a tensor type has a known scope, element type and shape, and no open field in its extents and
strides. -/
def TensorType.isResolved : TensorType → Bool
  | ⟨.known scope, .known _, some shape, none⟩ => scope.isResolved && Expr.allResolved shape
  | ⟨.known scope, .known _, some shape, some strides⟩ =>
    scope.isResolved && Expr.allResolved shape && Expr.allResolved strides
  | _ => false

/-- Whether no field of the type is open. -/
def Ty.isResolved : Ty → Bool
  | .scalar dtype => dtype.isResolved
  | .tensor type | .tensorPointer type => type.isResolved
  | .pointer base | .reference base => base.isResolved
  | .void => true

end

end TensorCompiler
