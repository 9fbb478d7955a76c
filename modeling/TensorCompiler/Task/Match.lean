import TensorCompiler.Task.Pattern

/-! # Matching tasks against patterns

Pattern and task are walked together. A hole, a named node or a bound variable of the pattern binds to what
it meets first and must meet an equal thing every later time. Operands are matched in order; no operator is
taken to be commutative.
-/

namespace TensorCompiler

/-- Why a pattern declines a task. -/
inductive Mismatch where
  /-- The pattern is for a different worker. -/
  | worker
  /-- The definitions differ. -/
  | form
  /-- A parameter type differs from its template. -/
  | paramType
  /-- A required parameter is not a parameter of the task. -/
  | missingParam
  /-- The task has tensor parameters that the pattern does not allow. -/
  | extraParam
  deriving Repr, DecidableEq

/-- The mismatch in words. -/
def Mismatch.describe : Mismatch → String
  | .worker => "worker mismatch"
  | .form => "compute structure mismatch"
  | .paramType => "parameter type mismatch"
  | .missingParam => "required parameter not bound"
  | .extraParam => "unexpected extra tensor parameter"

/-- What the placeholders of a pattern stand for. -/
structure Binding where
  exprs : List (Hole × Expr) := []
  dtypes : List (Hole × DType) := []
  scopes : List (Hole × MemoryScope) := []
  tiles : List (Hole × RegisterTile) := []
  /-- The task nodes behind the named nodes of the pattern. -/
  nodes : List (String × Expr) := []
  /-- The task variables behind the bound variables of the pattern. -/
  vars : List (String × Var) := []
  /-- The task parameter behind each required parameter. -/
  params : List Nat := []

namespace Binding

/-- The expression that a pattern stands for: what a hole is bound to, or a pattern without open fields
itself. -/
def expr? (b : Binding) (pattern : Expr) : Option Expr :=
  match pattern with
  | .any hole => b.exprs.lookup hole
  | other => if other.isResolved then some other else none

/-- The integer that a pattern stands for. -/
def int? (b : Binding) (pattern : Expr) : Option Int64 :=
  (b.expr? pattern).bind Expr.int?

/-- The element type of a field that may be open. -/
def dtype? (b : Binding) : ScalarType → Option DType
  | .known dtype => some dtype
  | .hole id => b.dtypes.lookup id

/-- The scope of a field that may be open. -/
def scope? (b : Binding) : Slot MemoryScope → Option MemoryScope
  | .known scope => some scope
  | .hole id => b.scopes.lookup id

/-- The register tile of a register scope. -/
def tile? (b : Binding) : MemoryScope → Option RegisterTile
  | .register (.known tile) => some tile
  | .register (.hole id) => b.tiles.lookup id
  | _ => none

/-- The task node behind the pattern node of the given name. -/
def node? (b : Binding) (name : String) : Option Expr :=
  b.nodes.lookup name

/-- The task parameter behind the required parameter at a position. -/
def param? (b : Binding) (i : Nat) : Option Nat :=
  b.params[i]?

end Binding

/-- The entries with `key` bound to `value`: a free key is bound, a bound one must have an equal value. -/
def bindKey {κ α : Type} [BEq κ] (same : α → α → Bool) (entries : List (κ × α)) (key : κ) (value : α) :
    Except Mismatch (List (κ × α)) :=
  match entries.lookup key with
  | some bound => if same bound value then .ok entries else .error .form
  | none => .ok ((key, value) :: entries)

/-- Matching steps: each extends the binding or declines. -/
abbrev MatchM := StateT Binding (Except Mismatch)

namespace MatchM

/-- Declines unless a condition holds. -/
def check (condition : Bool) : MatchM Unit :=
  if condition then pure () else throw .form

def bindExpr (hole : Hole) (e : Expr) : MatchM Unit := do
  let b ← get
  let exprs ← bindKey Expr.same b.exprs hole e
  set { b with exprs }

def bindDType (hole : Hole) (dtype : DType) : MatchM Unit := do
  let b ← get
  let dtypes ← bindKey (· == ·) b.dtypes hole dtype
  set { b with dtypes }

def bindScope (hole : Hole) (scope : MemoryScope) : MatchM Unit := do
  let b ← get
  let scopes ← bindKey (· == ·) b.scopes hole scope
  set { b with scopes }

def bindTile (hole : Hole) (tile : RegisterTile) : MatchM Unit := do
  let b ← get
  let tiles ← bindKey (· == ·) b.tiles hole tile
  set { b with tiles }

def bindNode (name : String) (node : Expr) : MatchM Unit := do
  let b ← get
  let nodes ← bindKey Expr.same b.nodes name node
  set { b with nodes }

def bindVar (name : String) (v : Var) : MatchM Unit := do
  let b ← get
  let vars ← bindKey Var.same b.vars name v
  set { b with vars }

def bindParam (index : Nat) : MatchM Unit :=
  modify fun b => { b with params := b.params ++ [index] }

end MatchM

open MatchM

/-- Matches an element type. An open element type of the task matches nothing. -/
def matchDType : ScalarType → ScalarType → MatchM Unit
  | .hole id, .known dtype => bindDType id dtype
  | .known a, .known b => check (a == b)
  | _, .hole _ => throw .form

/-- Matches bound variables one by one. -/
def matchAxes : List Var → List Var → MatchM Unit
  | [], [] => pure ()
  | p :: ps, t :: ts => do
    bindVar p.name t
    matchAxes ps ts
  | _, _ => throw .form

/-- Matches an occurrence of a variable: a bound one by the name it is bound to, a free one literally. -/
def matchVar (p t : Var) : MatchM Unit := do
  match (← get).vars.lookup p.name with
  | some bound => check (bound.name == t.name)
  | none => check (p.same t)

/-- Matches a memory scope. -/
def matchScope (p : Slot MemoryScope) (t : Slot MemoryScope) : MatchM Unit :=
  match t with
  | .hole _ => throw .paramType
  | .known scope =>
    match p with
    | .hole id => bindScope id scope
    | .known (.register (.hole id)) =>
      match scope with
      | .register (.known tile) => bindTile id tile
      | _ => throw .paramType
    | .known expected => check (expected == scope)

mutual

/-- Matches an expression of the pattern against one of the task. -/
def matchExpr (p t : Expr) : MatchM Unit :=
  match p with
  | .any hole => bindExpr hole t
  | .anyCompute rank allowReduce =>
    match t with
    | .compute _ _ axes value => do
      check (rank.isNone || rank == some axes.length)
      check (allowReduce || !value.hasReduction)
    | _ => throw .form
  | .anyReduce kind =>
    match t with
    | .reduce kind' _ _ _ => check (kind.isNone || kind == some kind')
    | _ => throw .form
  | .var v =>
    match t with
    | .var w => matchVar v w
    | _ => throw .form
  | .const value dtype =>
    match t with
    | .const value' dtype' => check (value.same value' && dtype == dtype')
    | _ => throw .form
  | .unary op a =>
    match t with
    | .unary op' b => do
      check (op == op')
      matchExpr a b
    | _ => throw .form
  | .binary op a b =>
    match t with
    | .binary op' a' b' => do
      check (op == op')
      matchExpr a a'
      matchExpr b b'
    | _ => throw .form
  | .letIn v value body =>
    match t with
    | .letIn v' value' body' => do
      matchExpr value value'
      bindVar v.name v'
      matchExpr body body'
    | _ => throw .form
  | .ite cond thenE elseE =>
    match t with
    | .ite cond' thenE' elseE' => do
      matchExpr cond cond'
      matchExpr thenE thenE'
      matchExpr elseE elseE'
    | _ => throw .form
  | .element base indices =>
    match t with
    | .element base' indices' => do
      matchExpr base base'
      matchExprs indices indices'
    | _ => throw .form
  | .call func args =>
    match t with
    | .call func' args' => do
      check (func == func')
      matchExprs args args'
    | _ => throw .form
  | .cast target arg =>
    match t with
    | .cast target' arg' => do
      matchTy target target'
      matchExpr arg arg'
    | _ => throw .form
  | .deref a =>
    match t with
    | .deref b => matchExpr a b
    | _ => throw .form
  | .addr a =>
    match t with
    | .addr b => matchExpr a b
    | _ => throw .form
  | .ref a =>
    match t with
    | .ref b => matchExpr a b
    | _ => throw .form
  | .scalarInput name dtype =>
    match t with
    | .scalarInput _ dtype' => do
      matchDType dtype dtype'
      bindNode name t
    | _ => throw .form
  | .tensorInput name dtype shape =>
    match t with
    | .tensorInput _ dtype' shape' => do
      matchDType dtype dtype'
      matchShape shape shape'
      bindNode name t
    | _ => throw .form
  | .compute name shape axes value =>
    match t with
    | .compute _ shape' axes' value' => do
      matchExprs shape shape'
      matchAxes axes axes'
      matchExpr value value'
      bindNode name t
    | _ => throw .form
  | .reduce kind shape axes value =>
    match t with
    | .reduce kind' shape' axes' value' => do
      check (kind == kind')
      matchExprs shape shape'
      matchAxes axes axes'
      matchExpr value value'
    | _ => throw .form

/-- Matches expressions one by one, after their numbers are known to agree. -/
def matchExprs (ps ts : List Expr) : MatchM Unit :=
  if ps.length == ts.length then matchEach ps ts else throw .form

/-- Matches expressions one by one up to the shorter end. -/
def matchEach : List Expr → List Expr → MatchM Unit
  | p :: ps, t :: ts => do
    matchExpr p t
    matchEach ps ts
  | _, _ => pure ()

/-- Matches a shape that may be open; an open one of the pattern matches any. -/
def matchShape : Option (List Expr) → Option (List Expr) → MatchM Unit
  | none, _ => pure ()
  | some ps, some ts => matchExprs ps ts
  | some _, none => throw .form

/-- Matches a type. -/
def matchTy (p t : Ty) : MatchM Unit :=
  match p with
  | .scalar a =>
    match t with
    | .scalar b => matchDType a b
    | _ => throw .form
  | .tensor a =>
    match t with
    | .tensor b => matchTensorType a b
    | _ => throw .form
  | .tensorPointer a =>
    match t with
    | .tensorPointer b => matchTensorType a b
    | _ => throw .form
  | .pointer a =>
    match t with
    | .pointer b => matchTy a b
    | _ => throw .form
  | .reference a =>
    match t with
    | .reference b => matchTy a b
    | _ => throw .form
  | .void =>
    match t with
    | .void => pure ()
    | _ => throw .form

/-- Matches a tensor type. Declared strides of the pattern are matched against the effective ones. -/
def matchTensorType : TensorType → TensorType → MatchM Unit
  | ⟨scope, dtype, shape, strides⟩, t => do
    matchScope scope t.scope
    matchDType dtype t.dtype
    matchShape shape t.shape
    match strides with
    | none => pure ()
    | some expected =>
      match t.effectiveStrides? with
      | none => throw .form
      | some actual => matchExprs expected actual

end

/-- Matches one required parameter: its node must be bound, be a parameter of the task and have a type of
the template. -/
def matchParam (task : Task) (param : Expr) (template : Ty) : MatchM Unit := do
  let b ← get
  match param.nodeName?.bind b.node? with
  | none => throw .missingParam
  | some node =>
    match task.paramIndex? node with
    | none => throw .missingParam
    | some index =>
      match task.paramTypes[index]? with
      | none => throw .missingParam
      | some actual =>
        match (matchTy template actual).run b with
        | .error _ => throw .paramType
        | .ok (_, extended) => do
          set extended
          bindParam index

/-- Whether a type is that of a tensor or of a pointer to one. -/
def Ty.isTensorLike : Ty → Bool
  | .tensor _ | .tensorPointer _ => true
  | _ => false

/-- Whether a task has a tensor parameter that is not among the given positions. -/
def Task.hasOtherTensors (task : Task) (params : List Nat) : Bool :=
  task.paramTypes.zipIdx.any fun (ty, i) => ty.isTensorLike && !params.contains i

/-- The binding under which a task is an instance of a pattern. -/
def matchTask (pattern : TaskPattern) (task : Task) : Except Mismatch Binding :=
  if !pattern.worker.accepts task.worker then .error .worker
  else do
    let steps : MatchM Unit := do
      matchExpr pattern.computation task.computation.toExpr
      (pattern.requiredParams.zip pattern.requiredTypes).forM fun (param, template) =>
        matchParam task param template
    let (_, b) ← steps.run {}
    if !pattern.allowExtraTensors && task.hasOtherTensors b.params then .error .extraParam
    else .ok b

end TensorCompiler
