import Mathlib.Data.List.Nodup
import TensorCompiler.Task.Match

/-! # Instances of patterns

Under a binding an expression is an instance of a pattern if it is what the pattern becomes when each hole and each named
node stands for what the binding gives it, the pattern nodes stand for any node of their kind, and the variables that
`compute`, `reduce` and `let` bind are renamed. A variable is known by its name. Renaming keeps what binds it: a scope
pairs the variables bound around a place of the pattern with those bound around the same place of the task, the innermost
first, and an occurrence is renamed to the partner of the variable that binds it.
-/

namespace TensorCompiler

/-! ## Scopes -/

/-- What is asked of the variables of an expression. Both conditions are told the names bound around a place, the innermost
first. -/
structure ScopeRule where
  /-- The condition on the name of a variable that occurs. -/
  occurs : List String → String → Prop
  /-- The condition on the names that are bound together. -/
  binds : List String → List String → Prop

mutual

/-- Whether the variables of an expression, those in the types of its casts among them, obey a rule. -/
def Expr.Scoped (rule : ScopeRule) (scope : List String) : Expr → Prop
  | .var v => rule.occurs scope v.name
  | .unary _ arg | .deref arg | .addr arg | .ref arg => arg.Scoped rule scope
  | .binary _ lhs rhs => lhs.Scoped rule scope ∧ rhs.Scoped rule scope
  | .letIn v value body => value.Scoped rule scope ∧ rule.binds scope [v.name] ∧ body.Scoped rule (v.name :: scope)
  | .ite cond thenE elseE => cond.Scoped rule scope ∧ thenE.Scoped rule scope ∧ elseE.Scoped rule scope
  | .element base indices => base.Scoped rule scope ∧ Expr.AllScoped rule scope indices
  | .call _ args => Expr.AllScoped rule scope args
  | .cast target arg => target.Scoped rule scope ∧ arg.Scoped rule scope
  | .tensorInput _ _ shape => Expr.ShapeScoped rule scope shape
  | .compute _ shape axes value | .reduce _ shape axes value =>
    Expr.AllScoped rule scope shape ∧ rule.binds scope (axes.map Var.name) ∧
      value.Scoped rule ((axes.map Var.name).reverse ++ scope)
  | .const .. | .scalarInput .. | .any _ | .anyCompute .. | .anyReduce _ => True

def Expr.AllScoped (rule : ScopeRule) (scope : List String) : List Expr → Prop
  | [] => True
  | e :: es => e.Scoped rule scope ∧ Expr.AllScoped rule scope es

def Expr.ShapeScoped (rule : ScopeRule) (scope : List String) : Option (List Expr) → Prop
  | none => True
  | some es => Expr.AllScoped rule scope es

def TensorType.Scoped (rule : ScopeRule) (scope : List String) : TensorType → Prop
  | ⟨_, _, shape, strides⟩ => Expr.ShapeScoped rule scope shape ∧ Expr.ShapeScoped rule scope strides

def Ty.Scoped (rule : ScopeRule) (scope : List String) : Ty → Prop
  | .tensor type | .tensorPointer type => type.Scoped rule scope
  | .pointer base | .reference base => base.Scoped rule scope
  | .scalar _ | .void => True

end

namespace ScopeRule

/-- No variable occurs free. -/
def closed : ScopeRule where
  occurs scope name := name ∈ scope
  binds _ _ := True

/-- No variable shadows another. -/
def unshadowed : ScopeRule where
  occurs _ _ := True
  binds scope names := names.Nodup ∧ names.Disjoint scope

end ScopeRule

/-- Whether no variable occurs free in a pattern. -/
structure TaskPattern.Closed (pattern : TaskPattern) : Prop where
  computation : pattern.computation.Scoped .closed []
  requiredTypes : ∀ type ∈ pattern.requiredTypes, type.Scoped .closed []

/-- Whether no variable that a task binds shadows another. -/
structure Task.Unshadowed (task : Task) : Prop where
  computation : task.computation.toExpr.Scoped .unshadowed []
  paramTypes : ∀ type ∈ task.paramTypes, type.Scoped .unshadowed []

/-! ## Instances -/

/-- The names bound around a place of a pattern, each with the name bound around the same place of a task. -/
abbrev Renaming := List (String × String)

namespace Renaming

/-- Whether the variables of two names are bound by partners. -/
inductive Renames : Renaming → String → String → Prop
  | here {v w : String} {scope : Renaming} : Renames ((v, w) :: scope) v w
  | there {v w p q : String} {scope : Renaming} (hv : v ≠ p) (hw : w ≠ q) (h : Renames scope v w) :
    Renames ((p, q) :: scope) v w

/-- The scope inside of what binds the given variables. -/
def enter (scope : Renaming) (axes axes' : List Var) : Renaming :=
  ((axes.map Var.name).zip (axes'.map Var.name)).reverse ++ scope

end Renaming

/-- Whether a placeholder stands for an expression: it is bound to the expression, or to an equal one. -/
def StandsFor (bound : Option Expr) (e : Expr) : Prop :=
  ∃ x, bound = some x ∧ (x = e ∨ x.same e)

namespace Binding

variable (b : Binding)

/-- Whether an element type is the one that a field of a pattern stands for. -/
def IsDType (p t : ScalarType) : Prop :=
  ∃ dtype, b.dtype? p = some dtype ∧ t = .known dtype

/-- Whether a memory scope is the one that a field of a pattern stands for. -/
inductive IsScope : Slot MemoryScope → Slot MemoryScope → Prop
  | hole {id : Hole} {scope : MemoryScope} (h : b.scopes.lookup id = some scope) : IsScope (.hole id) (.known scope)
  | tile {id : Hole} {tile : RegisterTile} (h : b.tiles.lookup id = some tile) :
    IsScope (.known (.register (.hole id))) (.known (.register (.known tile)))
  | known {scope : MemoryScope} (h : ∀ id, scope ≠ .register (.hole id)) : IsScope (.known scope) (.known scope)

/-- Whether variables that a pattern binds are bound to those of a task. -/
def RenamesAll (axes axes' : List Var) : Prop :=
  List.Forall₂ (fun v w => ∃ u, b.vars.lookup v.name = some u ∧ u.name = w.name) axes axes'

end Binding

mutual

/-- Whether an expression of a task is an instance of a pattern under a binding. -/
inductive Expr.Instance (b : Binding) : Renaming → Expr → Expr → Prop
  | any {scope hole t} (h : StandsFor (b.exprs.lookup hole) t) : Expr.Instance b scope (.any hole) t
  | anyCompute {scope rank allowReduce name shape axes value} (hrank : ∀ n, rank = some n → axes.length = n)
    (hreduce : allowReduce = false → value.hasReduction = false) :
    Expr.Instance b scope (.anyCompute rank allowReduce) (.compute name shape axes value)
  | anyReduce {scope kind kind' shape axes value} (hkind : ∀ k, kind = some k → kind' = k) :
    Expr.Instance b scope (.anyReduce kind) (.reduce kind' shape axes value)
  | var {scope v w} (h : scope.Renames v.name w.name) : Expr.Instance b scope (.var v) (.var w)
  | const {scope value value' dtype} (h : value.same value') :
    Expr.Instance b scope (.const value dtype) (.const value' dtype)
  | unary {scope op arg arg'} (harg : Expr.Instance b scope arg arg') :
    Expr.Instance b scope (.unary op arg) (.unary op arg')
  | binary {scope op lhs lhs' rhs rhs'} (hlhs : Expr.Instance b scope lhs lhs') (hrhs : Expr.Instance b scope rhs rhs') :
    Expr.Instance b scope (.binary op lhs rhs) (.binary op lhs' rhs')
  | letIn {scope v v' value value' body body'} (hvalue : Expr.Instance b scope value value')
    (hv : b.RenamesAll [v] [v']) (hbody : Expr.Instance b (scope.enter [v] [v']) body body') :
    Expr.Instance b scope (.letIn v value body) (.letIn v' value' body')
  | ite {scope cond cond' thenE thenE' elseE elseE'} (hcond : Expr.Instance b scope cond cond')
    (hthen : Expr.Instance b scope thenE thenE') (helse : Expr.Instance b scope elseE elseE') :
    Expr.Instance b scope (.ite cond thenE elseE) (.ite cond' thenE' elseE')
  | element {scope base base' indices indices'} (hbase : Expr.Instance b scope base base')
    (hindices : Expr.Instances b scope indices indices') :
    Expr.Instance b scope (.element base indices) (.element base' indices')
  | call {scope func args args'} (hargs : Expr.Instances b scope args args') :
    Expr.Instance b scope (.call func args) (.call func args')
  | cast {scope target target' arg arg'} (htarget : Ty.Instance b scope target target')
    (harg : Expr.Instance b scope arg arg') : Expr.Instance b scope (.cast target arg) (.cast target' arg')
  | deref {scope arg arg'} (harg : Expr.Instance b scope arg arg') : Expr.Instance b scope (.deref arg) (.deref arg')
  | addr {scope arg arg'} (harg : Expr.Instance b scope arg arg') : Expr.Instance b scope (.addr arg) (.addr arg')
  | ref {scope arg arg'} (harg : Expr.Instance b scope arg arg') : Expr.Instance b scope (.ref arg) (.ref arg')
  | scalarInput {scope name name' dtype dtype'} (hdtype : b.IsDType dtype dtype')
    (hnode : StandsFor (b.node? name) (.scalarInput name' dtype')) :
    Expr.Instance b scope (.scalarInput name dtype) (.scalarInput name' dtype')
  | tensorInput {scope name name' dtype dtype' shape shape'} (hdtype : b.IsDType dtype dtype')
    (hshape : Expr.ShapeInstance b scope shape shape')
    (hnode : StandsFor (b.node? name) (.tensorInput name' dtype' shape')) :
    Expr.Instance b scope (.tensorInput name dtype shape) (.tensorInput name' dtype' shape')
  | compute {scope name name' shape shape' axes axes' value value'} (hshape : Expr.Instances b scope shape shape')
    (haxes : b.RenamesAll axes axes') (hvalue : Expr.Instance b (scope.enter axes axes') value value')
    (hnode : StandsFor (b.node? name) (.compute name' shape' axes' value')) :
    Expr.Instance b scope (.compute name shape axes value) (.compute name' shape' axes' value')
  | reduce {scope kind shape shape' axes axes' value value'} (hshape : Expr.Instances b scope shape shape')
    (haxes : b.RenamesAll axes axes') (hvalue : Expr.Instance b (scope.enter axes axes') value value') :
    Expr.Instance b scope (.reduce kind shape axes value) (.reduce kind shape' axes' value')

/-- Whether expressions are, one by one, instances of patterns. -/
inductive Expr.Instances (b : Binding) : Renaming → List Expr → List Expr → Prop
  | nil {scope} : Expr.Instances b scope [] []
  | cons {scope p t ps ts} (h : Expr.Instance b scope p t) (hs : Expr.Instances b scope ps ts) :
    Expr.Instances b scope (p :: ps) (t :: ts)

/-- Whether a shape is an instance of a pattern, where an open one stands for any. -/
inductive Expr.ShapeInstance (b : Binding) : Renaming → Option (List Expr) → Option (List Expr) → Prop
  | opened {scope shape} : Expr.ShapeInstance b scope none shape
  | known {scope ps ts} (h : Expr.Instances b scope ps ts) : Expr.ShapeInstance b scope (some ps) (some ts)

/-- Whether a type is an instance of a template. -/
inductive Ty.Instance (b : Binding) : Renaming → Ty → Ty → Prop
  | scalar {scope dtype dtype'} (h : b.IsDType dtype dtype') : Ty.Instance b scope (.scalar dtype) (.scalar dtype')
  | tensor {scope type type'} (h : TensorType.Instance b scope type type') :
    Ty.Instance b scope (.tensor type) (.tensor type')
  | tensorPointer {scope type type'} (h : TensorType.Instance b scope type type') :
    Ty.Instance b scope (.tensorPointer type) (.tensorPointer type')
  | pointer {scope base base'} (h : Ty.Instance b scope base base') :
    Ty.Instance b scope (.pointer base) (.pointer base')
  | reference {scope base base'} (h : Ty.Instance b scope base base') :
    Ty.Instance b scope (.reference base) (.reference base')
  | void {scope} : Ty.Instance b scope .void .void

/-- Whether a tensor type is an instance of a template; strides that the template declares are those in effect. -/
inductive TensorType.Instance (b : Binding) : Renaming → TensorType → TensorType → Prop
  | mk {scope p t} (hscope : b.IsScope p.scope t.scope) (hdtype : b.IsDType p.dtype t.dtype)
    (hshape : Expr.ShapeInstance b scope p.shape t.shape)
    (hstrides : Expr.ShapeInstance b scope p.strides t.effectiveStrides?) : TensorType.Instance b scope p t

end

/-- Whether a binding makes a task an instance of a pattern. -/
structure Binding.Instantiates (b : Binding) (pattern : TaskPattern) (task : Task) : Prop where
  worker : pattern.worker.accepts task.worker
  computation : Expr.Instance b [] pattern.computation task.computation.toExpr
  /-- Each required parameter is a parameter of the task, of a type that is an instance of the template. -/
  params : ∀ i param template, pattern.requiredParams[i]? = some param → pattern.requiredTypes[i]? = some template →
    ∃ name node index given type, param.nodeName? = some name ∧ b.node? name = some node ∧ b.param? i = some index ∧
      task.params[index]? = some given ∧ given.same node ∧
      task.paramTypes[index]? = some type ∧ Ty.Instance b [] template type
  /-- Without leave for more, each parameter that is a tensor is a required one. -/
  tensors : pattern.allowExtraTensors = false → ∀ index type, task.paramTypes[index]? = some type → type.isTensorLike →
    ∃ i param, pattern.requiredParams[i]? = some param ∧ b.param? i = some index

end TensorCompiler
