import TensorCompiler.Codegen.GridKernel

/-! # What a builder builds

Scopes that are entered one after the other, filled and left again nest: the statement that is left is the one in the
innermost scope, wrapped in the scopes from the inside out. So the body of a kernel is a nest of bindings around its
statements, and the loops of a reduction are a nest around the step of its accumulator.
-/

namespace TensorCompiler

namespace Stmt

/-- A statement inside loops over the given axes, the first one outermost. -/
def loops (axes : List Var) (extents : List Expr) (body : Stmt) : Stmt :=
  (axes.zip extents).foldr (fun entry inner => .forRange entry.1 entry.2 none inner) body

/-- A statement inside bindings of the given variables, the first one outermost. -/
def lets (vars : List Var) (values : List Expr) (body : Stmt) : Stmt :=
  (vars.zip values).foldr (fun entry inner => .letIn entry.1 entry.2 inner) body

/-- Statements inside loops over the given axes; without loops they stay as they are. -/
def nest (axes : List Var) (extents : List Expr) (stmts : List Stmt) : List Stmt :=
  if (axes.zip extents).isEmpty then stmts else [loops axes extents (.block stmts)]

theorem nest_singleton (axes : List Var) (extents : List Expr) (stmt : Stmt) :
    nest axes extents [stmt] = [loops axes extents stmt] := by
  simp only [nest, loops]
  cases axes.zip extents with
  | nil => rfl
  | cons entry entries => rfl

end Stmt

namespace StmtBuilder

/-- A statement wrapped in scopes, the first one outermost. -/
def wrapAll (scopes : List Scope) (body : Stmt) : Stmt :=
  scopes.foldr Scope.wrap body

theorem leaveTimes_succ (n : Nat) (b : StmtBuilder) : leaveTimes (n + 1) b = (leaveTimes n b).leave := by
  induction n generalizing b with
  | zero => rfl
  | succ n ih => exact ih b.leave

/-- More scopes cannot be left than are open. -/
theorem leaveTimes_of_no_scopes {b : StmtBuilder} (h : b.scopes = []) (n : Nat) : leaveTimes n b = b := by
  induction n with
  | zero => rfl
  | succ n ih =>
    rw [leaveTimes_succ, ih, leave, h]

theorem leaveTimes_add (m n : Nat) (b : StmtBuilder) : leaveTimes (m + n) b = leaveTimes n (leaveTimes m b) := by
  induction n with
  | zero => rfl
  | succ n ih => rw [← Nat.add_assoc, leaveTimes_succ, leaveTimes_succ, ih]

theorem appendAll_append (b : StmtBuilder) (stmts stmts' : List Stmt) :
    b.appendAll (stmts ++ stmts') = (b.appendAll stmts).appendAll stmts' :=
  List.foldl_append

/-- Statements that are added to an open scope stand behind those that it has collected. -/
theorem appendAll_of_scopes {b : StmtBuilder} {scope : Scope} {body : List Stmt} {outer : List (Scope × List Stmt)}
    (h : b.scopes = (scope, body) :: outer) (stmts : List Stmt) :
    b.appendAll stmts = { b with scopes := (scope, body ++ stmts) :: outer } := by
  induction stmts generalizing b body with
  | nil =>
    rw [List.append_nil, ← h]
    rfl
  | cons stmt stmts ih =>
    have happend : b.append stmt = { b with scopes := (scope, body ++ [stmt]) :: outer } := by
      rw [append, h]
    change (b.append stmt).appendAll stmts = _
    rw [happend, ih rfl, List.append_assoc]
    rfl

/-- Outside of all scopes they stand behind what was collected there. -/
theorem appendAll_of_no_scopes {b : StmtBuilder} (h : b.scopes = []) (stmts : List Stmt) :
    b.appendAll stmts = { b with root := b.root ++ stmts } := by
  induction stmts generalizing b with
  | nil =>
    rw [List.append_nil]
    rfl
  | cons stmt stmts ih =>
    have happend : b.append stmt = { b with root := b.root ++ [stmt] } := by
      rw [append, h]
    have hscopes : (b.append stmt).scopes = [] := by
      rw [happend]
      exact h
    change (b.append stmt).appendAll stmts = _
    rw [ih hscopes, happend, List.append_assoc]
    rfl

/-- Leaving a scope that was entered and filled adds its statement to the scope around it. -/
theorem leave_appendAll_enter (b : StmtBuilder) (scope : Scope) (stmts : List Stmt) :
    ((b.enter scope).appendAll stmts).leave = b.append (scope.wrap (.block stmts)) := by
  rw [appendAll_of_scopes rfl]
  rfl

/-- Scopes that are entered, filled and left add the nest to the scope around them. -/
theorem leaveTimes_enter (b : StmtBuilder) (scope : Scope) (scopes : List Scope) (stmts : List Stmt) :
    leaveTimes (scopes.length + 1) (((scope :: scopes).foldl enter b).appendAll stmts) =
      b.append (wrapAll (scope :: scopes) (.block stmts)) := by
  induction scopes generalizing b scope with
  | nil => exact leave_appendAll_enter b scope stmts
  | cons next scopes ih =>
    have hinner := ih (b.enter scope) next
    rw [List.foldl_cons, List.length_cons, leaveTimes_succ, hinner]
    exact leave_appendAll_enter b scope [wrapAll (next :: scopes) (.block stmts)]

theorem scopes_foldl_enter (b : StmtBuilder) (scopes : List Scope) :
    (scopes.foldl enter b).scopes = (scopes.map fun scope => (scope, [])).reverse ++ b.scopes := by
  induction scopes generalizing b with
  | nil => rfl
  | cons scope scopes ih =>
    rw [List.foldl_cons, ih, List.map_cons, List.reverse_cons, List.append_assoc]
    rfl

theorem length_scopes_appendAll (b : StmtBuilder) (stmts : List Stmt) :
    (b.appendAll stmts).scopes.length = b.scopes.length := by
  induction stmts generalizing b with
  | nil => rfl
  | cons stmt stmts ih =>
    change ((b.append stmt).appendAll stmts).scopes.length = _
    rw [ih, append]
    split <;> rename_i hscopes <;> simp [hscopes]

/-- A builder that opened and filled scopes ends with the nest. -/
theorem finish_enter (scope : Scope) (scopes : List Scope) (stmts : List Stmt) :
    (((scope :: scopes).foldl enter {}).appendAll stmts).finish = wrapAll (scope :: scopes) (.block stmts) := by
  have hlength : (((scope :: scopes).foldl enter {}).appendAll stmts).scopes.length = scopes.length + 1 := by
    rw [length_scopes_appendAll, scopes_foldl_enter]
    simp
  rw [finish, hlength, leaveTimes_enter]
  rfl

theorem wrapAll_loops (axes : List Var) (extents : List Expr) (body : Stmt) :
    wrapAll ((axes.zip extents).map fun entry => .forRange entry.1 entry.2 none) body =
      Stmt.loops axes extents body := by
  rw [wrapAll, List.foldr_map]
  rfl

theorem wrapAll_lets (vars : List Var) (values : List Expr) (body : Stmt) :
    wrapAll ((vars.zip values).map fun entry => .letIn entry.1 entry.2) body = Stmt.lets vars values body := by
  rw [wrapAll, List.foldr_map]
  rfl

end StmtBuilder

open StmtBuilder

/-- The statement of a reduction: the start, the nest of loops around the statements of the value and the step, and the
division. -/
theorem Reduction.toStmt_eq_nest (kind : ReduceKind) (dtype : DType) (acc : Var) (shape : List Expr) (axes : List Var)
    (combined : Lowered Expr) (divide : List Stmt) :
    toStmt kind dtype acc shape axes combined divide =
      .block (.assign acc (.literal (kind.init dtype) dtype) ::
        Stmt.nest axes shape (combined.prelude ++ [.assign acc (kind.combine (.var acc) combined.value)]) ++ divide) := by
  let start := append {} (.assign acc (.literal (kind.init dtype) dtype))
  let step := combined.prelude ++ [.assign acc (kind.combine (.var acc) combined.value)]
  let scopes := (axes.zip shape).map fun entry => Scope.forRange entry.1 entry.2 none
  have hloops := wrapAll_loops axes shape (.block step)
  have hclosed : leaveTimes scopes.length ((scopes.foldl enter start).appendAll step) =
      start.appendAll (Stmt.nest axes shape step) := by
    simp only [scopes, Stmt.nest] at hloops ⊢
    cases hentries : axes.zip shape with
    | nil => rfl
    | cons entry entries =>
      rw [hentries, List.map_cons] at hloops
      rw [List.map_cons, List.length_cons, leaveTimes_enter, hloops]
      rfl
  -- there is a scope for each axis that has an extent, and one is left for each axis
  have hleft : leaveTimes axes.length ((scopes.foldl enter start).appendAll step) =
      start.appendAll (Stmt.nest axes shape step) := by
    have hlength : scopes.length + (axes.length - scopes.length) = axes.length := by
      simp only [scopes, List.length_map, List.length_zip]
      omega
    rw [← hlength, leaveTimes_add, hclosed, leaveTimes_of_no_scopes]
    rw [appendAll_of_no_scopes rfl]
    rfl
  rw [List.foldl_map] at hleft
  change (appendAll (leaveTimes axes.length _) divide).finish = _
  rw [hleft, ← appendAll_append, appendAll_of_no_scopes rfl]
  rfl

/-- Without statements of the value there is only the step inside the loops. -/
theorem Reduction.toStmt_eq (kind : ReduceKind) (dtype : DType) (acc : Var) (shape : List Expr) (axes : List Var)
    (value : Expr) (divide : List Stmt) :
    toStmt kind dtype acc shape axes ⟨[], value⟩ divide =
      .block (.assign acc (.literal (kind.init dtype) dtype) ::
        Stmt.loops axes shape (.assign acc (kind.combine (.var acc) value)) :: divide) := by
  rw [toStmt_eq_nest, List.nil_append, Stmt.nest_singleton]
  rfl

namespace GridKernel

/-- What a thread does that has an element: the coordinates, the statements of the value, and the store. -/
def elementBody (c : TensorCompute) (shape : List Int64) (out thread : Var) (lowered : Lowered Expr) : Stmt :=
  Stmt.lets c.axes (unravel (.var thread) shape)
    (.block (lowered.prelude ++ [.store (.var out) (c.axes.map .var) lowered.value]))

/-- The body of a kernel: what a thread does with its element, inside the test that it has one and the binding of its
number. -/
theorem body_eq (worker : Worker) (c : TensorCompute) (shape : List Int64) (out thread : Var) (lowered : Lowered Expr) :
    body worker c shape out thread lowered =
      .letIn thread (Primitive.blockIdx * blockDim worker + Primitive.threadIdx)
        (.ite ((Expr.var thread).lt (Expr.int (numElements shape))) (elementBody c shape out thread lowered) none) := by
  have hnest := finish_enter (.letIn thread (Primitive.blockIdx * blockDim worker + Primitive.threadIdx))
    (.ifThen ((Expr.var thread).lt (Expr.int (numElements shape))) ::
      (c.axes.zip (unravel (.var thread) shape)).map fun entry => .letIn entry.1 entry.2)
    (lowered.prelude ++ [.store (.var out) (c.axes.map .var) lowered.value])
  rw [List.foldl_cons, List.foldl_cons, List.foldl_map] at hnest
  refine hnest.trans ?_
  exact congrArg (fun inner => Stmt.letIn thread _ (.ite _ inner none)) (wrapAll_lets c.axes _ _)

end GridKernel

end TensorCompiler
