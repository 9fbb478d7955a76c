import TensorCompiler.Program.Function
import TensorCompiler.Proofs.Expr.Traversal
import TensorCompiler.Proofs.Stmt.Traversal

/-! # Calls in the body of a function

A body calls a function where an expression of one of its statements has a call of that name, at any depth. The places
where a statement holds expressions and other statements are spelled out here one by one, and the functions that the walk
over a body collects are those that are called at one of them.
-/

namespace TensorCompiler

/-! ## Calls in expressions -/

namespace Expr

variable {name : String} {e : Expr}

mutual

/-- Whether a call of a function occurs in an expression. The types of variables and casts are no code. -/
def Calls (name : String) : Expr → Prop
  | call func args => func = name ∨ AnyCalls name args
  | unary _ arg | cast _ arg | deref arg | addr arg | ref arg => arg.Calls name
  | binary _ lhs rhs => lhs.Calls name ∨ rhs.Calls name
  | letIn _ value body => value.Calls name ∨ body.Calls name
  | ite cond thenE elseE => cond.Calls name ∨ thenE.Calls name ∨ elseE.Calls name
  | element base indices => base.Calls name ∨ AnyCalls name indices
  | tensorInput _ _ (some shape) => AnyCalls name shape
  | compute _ shape _ value | reduce _ shape _ value => AnyCalls name shape ∨ value.Calls name
  | var _ | const .. | scalarInput .. | tensorInput _ _ none | any _ | anyCompute .. | anyReduce _ => False

/-- Whether a call of a function occurs in one of several expressions. -/
def AnyCalls (name : String) : List Expr → Prop
  | [] => False
  | e :: es => e.Calls name ∨ AnyCalls name es

end

theorem anyCalls_iff {es : List Expr} : AnyCalls name es ↔ ∃ e ∈ es, e.Calls name := by
  induction es with
  | nil => simp [AnyCalls]
  | cons e es ih => simp [AnyCalls, ih]

/-- A call is the node itself or occurs in a direct sub-expression. -/
theorem calls_iff : e.Calls name ↔ (∃ args, e = call name args) ∨ ∃ c ∈ e.children, c.Calls name := by
  cases e
  case tensorInput _ _ shape => cases shape <;> simp [Calls, children, anyCalls_iff]
  case compute | reduce => simp [Calls, children, anyCalls_iff, or_and_right, exists_or]
  all_goals simp [Calls, children, anyCalls_iff]

/-- The calls that occur in an expression are among its nodes. -/
theorem calls_iff_mem_preorder : e.Calls name ↔ ∃ args, call name args ∈ e.preorder := by
  induction e using Expr.induct with
  | node e ih =>
    have hinside : (∃ c ∈ e.children, c.Calls name) ↔ ∃ args, ∃ c ∈ e.children, call name args ∈ c.preorder := by
      simp only [exists_comm (α := List Expr), exists_and_left]
      exact exists_congr fun c => and_congr_right (ih c)
    rw [calls_iff, hinside, ← exists_or]
    simp only [preorder_eq e, List.mem_cons, List.mem_flatMap, eq_comm (a := e)]

end Expr

/-! ## Calls in statements -/

namespace Stmt

variable {name : String} {s : Stmt}

mutual

/-- Whether a call of a function occurs in a statement. -/
def Calls (name : String) : Stmt → Prop
  | eval e => e.Calls name
  | assign _ value => value.Calls name
  | store buf indices value => buf.Calls name ∨ Expr.AnyCalls name indices ∨ value.Calls name
  | letIn _ value body => value.Calls name ∨ body.Calls name
  | forRange _ extent _ body => extent.Calls name ∨ body.Calls name
  | ite cond thenS none => cond.Calls name ∨ thenS.Calls name
  | ite cond thenS (some elseS) => cond.Calls name ∨ thenS.Calls name ∨ elseS.Calls name
  | assert cond _ => cond.Calls name
  | asm _ outputs inputs _ => (∃ output ∈ outputs, output.2.Calls name) ∨ ∃ input ∈ inputs, input.2.Calls name
  | raw _ args => Expr.AnyCalls name args
  | ret (some value) => value.Calls name
  | ret none => False
  | seq stmts => AnyCalls name stmts

/-- Whether a call of a function occurs in one of several statements. -/
def AnyCalls (name : String) : List Stmt → Prop
  | [] => False
  | s :: ss => s.Calls name ∨ AnyCalls name ss

end

theorem anyCalls_iff {ss : List Stmt} : AnyCalls name ss ↔ ∃ s ∈ ss, s.Calls name := by
  induction ss with
  | nil => simp [AnyCalls]
  | cons s ss ih => simp [AnyCalls, ih]

theorem calls_block {ss : List Stmt} : (block ss).Calls name ↔ ∃ s ∈ ss, s.Calls name := by
  rw [block.eq_def]
  split
  · simp
  · exact anyCalls_iff

/-- A call occurs in an expression of the statement itself or in a direct sub-statement. -/
theorem calls_iff : s.Calls name ↔ (∃ e ∈ s.exprs, e.Calls name) ∨ ∃ c ∈ s.children, c.Calls name := by
  cases s
  case ite _ _ elseS => cases elseS <;> simp [Calls, exprs, children]
  case ret value => cases value <;> simp [Calls, exprs, children]
  case asm =>
    simp only [Calls, exprs, children, List.mem_append, List.mem_map, List.not_mem_nil, false_and, exists_false, or_false]
    grind
  case store => simp [Calls, exprs, children, Expr.anyCalls_iff, or_and_right, exists_or]
  all_goals simp [Calls, exprs, children, anyCalls_iff, Expr.anyCalls_iff]

/-- A call occurs in an expression of one of the statements of a tree. -/
theorem calls_iff_exists_mem_preorder : s.Calls name ↔ ∃ t ∈ s.preorder, ∃ e ∈ t.exprs, e.Calls name := by
  induction s using Stmt.induct with
  | node s ih =>
    have hinside : (∃ c ∈ s.children, c.Calls name) ↔ ∃ c ∈ s.children, ∃ t ∈ c.preorder, ∃ e ∈ t.exprs, e.Calls name :=
      exists_congr fun c => and_congr_right (ih c)
    rw [calls_iff, hinside, preorder_eq]
    simp only [List.mem_cons, List.mem_flatMap, exists_eq_or_imp]
    grind

/-- The calls that occur in a statement are among the nodes of its expressions. -/
theorem calls_iff_mem_exprNodes : s.Calls name ↔ ∃ args, Expr.call name args ∈ s.exprNodes := by
  simp only [calls_iff_exists_mem_preorder, Expr.calls_iff_mem_preorder, exprNodes, List.mem_flatMap]
  grind

end Stmt

/-- The functions that a walk over a body collects are those that it calls. -/
theorem Function.mem_callees {f : Function} {name : String} : name ∈ f.callees ↔ f.body.Calls name := by
  rw [callees, mem_firstOccurrences, List.mem_filterMap, Stmt.calls_iff_mem_exprNodes]
  constructor
  · rintro ⟨node, hnode, hname⟩
    split at hname
    · cases hname
      exact ⟨_, hnode⟩
    · cases hname
  · rintro ⟨args, hcall⟩
    exact ⟨_, hcall, rfl⟩

end TensorCompiler
