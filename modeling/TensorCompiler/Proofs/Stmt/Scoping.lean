import TensorCompiler.Proofs.Expr.Agreement
import TensorCompiler.Proofs.Stmt.Builder
import TensorCompiler.Stmt.Traversal

/-! # Where a statement uses a name

A statement uses a name where one of its expressions has a free variable of that name, or where it assigns it. What such
a use means is up to the bindings and loops around it, of which the innermost one of the name counts; a name that none
of them binds means what it means outside of the statement.
-/

namespace TensorCompiler

namespace Scope

/-- Whether a scope gives a meaning to a name. -/
def binds (x : String) : Scope → Bool
  | letIn v _ | forRange v _ _ => v.name == x
  | ifThen _ => false

/-- Whether a scope is a loop over one of the axes. -/
def IsLoopOver (axes : List Var) (scope : Scope) : Prop :=
  ∃ v ∈ axes, ∃ extent, scope = .forRange v extent none

end Scope

namespace Expr

/-- The names of the free variables. -/
def freeNames (e : Expr) : List String :=
  e.freeVars.map Var.name

theorem mem_freeNames_of_child {e c : Expr} {x : String} (h : e.isScoping = false) (hc : c ∈ e.children)
    (hx : x ∈ c.freeNames) : x ∈ e.freeNames := by
  obtain ⟨w, hw, rfl⟩ := List.mem_map.mp hx
  exact List.mem_map_of_mem (mem_freeVars_of_child h hc hw)

theorem freeNames_var (v : Var) : (var v).freeNames = [v.name] := by
  rw [freeNames, freeVars]
  rfl

theorem mem_freeNames_letIn {v : Var} {value body : Expr} {x : String} :
    x ∈ (letIn v value body).freeNames ↔ x ∈ value.freeNames ∨ x ∈ body.freeNames ∧ x ≠ v.name := by
  simp only [freeNames, List.mem_map, mem_freeVars_letIn]
  grind

theorem mem_freeNames_reduce {kind : ReduceKind} {shape : List Expr} {axes : List Var} {value : Expr} {x : String} :
    x ∈ (reduce kind shape axes value).freeNames ↔
      (∃ extent ∈ shape, x ∈ extent.freeNames) ∨ x ∈ value.freeNames ∧ x ∉ axes.map Var.name := by
  simp only [freeNames, List.mem_map, mem_freeVars_reduce]
  grind

end Expr

namespace ReduceKind

theorem mem_freeNames_combine {kind : ReduceKind} {acc : Var} {value : Expr} {x : String} :
    x ∈ (kind.combine (.var acc) value).freeNames ↔ x = acc.name ∨ x ∈ value.freeNames := by
  have hcombine : (kind.combine (.var acc) value).freeVars = acc :: value.freeVars := by
    cases kind <;> simp [combine, HAdd.hAdd, Add.add, Expr.freeVars, Expr.freeVarsAll]
  rw [Expr.freeNames, hcombine, List.map_cons, List.mem_cons, Expr.freeNames]

end ReduceKind

namespace Stmt

/-- The scopes that a statement opens for the statements inside of it. -/
def opens : Stmt → List Scope
  | letIn v value _ => [.letIn v value]
  | forRange v extent unroll _ => [.forRange v extent unroll]
  | _ => []

/-- A use of a name in a statement, with the bindings and loops around it, the innermost one first. -/
inductive Uses : Stmt → String → List Scope → Prop
  | expr {s : Stmt} {e : Expr} {x : String} (he : e ∈ s.exprs) (hx : x ∈ e.freeNames) : Uses s x []
  | target (v : Var) (value : Expr) : Uses (.assign v value) v.name []
  | inside {s c : Stmt} {x : String} {scopes : List Scope} (hc : c ∈ s.children) (h : Uses c x scopes) :
      Uses s x (scopes ++ s.opens)

/-- Whether a statement uses a name that none of its bindings and loops binds there. -/
def Mentions (s : Stmt) (x : String) : Prop :=
  ∃ scopes, s.Uses x scopes ∧ ∀ scope ∈ scopes, scope.binds x = false

variable {x : String} {scopes : List Scope} {s : Stmt} {stmts : List Stmt}

/-- A use is in an expression or in the target of an assignment, or further inside. -/
theorem uses_iff :
    s.Uses x scopes ↔
      scopes = [] ∧ ((∃ e ∈ s.exprs, x ∈ e.freeNames) ∨ ∃ v value, s = assign v value ∧ x = v.name) ∨
        ∃ c ∈ s.children, ∃ inner, c.Uses x inner ∧ scopes = inner ++ s.opens := by
  constructor
  · intro h
    cases h with
    | expr he hx => exact .inl ⟨rfl, .inl ⟨_, he, hx⟩⟩
    | target v value => exact .inl ⟨rfl, .inr ⟨v, value, rfl, rfl⟩⟩
    | inside hc h => exact .inr ⟨_, hc, _, h, rfl⟩
  · rintro (⟨rfl, ⟨e, he, hx⟩ | ⟨v, value, rfl, rfl⟩⟩ | ⟨c, hc, inner, h, rfl⟩)
    · exact .expr he hx
    · exact .target v value
    · exact .inside hc h

theorem uses_assign_iff {v : Var} {value : Expr} :
    (assign v value).Uses x scopes ↔ scopes = [] ∧ (x = v.name ∨ x ∈ value.freeNames) := by
  rw [uses_iff]
  simp [exprs, children]
  grind

theorem uses_seq_iff : (seq stmts).Uses x scopes ↔ ∃ s ∈ stmts, s.Uses x scopes := by
  rw [uses_iff]
  simp [exprs, children, opens]

theorem uses_block_iff : (block stmts).Uses x scopes ↔ ∃ s ∈ stmts, s.Uses x scopes := by
  match stmts with
  | [s] => simp [block]
  | [] | _ :: _ :: _ => exact uses_seq_iff

theorem uses_letIn_iff {v : Var} {value : Expr} {body : Stmt} :
    (letIn v value body).Uses x scopes ↔
      scopes = [] ∧ x ∈ value.freeNames ∨ ∃ inner, body.Uses x inner ∧ scopes = inner ++ [.letIn v value] := by
  rw [uses_iff]
  simp [exprs, children, opens]

theorem uses_forRange_iff {v : Var} {extent : Expr} {unroll : Option Bool} {body : Stmt} :
    (forRange v extent unroll body).Uses x scopes ↔
      scopes = [] ∧ x ∈ extent.freeNames ∨
        ∃ inner, body.Uses x inner ∧ scopes = inner ++ [.forRange v extent unroll] := by
  rw [uses_iff]
  simp [exprs, children, opens]

theorem uses_ifThen_iff {cond : Expr} {thenS : Stmt} :
    (ite cond thenS none).Uses x scopes ↔ scopes = [] ∧ x ∈ cond.freeNames ∨ thenS.Uses x scopes := by
  rw [uses_iff]
  simp [exprs, children, opens]

/-- A use in a nest of bindings is in a value, with some of the bindings around it, or inside of all the bindings. -/
theorem uses_lets {vars : List Var} {values : List Expr} {body : Stmt} (h : (lets vars values body).Uses x scopes) :
    ∃ inner outer, scopes = inner ++ outer ∧
      (inner = [] ∧ (∃ value ∈ values, x ∈ value.freeNames) ∧
          (∀ scope ∈ outer, scope ∈ (vars.zip values).map fun entry => Scope.letIn entry.1 entry.2) ∨
        body.Uses x inner ∧ outer = ((vars.zip values).map fun entry => Scope.letIn entry.1 entry.2).reverse) := by
  induction vars generalizing values scopes with
  | nil => exact ⟨scopes, [], (List.append_nil _).symm, .inr ⟨h, rfl⟩⟩
  | cons v vars ih =>
    cases values with
    | nil => exact ⟨scopes, [], (List.append_nil _).symm, .inr ⟨h, rfl⟩⟩
    | cons value values =>
      have houtermost : (letIn v value (lets vars values body)).Uses x scopes := h
      rcases uses_letIn_iff.mp houtermost with ⟨rfl, hx⟩ | ⟨scopes, hinside, rfl⟩
      · exact ⟨[], [], rfl, .inl ⟨rfl, ⟨value, List.mem_cons_self, hx⟩, nofun⟩⟩
      · obtain ⟨inner, outer, rfl, huse⟩ := ih hinside
        refine ⟨inner, outer ++ [.letIn v value], List.append_assoc _ _ _, ?_⟩
        rcases huse with ⟨rfl, ⟨e, he, hx⟩, houter⟩ | ⟨hbody, rfl⟩
        · refine .inl ⟨rfl, ⟨e, List.mem_cons_of_mem _ he, hx⟩, List.forall_mem_append.mpr ⟨fun scope hscope => ?_, ?_⟩⟩
          · exact List.mem_cons_of_mem _ (houter scope hscope)
          · exact List.forall_mem_singleton.mpr List.mem_cons_self
        · exact .inr ⟨hbody, by simp⟩

/-- A use in a nest of loops is in an extent, or in the statements inside of all the loops. -/
theorem uses_loops {axes : List Var} {extents : List Expr} {body : Stmt} (h : (loops axes extents body).Uses x scopes) :
    ∃ inner outer, scopes = inner ++ outer ∧ (∀ scope ∈ outer, scope.IsLoopOver axes) ∧
      (inner = [] ∧ (∃ extent ∈ extents, x ∈ extent.freeNames) ∨
        body.Uses x inner ∧ (axes.length = extents.length → ∀ v ∈ axes, ∃ scope ∈ outer, scope.binds v.name)) := by
  induction axes generalizing extents scopes with
  | nil => exact ⟨scopes, [], (List.append_nil _).symm, nofun, .inr ⟨h, fun _ => nofun⟩⟩
  | cons v axes ih =>
    cases extents with
    | nil => exact ⟨scopes, [], (List.append_nil _).symm, nofun, .inr ⟨h, nofun⟩⟩
    | cons extent extents =>
      have houtermost : (forRange v extent none (loops axes extents body)).Uses x scopes := h
      rcases uses_forRange_iff.mp houtermost with ⟨rfl, hx⟩ | ⟨scopes, hinside, rfl⟩
      · exact ⟨[], [], rfl, List.forall_mem_nil _, .inl ⟨rfl, extent, List.mem_cons_self, hx⟩⟩
      · obtain ⟨inner, outer, rfl, houter, huse⟩ := ih hinside
        refine ⟨inner, outer ++ [.forRange v extent none], List.append_assoc _ _ _, ?_, ?_⟩
        · refine List.forall_mem_append.mpr ⟨fun scope hscope => ?_, ?_⟩
          · obtain ⟨w, hw, hloop⟩ := houter scope hscope
            exact ⟨w, List.mem_cons_of_mem _ hw, hloop⟩
          · exact List.forall_mem_singleton.mpr ⟨v, List.mem_cons_self, extent, rfl⟩
        · refine huse.imp ?_ ?_
          · rintro ⟨rfl, e, he, hx⟩
            exact ⟨rfl, e, List.mem_cons_of_mem _ he, hx⟩
          · rintro ⟨hbody, hbound⟩
            refine ⟨hbody, fun hlength => List.forall_mem_cons.mpr ⟨?_, fun w hw => ?_⟩⟩
            · exact ⟨_, List.mem_append_right _ (List.mem_singleton_self _), beq_self_eq_true v.name⟩
            · obtain ⟨scope, hscope, hbinds⟩ := hbound (Nat.succ.inj hlength) w hw
              exact ⟨scope, List.mem_append_left _ hscope, hbinds⟩

theorem uses_nest {axes : List Var} {extents : List Expr} (hs : s ∈ nest axes extents stmts) (h : s.Uses x scopes) :
    ∃ inner outer, scopes = inner ++ outer ∧ (∀ scope ∈ outer, scope.IsLoopOver axes) ∧
      (inner = [] ∧ (∃ extent ∈ extents, x ∈ extent.freeNames) ∨
        (∃ s ∈ stmts, s.Uses x inner) ∧
          (axes.length = extents.length → ∀ v ∈ axes, ∃ scope ∈ outer, scope.binds v.name)) := by
  rw [nest] at hs
  split at hs
  · rename_i hzip
    refine ⟨scopes, [], (List.append_nil _).symm, List.forall_mem_nil _, .inr ⟨⟨s, hs, h⟩, fun hlength => ?_⟩⟩
    -- no loops with an extent for each axis: there are no axes
    rw [List.isEmpty_iff, List.zip_eq_nil_iff] at hzip
    obtain rfl : axes = [] := by
      rcases hzip with rfl | rfl
      · rfl
      · exact List.length_eq_zero_iff.mp hlength
    exact List.forall_mem_nil _
  · rw [List.mem_singleton.mp hs] at h
    obtain ⟨inner, outer, rfl, houter, huse⟩ := uses_loops h
    exact ⟨inner, outer, rfl, houter, huse.imp_right fun h => ⟨uses_block_iff.mp h.1, h.2⟩⟩

end Stmt

namespace Reduction

open Stmt

variable {kind : ReduceKind} {d : DType} {acc : Var} {shape : List Expr} {axes : List Var} {combined : Lowered Expr}
  {divide : List Stmt} {x : String} {scopes : List Scope}

/-- The division uses the accumulator only. -/
theorem uses_divide (hdivide : Reduction.divide kind d acc shape = .ok divide) {s : Stmt} (hs : s ∈ divide)
    (h : s.Uses x scopes) : scopes = [] ∧ x = acc.name := by
  cases kind with
  | avg =>
    obtain ⟨count, -, hresult⟩ := bind_eq_ok_iff.mp hdivide
    cases hresult
    rw [List.mem_singleton.mp hs, uses_assign_iff] at h
    simpa [HDiv.hDiv, Div.div, Expr.freeNames, Expr.freeVars, Expr.literal] using h
  | sum | max | min =>
    cases hdivide
    cases hs

/-- The statement of a reduction uses names in the loops over its axes only: the accumulator, names of the extents, and
what the lowered value and its statements use inside of all the loops. -/
theorem uses_toStmt (hdivide : Reduction.divide kind d acc shape = .ok divide)
    (h : (toStmt kind d acc shape axes combined divide).Uses x scopes) :
    ∃ inner outer, scopes = inner ++ outer ∧ (∀ scope ∈ outer, scope.IsLoopOver axes) ∧
      (inner = [] ∧ (x = acc.name ∨ ∃ extent ∈ shape, x ∈ extent.freeNames) ∨
        (inner = [] ∧ x ∈ combined.value.freeNames ∨ ∃ s ∈ combined.prelude, s.Uses x inner) ∧
          (axes.length = shape.length → ∀ v ∈ axes, ∃ scope ∈ outer, scope.binds v.name)) := by
  rw [toStmt_eq_nest, uses_block_iff] at h
  obtain ⟨s, hs, h⟩ := h
  rcases List.mem_append.mp hs with hs | hs
  · rcases List.mem_cons.mp hs with rfl | hs
    · obtain ⟨rfl, hx⟩ := uses_assign_iff.mp h
      have hacc : x = acc.name := by simpa [Expr.freeNames, Expr.freeVars, Expr.literal] using hx
      exact ⟨[], [], rfl, List.forall_mem_nil _, .inl ⟨rfl, .inl hacc⟩⟩
    · obtain ⟨inner, outer, rfl, houter, huse⟩ := uses_nest hs h
      refine ⟨inner, outer, rfl, houter, ?_⟩
      rcases huse with ⟨rfl, hextent⟩ | ⟨⟨s, hs, h⟩, hbound⟩
      · exact .inl ⟨rfl, .inr hextent⟩
      · rcases List.mem_append.mp hs with hs | hs
        · exact .inr ⟨.inr ⟨s, hs, h⟩, hbound⟩
        · rw [List.mem_singleton.mp hs] at h
          obtain ⟨rfl, hx⟩ := uses_assign_iff.mp h
          rw [ReduceKind.mem_freeNames_combine] at hx
          rcases hx with hacc | hacc | hvalue
          · exact .inl ⟨rfl, .inl hacc⟩
          · exact .inl ⟨rfl, .inl hacc⟩
          · exact .inr ⟨.inl ⟨rfl, hvalue⟩, hbound⟩
  · obtain ⟨rfl, hacc⟩ := uses_divide hdivide hs h
    exact ⟨[], [], rfl, List.forall_mem_nil _, .inl ⟨rfl, .inl hacc⟩⟩

end Reduction

end TensorCompiler
