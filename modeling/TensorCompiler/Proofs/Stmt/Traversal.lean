import TensorCompiler.Stmt.Traversal

/-! # Recursion over statements

The walks over statements said by way of `children`: a tree is induced over from its direct sub-statements up, its
preorder is the statement and the preorders of those, and the statements of a rebuilt tree are the rebuilt statements of
the tree, if the rebuild of a statement leaves its sub-statements.
-/

namespace TensorCompiler.Stmt

/-! ## Induction -/

theorem sizeOf_children {c s : Stmt} (h : c ∈ s.children) : sizeOf c < sizeOf s := by
  cases s <;> simp only [children, List.mem_cons, List.not_mem_nil, or_false] at h
  case letIn | forRange =>
    subst h
    simp only [letIn.sizeOf_spec, forRange.sizeOf_spec]
    omega
  case ite cond thenS elseS =>
    rcases h with rfl | h
    · simp
      omega
    · cases elseS with
      | none => cases h
      | some elseS =>
        obtain rfl := List.mem_singleton.mp h
        simp
        omega
  case seq stmts =>
    have := List.sizeOf_lt_of_mem h
    simp
    omega

/-- A property that passes from the direct sub-statements to a statement holds of every statement. -/
theorem induct {P : Stmt → Prop} (node : ∀ s, (∀ c ∈ s.children, P c) → P s) (s : Stmt) : P s :=
  node s fun c hc =>
    have := sizeOf_children hc
    induct node c
termination_by sizeOf s

theorem preorderAll_eq (ss : List Stmt) : preorderAll ss = ss.flatMap preorder := by
  induction ss with
  | nil => rfl
  | cons s ss ih => rw [preorderAll, ih, List.flatMap_cons]

theorem preorder_eq (s : Stmt) : s.preorder = s :: s.children.flatMap preorder := by
  cases s
  case ite cond thenS elseS => cases elseS <;> simp [preorder, children]
  all_goals simp [preorder, children, preorderAll_eq]

theorem mem_preorder_self (s : Stmt) : s ∈ s.preorder := by
  rw [preorder_eq]
  exact List.mem_cons_self

theorem mem_preorder_of_child {c s t : Stmt} (hc : c ∈ s.children) (ht : t ∈ c.preorder) : t ∈ s.preorder := by
  rw [preorder_eq]
  exact List.mem_cons_of_mem _ (List.mem_flatMap.mpr ⟨c, hc, ht⟩)

/-! ## Rebuilding -/

variable {fs : Stmt → Stmt} {fe : Expr → Expr}

theorem mapAll_eq (ss : List Stmt) : mapAll fs fe ss = ss.map (map fs fe) := by
  induction ss with
  | nil => rfl
  | cons s ss ih => rw [mapAll, ih, List.map_cons]

theorem children_map (hfs : ∀ s, (fs s).children = s.children) (s : Stmt) :
    (s.map fs fe).children = s.children.map (map fs fe) := by
  cases s
  case ite cond thenS elseS => cases elseS <;> rw [map, hfs] <;> rfl
  case seq stmts => rw [map, hfs, mapAll_eq, children, children]
  all_goals rw [map, hfs]
  all_goals first | rfl | simp

/-- The statements of a rebuilt tree are the rebuilt statements of the tree. -/
theorem exists_of_mem_preorder_map (hfs : ∀ s, (fs s).children = s.children) {s t : Stmt}
    (ht : t ∈ (s.map fs fe).preorder) : ∃ u ∈ s.preorder, t = u.map fs fe := by
  induction s using Stmt.induct with
  | node s ih =>
    rw [preorder_eq, children_map hfs] at ht
    rcases List.mem_cons.mp ht with rfl | ht
    · exact ⟨s, mem_preorder_self s, rfl⟩
    · obtain ⟨c', hc', ht⟩ := List.mem_flatMap.mp ht
      obtain ⟨c, hc, rfl⟩ := List.mem_map.mp hc'
      obtain ⟨u, hu, rfl⟩ := ih c hc ht
      exact ⟨u, mem_preorder_of_child hc hu, rfl⟩

end TensorCompiler.Stmt
