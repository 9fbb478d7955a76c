import TensorCompiler.Proofs.Lowering.Settled
import TensorCompiler.Proofs.Stmt.Builder

/-! # Branches

A tree has a branch if there is an `if` anywhere in it. Bindings, loops and sequences have the branches of their parts.
Simplification takes branches away and makes none, since whatever it puts in the place of a statement it takes from
inside that statement.
-/

namespace TensorCompiler.Stmt

/-- Whether the statement is an `if`. -/
def isBranch : Stmt → Bool
  | ite .. => true
  | _ => false

/-- Whether a tree has an `if`. -/
def HasBranch (s : Stmt) : Prop :=
  ∃ t ∈ s.preorder, t.isBranch

variable {s t : Stmt} {stmts : List Stmt}

theorem hasBranch_iff : s.HasBranch ↔ s.isBranch ∨ ∃ c ∈ s.children, c.HasBranch := by
  rw [HasBranch, preorder_eq, List.exists_mem_cons_iff]
  simp only [List.mem_flatMap, HasBranch]
  refine or_congr_right ⟨?_, ?_⟩
  · rintro ⟨t, ⟨c, hc, ht⟩, hbranch⟩
    exact ⟨c, hc, t, ht, hbranch⟩
  · rintro ⟨c, hc, t, ht, hbranch⟩
    exact ⟨t, ⟨c, hc, ht⟩, hbranch⟩

/-! ## Kinds of statements -/

theorem hasBranch_ite (cond : Expr) (thenS : Stmt) (elseS : Option Stmt) : (ite cond thenS elseS).HasBranch :=
  hasBranch_iff.mpr (.inl rfl)

@[simp]
theorem hasBranch_letIn (v : Var) (value : Expr) (body : Stmt) : (letIn v value body).HasBranch ↔ body.HasBranch := by
  rw [hasBranch_iff]
  simp [isBranch, children]

@[simp]
theorem hasBranch_forRange (v : Var) (extent : Expr) (unroll : Option Bool) (body : Stmt) :
    (forRange v extent unroll body).HasBranch ↔ body.HasBranch := by
  rw [hasBranch_iff]
  simp [isBranch, children]

@[simp]
theorem hasBranch_seq (stmts : List Stmt) : (seq stmts).HasBranch ↔ ∃ s ∈ stmts, s.HasBranch := by
  rw [hasBranch_iff]
  simp [isBranch, children]

/-- What holds no other statement has no branch. -/
theorem not_hasBranch_of_isLeaf (hs : s.isLeaf) : ¬ s.HasBranch := by
  rw [hasBranch_iff]
  cases s with
  | letIn | forRange | ite | seq => cases hs
  | _ => simp [isBranch, children]

theorem isLeaf_mapOwnExprs (f : Expr → Expr) (s : Stmt) : (s.mapOwnExprs f).isLeaf = s.isLeaf := by
  cases s <;> rfl

@[simp]
theorem hasBranch_block (stmts : List Stmt) : (block stmts).HasBranch ↔ ∃ s ∈ stmts, s.HasBranch := by
  unfold block
  split
  · simp
  · exact hasBranch_seq _

/-- A rebuild that leaves branches and sub-statements makes no branch. -/
theorem HasBranch.of_map {fs : Stmt → Stmt} {fe : Expr → Expr} (h : (s.map fs fe).HasBranch)
    (hchildren : ∀ s, (fs s).children = s.children) (hbranch : ∀ s, (fs s).isBranch = s.isBranch) : s.HasBranch := by
  obtain ⟨t, ht, htrue⟩ := h
  obtain ⟨u, hu, rfl⟩ := exists_of_mem_preorder_map hchildren ht
  have hsame : (u.map fs fe).isBranch = u.isBranch := by
    cases u with
    | ite cond thenS elseS => cases elseS <;> exact hbranch _
    | _ => exact hbranch _
  exact ⟨u, hu, hsame.symm.trans htrue⟩

/-! ## Simplification -/

/-- A statement of an opened sequence stands inside the statement that was opened. -/
theorem HasBranch.of_mem_flatten (ht : t ∈ s.flatten) (h : t.HasBranch) : s.HasBranch := by
  induction s using Stmt.induct with
  | node s ih =>
    cases s with
    | seq stmts =>
      rw [flatten, flattenAll_eq] at ht
      obtain ⟨c, hc, ht⟩ := List.mem_flatMap.mp ht
      exact (hasBranch_seq stmts).mpr ⟨c, hc, ih c hc ht⟩
    | _ =>
      rw [List.mem_singleton.mp ht] at h
      exact h

variable [FloatOps]

/-- Simplifying a statement makes no branch. -/
theorem HasBranch.of_foldNode (h : s.foldNode.HasBranch) : s.HasBranch := by
  cases s with
  | ite cond thenS elseS => exact hasBranch_ite cond thenS elseS
  | forRange v extent unroll body =>
    rw [foldNode] at h
    split_ifs at h
    · simp at h
    · exact h
  | assert cond message =>
    rw [foldNode] at h
    split at h
    · split_ifs at h
      · simp at h
      · exact h
    · exact h
  | seq stmts =>
    rw [foldNode, flattenAll_eq, hasBranch_block] at h
    obtain ⟨t, ht, hbranch⟩ := h
    obtain ⟨s, hs, ht⟩ := List.mem_flatMap.mp ht
    exact (hasBranch_seq stmts).mpr ⟨s, hs, hbranch.of_mem_flatten ht⟩
  | _ => exact h

variable {F : Bounds → Expr → Expr} {G : Bounds → Stmt → Stmt}

/-- A sweep makes no branch. -/
theorem IsSweep.of_hasBranch (hG : IsSweep F G) (env : Bounds) (h : (G env s).HasBranch) : s.HasBranch := by
  induction s using Stmt.induct generalizing env with
  | node s ih =>
    cases s with
    | letIn v value body =>
      rw [hG.letIn] at h
      exact (hasBranch_letIn v value body).mpr (ih body (by simp [children]) _ ((hasBranch_letIn _ _ _).mp h.of_foldNode))
    | forRange v extent unroll body =>
      rw [hG.forRange] at h
      have hbody := (hasBranch_forRange _ _ _ _).mp h.of_foldNode
      exact (hasBranch_forRange v extent unroll body).mpr (ih body (by simp [children]) _ hbody)
    | ite cond thenS elseS => exact hasBranch_ite cond thenS elseS
    | seq stmts =>
      rw [hG.seq] at h
      obtain ⟨t, ht, hbranch⟩ := (hasBranch_seq _).mp h.of_foldNode
      obtain ⟨s, hs, rfl⟩ := List.mem_map.mp ht
      exact (hasBranch_seq stmts).mpr ⟨s, hs, ih s hs env hbranch⟩
    | _ =>
      rw [hG.leaf env _ rfl] at h
      exact absurd h.of_foldNode (not_hasBranch_of_isLeaf ((isLeaf_mapOwnExprs _ _).trans rfl))

end TensorCompiler.Stmt
