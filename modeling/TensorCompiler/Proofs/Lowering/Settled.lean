import TensorCompiler.Proofs.Lowering.SimplifyTyped

/-! # What simplification leaves

An expression is settled if the replacement of nodes leaves each of its nodes, and a statement if simplification leaves
each of its statements. What becomes of a node with settled parts is settled: it is the node itself, one of the parts, the
truth value of a part or a literal, and none of these is replaced again. So one sweep from the leaves to the root reaches
a normal form.

Constant folding and simplification by bounds are sweeps of one kind: below a binding they go on under the bounds of the
value that the sweep has left, and these are the bounds that a second sweep finds there.
-/

namespace TensorCompiler

/-! ## Expressions -/

namespace Expr

/-- Whether an expression is no binding of a variable. -/
def IsNoBinding (e : Expr) : Prop :=
  ∀ v value body, e ≠ .letIn v value body

/-- Whether a replacement of nodes under bounds leaves every node of an expression. The body of a binding stands under the
bounds of its value. -/
inductive Settled (f : Bounds → Expr → Expr) : Bounds → Expr → Prop
  | letIn {env : Bounds} {v : Var} {value body : Expr} (hvalue : Settled f env value)
      (hbody : Settled f (env.bind v.name (value.interval env)) body) : Settled f env (.letIn v value body)
  | node {env : Bounds} {e : Expr} (he : e.IsNoBinding) (hparts : ∀ c ∈ e.children, Settled f env c)
      (hroot : f env e = e) : Settled f env e

/-- A sweep from the leaves to the root that replaces nodes whose parts are settled by what is settled. -/
structure IsSweep (f F : Bounds → Expr → Expr) : Prop where
  letIn : ∀ env v value body, F env (.letIn v value body) =
    .letIn v (F env value) (F (env.bind v.name ((F env value).interval env)) body)
  node : ∀ env (e : Expr), e.IsNoBinding → F env e = f env (e.mapChildren (F env))
  settles : ∀ env (e : Expr), e.IsNoBinding → (∀ c ∈ e.children, Settled f env c) → Settled f env (f env e)

variable {f F : Bounds → Expr → Expr} {env : Bounds} {e node : Expr}

theorem IsNoBinding.mapChildren (h : e.IsNoBinding) (g : Expr → Expr) : (e.mapChildren g).IsNoBinding := by
  cases e with
  | letIn v value body => exact absurd rfl (h v value body)
  | _ => exact fun _ _ _ heq => by cases heq

theorem IsSweep.settled (hF : IsSweep f F) (env : Bounds) (e : Expr) : Settled f env (F env e) := by
  -- the bounds are generalized for the bodies of bindings
  induction e using Expr.induct generalizing env with
  | node e ih =>
    by_cases hlet : ∃ v value body, e = .letIn v value body
    · obtain ⟨v, value, body, rfl⟩ := hlet
      rw [hF.letIn]
      exact .letIn (ih value (by simp [children]) env) (ih body (by simp [children]) _)
    · have he : e.IsNoBinding := fun v value body heq => hlet ⟨v, value, body, heq⟩
      rw [hF.node env e he]
      refine hF.settles env _ (he.mapChildren _) ?_
      rw [children_mapChildren]
      exact List.forall_mem_map.mpr fun c hc => ih c hc env

/-- A sweep leaves what is settled. -/
theorem Settled.eq (h : Settled f env e) (hF : IsSweep f F) : F env e = e := by
  induction h with
  | letIn _ _ ihvalue ihbody => rw [hF.letIn, ihvalue, ihbody]
  | node he _ hroot ih => rw [hF.node _ _ he, mapChildren_eq_self ih, hroot]

theorem IsSweep.idem (hF : IsSweep f F) (env : Bounds) (e : Expr) : F env (F env e) = F env e :=
  (hF.settled env e).eq hF

/-! ### What settles nodes -/

/-- What may become of a node with settled parts is settled, if literals and the truth values of other expressions are
left, and the node too where it stays. -/
theorem FoldResult.settled (h : FoldResult node e) (hnode : node.IsNoBinding) (hparts : ∀ c ∈ node.children, Settled f env c)
    (hliteral : ∀ v d, f env (.const v d) = .const v d)
    (htruth : ∀ p : Expr, p.value? = none → f env (.cast (.ofDType .bool) p) = .cast (.ofDType .bool) p)
    (hkeep : e = node → f env node = node) : Settled f env e := by
  cases h with
  | keep => exact .node hnode hparts (hkeep rfl)
  | part hp => exact hparts _ hp
  | @truth p hp hopen =>
    refine .node (fun _ _ _ heq => by cases heq) (fun c hc => ?_) (htruth p hopen)
    rw [List.mem_singleton.mp hc]
    exact hparts p hp
  | literal v d => exact .node (fun _ _ _ heq => by cases heq) (fun c hc => by cases hc) (hliteral v d)

variable [FloatOps]

/-- The truth value of an expression that is no literal stays. -/
theorem foldNode_truth {p : Expr} (hopen : p.value? = none) :
    foldNode (.cast (.ofDType .bool) p) = .cast (.ofDType .bool) p := by
  cases p with
  | const v d => cases hopen
  | _ => rfl

/-- Constant folding is a sweep, under any bounds. -/
theorem isSweep_fold : IsSweep (fun _ => foldNode) (fun _ => fold) where
  letIn _ v value body := mapBottomUp_eq foldNode (.letIn v value body)
  node _ e _ := mapBottomUp_eq foldNode e
  settles _ e he hparts :=
    (foldResult_foldNode e).settled he hparts (fun _ _ => rfl) (fun _ => foldNode_truth) id

/-- What becomes of a node by folding is no larger operation. -/
theorem foldNode_ne_binary {op : BinaryOp} {lhs rhs p : Expr} (hp : p ∈ (binary op lhs rhs).children) :
    p.foldNode ≠ binary op lhs rhs := by
  intro heq
  -- the operation would be a part of its own part
  have hsmaller := sizeOf_children hp
  have hresult := foldResult_foldNode p
  rw [heq] at hresult
  cases hresult with
  | keep => exact Nat.lt_irrefl _ hsmaller
  | part hpart => exact Nat.lt_asymm hsmaller (sizeOf_children hpart)

/-- Folding leaves a node that is left by folding behind bounds. -/
theorem foldNode_eq_of_boundNode_eq (h : boundNode env e = e) : e.foldNode = e := by
  cases e with
  | binary op lhs rhs =>
    have hbound := foldResult_boundBinary env op lhs rhs
    rw [boundNode] at h
    generalize boundBinary env op lhs rhs = b at h hbound
    cases hbound with
    | keep => exact h
    | part hp => exact absurd h (foldNode_ne_binary hp)
    | truth hp hopen =>
      rw [foldNode_truth hopen] at h
      cases h
    | literal v d => cases h
  | _ => exact h

theorem Settled.foldNode_eq (h : Settled boundNode env e) : e.foldNode = e := by
  cases h with
  | letIn => rfl
  | node _ _ hroot => exact foldNode_eq_of_boundNode_eq hroot

/-- What becomes of a node by bounds and folding is made of its parts, if folding leaves these. -/
theorem foldResult_boundNode (env : Bounds) (hparts : ∀ c ∈ e.children, c.foldNode = c) :
    FoldResult e (boundNode env e) := by
  cases e with
  | binary op lhs rhs =>
    have hbound := foldResult_boundBinary env op lhs rhs
    rw [boundNode]
    generalize boundBinary env op lhs rhs = b at hbound
    cases hbound with
    | keep => exact foldResult_foldNode _
    | part hp =>
      rw [hparts b hp]
      exact .part hp
    | truth hp hopen =>
      rw [foldNode_truth hopen]
      exact .truth hp hopen
    | literal v d => exact .literal v d
  | _ => exact foldResult_foldNode _

/-- Simplification by bounds is a sweep. -/
theorem isSweep_simplifyBounds : IsSweep boundNode simplifyBounds where
  letIn env v value body := by rw [simplifyBounds]
  node env e he := simplifyBounds_eq env he
  settles env e he hparts := by
    have hresult := foldResult_boundNode env fun c hc => (hparts c hc).foldNode_eq
    exact hresult.settled he hparts (fun _ _ => rfl) (fun _ => foldNode_truth) id

end Expr

/-! ## Statements -/

namespace Stmt

/-- Whether a statement holds no other statement. -/
def isLeaf : Stmt → Bool
  | letIn .. | forRange .. | ite .. | seq _ => false
  | eval _ | assign .. | store .. | assert .. | asm .. | raw .. | ret _ => true

variable {F : Bounds → Expr → Expr} {G : Bounds → Stmt → Stmt} {env : Bounds} {s : Stmt} {stmts : List Stmt}

theorem flatten_of_isLeaf (hs : s.isLeaf) : s.flatten = [s] := by
  cases s <;> first | rfl | cases hs

theorem block_of_length_ne_one (h : stmts.length ≠ 1) : block stmts = .seq stmts := by
  unfold block
  split
  · exact absurd rfl h
  · rfl

theorem mapOwnExprs_idem {f : Expr → Expr} (hf : ∀ e, f (f e) = f e) (s : Stmt) :
    (s.mapOwnExprs f).mapOwnExprs f = s.mapOwnExprs f := by
  have hcomp : f ∘ f = f := funext hf
  cases s <;> simp [mapOwnExprs, hf, hcomp, Function.comp_def]

variable [FloatOps]

/-- Whether a rebuild of expressions under bounds, and simplification, leave all of a statement. The bodies of bindings
and loops stand under the bounds of their variables. -/
inductive Settled (F : Bounds → Expr → Expr) : Bounds → Stmt → Prop
  | letIn {env : Bounds} {v : Var} {value : Expr} {body : Stmt} (hvalue : F env value = value)
      (hbody : Settled F (env.bind v.name (value.interval env)) body) : Settled F env (.letIn v value body)
  | forRange {env : Bounds} {v : Var} {extent : Expr} {unroll : Option Bool} {body : Stmt}
      (hextent : F env extent = extent) (hruns : isEmptyExtent extent = false)
      (hbody : Settled F (env.bind v.name (.below (extent.interval env).hi)) body) :
      Settled F env (.forRange v extent unroll body)
  | ite {env : Bounds} {cond : Expr} {thenS : Stmt} {elseS : Option Stmt} (hcond : F env cond = cond)
      (hopen : cond.value? = none) (hthen : Settled F env thenS) (helse : ∀ s, elseS = some s → Settled F env s) :
      Settled F env (.ite cond thenS elseS)
  | seq {env : Bounds} {stmts : List Stmt} (hlength : stmts.length ≠ 1) (hflat : ∀ s ∈ stmts, s.flatten = [s])
      (hparts : ∀ s ∈ stmts, Settled F env s) : Settled F env (.seq stmts)
  | leaf {env : Bounds} {s : Stmt} (hs : s.isLeaf) (hexprs : s.mapOwnExprs (F env) = s) (hroot : s.foldNode = s) :
      Settled F env s

/-- A sweep over statements: their expressions are rebuilt, then their parts, and then they are simplified. -/
structure IsSweep (F : Bounds → Expr → Expr) (G : Bounds → Stmt → Stmt) : Prop where
  idem : ∀ env e, F env (F env e) = F env e
  letIn : ∀ env v value body, G env (.letIn v value body) =
    foldNode (.letIn v (F env value) (G (env.bind v.name ((F env value).interval env)) body))
  forRange : ∀ env v extent unroll body, G env (.forRange v extent unroll body) =
    foldNode (.forRange v (F env extent) unroll (G (env.bind v.name (.below ((F env extent).interval env).hi)) body))
  ite : ∀ env cond thenS elseS, G env (.ite cond thenS elseS) =
    foldNode (.ite (F env cond) (G env thenS) (elseS.map (G env)))
  seq : ∀ env stmts, G env (.seq stmts) = foldNode (.seq (stmts.map (G env)))
  leaf : ∀ env (s : Stmt), s.isLeaf → G env s = foldNode (s.mapOwnExprs (F env))

theorem settled_nil : Settled F env (.seq []) :=
  .seq (by simp) (by simp) (by simp)

/-- The statements of a settled sequence stand for themselves. -/
theorem Settled.of_mem_flatten (h : Settled F env s) {t : Stmt} (ht : t ∈ s.flatten) :
    t.flatten = [t] ∧ Settled F env t := by
  cases h with
  | seq hlength hflat hparts =>
    rw [flatten, flattenAll_eq] at ht
    obtain ⟨u, hu, ht⟩ := List.mem_flatMap.mp ht
    rw [hflat u hu, List.mem_singleton] at ht
    rw [ht]
    exact ⟨hflat u hu, hparts u hu⟩
  | leaf hs hexprs hroot =>
    rw [flatten_of_isLeaf hs, List.mem_singleton] at ht
    rw [ht]
    exact ⟨flatten_of_isLeaf hs, .leaf hs hexprs hroot⟩
  | letIn hvalue hbody =>
    rw [List.mem_singleton.mp ht]
    exact ⟨rfl, .letIn hvalue hbody⟩
  | forRange hextent hruns hbody =>
    rw [List.mem_singleton.mp ht]
    exact ⟨rfl, .forRange hextent hruns hbody⟩
  | ite hcond hopen hthen helse =>
    rw [List.mem_singleton.mp ht]
    exact ⟨rfl, .ite hcond hopen hthen helse⟩

theorem settled_block (h : ∀ s ∈ stmts, s.flatten = [s] ∧ Settled F env s) : Settled F env (block stmts) := by
  unfold block
  split
  · exact (h _ List.mem_cons_self).2
  · rename_i hsingle
    refine .seq (fun hlength => ?_) (fun s hs => (h s hs).1) fun s hs => (h s hs).2
    obtain ⟨s, hs⟩ := List.length_eq_one_iff.mp hlength
    exact hsingle s hs

/-- A sequence of settled statements becomes a settled statement. -/
theorem settled_foldNode_seq (h : ∀ s ∈ stmts, Settled F env s) : Settled F env (foldNode (.seq stmts)) := by
  refine settled_block fun t ht => ?_
  rw [flattenAll_eq] at ht
  obtain ⟨s, hs, ht⟩ := List.mem_flatMap.mp ht
  exact (h s hs).of_mem_flatten ht

/-- What holds no other statement is left once it has been simplified. -/
theorem settled_foldNode_leaf (hs : s.isLeaf) (hexprs : s.mapOwnExprs (F env) = s) : Settled F env s.foldNode := by
  have hkeep (hroot : s.foldNode = s) : Settled F env s.foldNode := by
    rw [hroot]
    exact .leaf hs hexprs hroot
  cases s with
  | assert cond message =>
    cases hvalue : cond.value? with
    | none => exact hkeep (by rw [foldNode, hvalue])
    | some value =>
      by_cases htrue : value.truthy
      · have hgone : (assert cond message).foldNode = .seq [] := by simp [foldNode, hvalue, htrue]
        rw [hgone]
        exact settled_nil
      · exact hkeep (by simp [foldNode, hvalue, htrue])
  | letIn | forRange | ite | seq => cases hs
  | _ => exact hkeep rfl

theorem IsSweep.settled (hG : IsSweep F G) (env : Bounds) (s : Stmt) : Settled F env (G env s) := by
  induction s using Stmt.induct generalizing env with
  | node s ih =>
    cases s with
    | letIn v value body =>
      rw [hG.letIn]
      exact .letIn (hG.idem env value) (ih body (by simp [children]) _)
    | forRange v extent unroll body =>
      rw [hG.forRange, foldNode]
      split_ifs with hempty
      · exact settled_nil
      · exact .forRange (hG.idem env extent) (Bool.eq_false_iff.mpr hempty) (ih body (by simp [children]) _)
    | ite cond thenS elseS =>
      have hthen := ih thenS (by simp [children]) env
      have helse : ∀ t, elseS.map (G env) = some t → Settled F env t := by
        intro t ht
        obtain ⟨s, rfl, rfl⟩ := Option.map_eq_some_iff.mp ht
        exact ih s (by simp [children]) env
      rw [hG.ite, foldNode]
      split
      · split_ifs
        · exact hthen
        · cases helses : elseS.map (G env) with
          | none => exact settled_nil
          | some t => exact helse t helses
      · rename_i hopen
        exact .ite (hG.idem env cond) hopen hthen helse
    | seq stmts =>
      rw [hG.seq]
      exact settled_foldNode_seq (List.forall_mem_map.mpr fun s hs => ih s hs env)
    | _ =>
      rw [hG.leaf env _ rfl]
      exact settled_foldNode_leaf rfl (mapOwnExprs_idem (hG.idem env) _)

/-- A sweep leaves what is settled. -/
theorem Settled.eq (h : Settled F env s) (hG : IsSweep F G) : G env s = s := by
  induction h with
  | letIn hvalue _ ih =>
    rw [hG.letIn, hvalue, ih]
    rfl
  | forRange hextent hruns _ ih =>
    rw [hG.forRange, hextent, ih, foldNode, hruns]
    rfl
  | @ite env cond thenS elseS hcond hopen _ _ ihthen ihelse =>
    have helse : elseS.map (G env) = elseS := by
      cases elseS with
      | none => rfl
      | some t => rw [Option.map_some, ihelse t rfl]
    rw [hG.ite, hcond, ihthen, helse, foldNode, hopen]
  | @seq env stmts hlength hflat _ ih =>
    have hsame : stmts.map (G env) = stmts := (List.map_congr_left ih).trans (List.map_id stmts)
    have hopened : flattenAll stmts = stmts := by
      rw [flattenAll_eq, List.flatMap_def, List.map_congr_left hflat, ← List.flatMap_def, List.flatMap_singleton']
    rw [hG.seq, hsame, foldNode, hopened, block_of_length_ne_one hlength]
  | leaf hs hexprs hroot => rw [hG.leaf _ _ hs, hexprs, hroot]

theorem IsSweep.apply_apply (hG : IsSweep F G) (env : Bounds) (s : Stmt) : G env (G env s) = G env s :=
  (hG.settled env s).eq hG

theorem isSweep_fold : IsSweep (fun _ => Expr.fold) (fun _ => Stmt.fold) where
  idem := Expr.isSweep_fold.idem
  letIn _ _ _ _ := rfl
  forRange _ _ _ _ _ := rfl
  ite _ _ _ elseS := by cases elseS <;> rfl
  seq _ stmts := by
    rw [fold, map, mapAll_eq]
    rfl
  leaf _ s hs := by
    cases s with
    | letIn | forRange | ite | seq => cases hs
    | _ => rfl

theorem isSweep_simplifyBounds : IsSweep Expr.simplifyBounds simplifyBounds where
  idem := Expr.isSweep_simplifyBounds.idem
  letIn _ _ _ _ := by rw [simplifyBounds]
  forRange _ _ _ _ _ := by rw [simplifyBounds]
  ite _ _ _ elseS := by cases elseS <;> rw [simplifyBounds] <;> rfl
  seq env stmts := by rw [simplifyBounds, simplifyAllBounds_eq]
  leaf _ s hs := by
    cases s with
    | letIn | forRange | ite | seq => cases hs
    | _ => simp [simplifyBounds]

end Stmt

end TensorCompiler
