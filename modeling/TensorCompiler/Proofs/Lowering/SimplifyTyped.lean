import TensorCompiler.Proofs.Lowering.Bounds
import TensorCompiler.Proofs.Program.WellTyped

/-! # Simplification keeps programs well typed

Constant folding, and simplification by bounds, replace a node by what is made of its parts and has its type. So a
rebuild of the whole keeps the variables that occur, their scopes and all types.
-/

namespace TensorCompiler

variable {vars : List Var}

/-! ## Simplification of expressions -/

namespace Expr

/-- Whether a rebuild of expressions keeps variables, scopes and types. -/
structure KeepsTyping (f : Expr → Expr) : Prop where
  var : ∀ v, f (.var v) = .var v
  wellTyped : ∀ {vars : List Var} {e : Expr}, e.WellTyped vars → (f e).WellTyped vars
  inferType : ∀ {vars : List Var} {e : Expr}, e.WellTyped vars → (f e).inferType = e.inferType

variable {f F : Expr → Expr} {e node : Expr} {d : DType}

theorem KeepsTyping.hasDType (hf : KeepsTyping f) (h : e.WellTyped vars) (hd : e.HasDType d) : (f e).HasDType d :=
  (hf.inferType h).trans hd

theorem WellTyped.isComputeNode (h : e.WellTyped vars) : e.isComputeNode = false := by
  cases h <;> rfl

theorem WellTyped.isTypedNode (h : e.WellTyped vars) : e.IsTypedNode := by
  cases h with
  | unary _ _ htype => exact ⟨_, htype⟩
  | binary _ _ _ hl hr => exact ⟨_, hl, hr⟩
  | ite _ _ _ _ ht he => exact ⟨_, ht, he⟩
  | _ => trivial

theorem FoldResult.wellTyped (h : FoldResult node e) (hnode : node.WellTyped vars) : e.WellTyped vars := by
  cases h with
  | keep => exact hnode
  | part hp => exact hnode.child hp
  | truth hp _ => exact .cast rfl (hnode.child hp)
  | literal v d => exact .const v d

/-- Parts may be replaced by parts of the same types. -/
theorem WellTyped.mapChildren (h : e.WellTyped vars) (hvar : ∀ v, f (.var v) = .var v)
    (hf : ∀ c ∈ e.children, (f c).WellTyped vars ∧ (f c).inferType = c.inferType) : (e.mapChildren f).WellTyped vars := by
  have htyped {c : Expr} {d : DType} (hc : c ∈ e.children) (hd : c.HasDType d) : (f c).HasDType d := (hf c hc).2.trans hd
  cases h with
  | var hv => exact .var hv
  | const v d => exact .const v d
  | @unary op arg _ _ htype =>
    have harg : arg ∈ (Expr.unary op arg).children := by simp [children]
    exact .unary op (hf arg harg).1 (htyped harg htype)
  | @binary op lhs rhs _ _ _ htypeL htypeR =>
    have hl : lhs ∈ (Expr.binary op lhs rhs).children := by simp [children]
    have hr : rhs ∈ (Expr.binary op lhs rhs).children := by simp [children]
    exact .binary op (hf lhs hl).1 (hf rhs hr).1 (htyped hl htypeL) (htyped hr htypeR)
  | @ite cond thenE elseE _ _ _ _ hbool htypeT htypeE =>
    have hcond : cond ∈ (Expr.ite cond thenE elseE).children := by simp [children]
    have hthen : thenE ∈ (Expr.ite cond thenE elseE).children := by simp [children]
    have helse : elseE ∈ (Expr.ite cond thenE elseE).children := by simp [children]
    exact .ite (hf cond hcond).1 (hf thenE hthen).1 (hf elseE helse).1 (htyped hcond hbool) (htyped hthen htypeT)
      (htyped helse htypeE)
  | @element v indices hv hrank hindices htypes =>
    have hindex {i : Expr} (hi : i ∈ indices) : i ∈ (Expr.element (.var v) indices).children := List.mem_cons_of_mem _ hi
    rw [Expr.mapChildren, hvar]
    refine .element hv (hrank.trans (congrArg some (List.length_map _).symm)) ?_ ?_
    · exact List.forall_mem_map.mpr fun i hi => (hf i (hindex hi)).1
    · exact List.forall_mem_map.mpr fun i hi => htyped (hindex hi) (htypes i hi)
  | call func hargs => exact .call func (List.forall_mem_map.mpr fun a ha => (hf a ha).1)
  | @cast target arg htarget _ => exact .cast htarget (hf arg (by simp [children])).1
  | @deref arg _ => exact .deref (hf arg (by simp [children])).1

/-- A rebuild that replaces each node behind its parts by what keeps scopes and types keeps them. -/
theorem KeepsTyping.of_rebuild (hvar : ∀ v, f (.var v) = .var v)
    (hF : ∀ {vars : List Var} {e : Expr}, e.WellTyped vars → F e = f (e.mapChildren F))
    (hf : ∀ {vars : List Var} {e : Expr}, e.WellTyped vars → (f e).WellTyped vars ∧ (f e).inferType = e.inferType) :
    KeepsTyping F := by
  have hleaf : ∀ v, F (.var v) = .var v := fun v => (hF (.var (Var.isBound_cons_self v []))).trans (hvar v)
  have hboth {vars : List Var} {e : Expr} (h : e.WellTyped vars) : (F e).WellTyped vars ∧ (F e).inferType = e.inferType := by
    induction e using Expr.induct with
    | node e ih =>
      have hparts : ∀ c ∈ e.children, (F c).WellTyped vars ∧ (F c).inferType = c.inferType :=
        fun c hc => ih c hc (h.child hc)
      obtain ⟨hnode, htype⟩ := hf (h.mapChildren hleaf hparts)
      rw [hF h]
      exact ⟨hnode, htype.trans (inferType_mapChildren h.isComputeNode fun c hc => (hparts c hc).2)⟩
  exact ⟨hleaf, fun h => (hboth h).1, fun h => (hboth h).2⟩

variable [FloatOps]

theorem WellTyped.foldNode (h : e.WellTyped vars) : e.foldNode.WellTyped vars ∧ e.foldNode.inferType = e.inferType :=
  ⟨(foldResult_foldNode e).wellTyped h, inferType_foldNode h.isTypedNode⟩

/-- Constant folding keeps scopes and types. -/
theorem keepsTyping_fold : KeepsTyping fold :=
  .of_rebuild (fun _ => rfl) (fun {_ e} _ => mapBottomUp_eq Expr.foldNode e) WellTyped.foldNode

theorem WellTyped.boundNode (h : e.WellTyped vars) (env : Bounds) :
    (boundNode env e).WellTyped vars ∧ (Expr.boundNode env e).inferType = e.inferType := by
  cases e with
  | binary op lhs rhs =>
    have hbound := (foldResult_boundBinary env op lhs rhs).wellTyped h
    obtain ⟨d, hl, hr⟩ := h.isTypedNode
    have htype : (boundBinary env op lhs rhs).inferType = (Expr.binary op lhs rhs).inferType :=
      (hl.boundBinary hr).trans (hl.binary op hr).symm
    exact ⟨hbound.foldNode.1, hbound.foldNode.2.trans htype⟩
  | _ => exact h.foldNode

/-- Simplification by bounds keeps scopes and types. -/
theorem keepsTyping_simplifyBounds (env : Bounds) : KeepsTyping (simplifyBounds env) :=
  .of_rebuild (fun _ => rfl)
    (fun h => simplifyBounds_eq env fun v value body heq => by rw [heq] at h; cases h) fun h => h.boundNode env

end Expr

/-! ## Simplification of statements -/

namespace Stmt

variable {s t : Stmt} {stmts : List Stmt}

/-- Rebuilding the expressions of a statement keeps it well typed. -/
theorem WellTyped.mapOwnExprs {f : Expr → Expr} (h : s.WellTyped vars) (hf : Expr.KeepsTyping f) :
    (s.mapOwnExprs f).WellTyped vars := by
  cases h with
  | eval he => exact .eval (hf.wellTyped he)
  | assign hv hty hvalue htype => exact .assign hv hty (hf.wellTyped hvalue) (hf.hasDType hvalue htype)
  | store hv helement hrank hindices htypes hvalue htype =>
    rw [Stmt.mapOwnExprs, hf.var]
    refine .store hv helement (hrank.trans (congrArg some (List.length_map _).symm)) ?_ ?_ (hf.wellTyped hvalue)
      (hf.hasDType hvalue htype)
    · exact List.forall_mem_map.mpr fun i hi => hf.wellTyped (hindices i hi)
    · exact List.forall_mem_map.mpr fun i hi => hf.hasDType (hindices i hi) (htypes i hi)
  | letIn hty hhides hvalue htype hbody =>
    exact .letIn hty hhides (hf.wellTyped hvalue) (hf.hasDType hvalue htype) hbody
  | forRange unroll hty hhides hextent htype hbody =>
    exact .forRange unroll hty hhides (hf.wellTyped hextent) (hf.hasDType hextent htype) hbody
  | ifThen hcond hbool hthen => exact .ifThen (hf.wellTyped hcond) (hf.hasDType hcond hbool) hthen
  | ifElse hcond hbool hthen helse => exact .ifElse (hf.wellTyped hcond) (hf.hasDType hcond hbool) hthen helse
  | assert message hcond hbool => exact .assert message (hf.wellTyped hcond) (hf.hasDType hcond hbool)
  | seq h => exact .seq h

theorem flattenAll_eq (stmts : List Stmt) : flattenAll stmts = stmts.flatMap flatten := by
  induction stmts with
  | nil => rfl
  | cons s stmts ih => rw [flattenAll, ih, List.flatMap_cons]

/-- The statements of opened sequences are well typed in the scope of the sequences. -/
theorem WellTyped.of_mem_flatten (h : s.WellTyped vars) (ht : t ∈ s.flatten) : t.WellTyped vars := by
  induction s using Stmt.induct with
  | node s ih =>
    cases s with
    | seq stmts =>
      rw [Stmt.flatten, flattenAll_eq] at ht
      obtain ⟨u, hu, ht⟩ := List.mem_flatMap.mp ht
      cases h with
      | seq h => exact ih u hu (h u hu) ht
    | _ =>
      rw [List.mem_singleton.mp ht]
      exact h

variable [FloatOps]

/-- What a statement becomes whose parts are simplified is well typed in its scope. -/
theorem WellTyped.foldNode (h : s.WellTyped vars) : s.foldNode.WellTyped vars := by
  have hempty : (Stmt.seq []).WellTyped vars := .seq (by simp)
  cases s with
  | ite cond thenS elseS =>
    rw [Stmt.foldNode]
    split
    · cases h with
      | ifThen _ _ hthen =>
        split_ifs
        · exact hthen
        · exact hempty
      | ifElse _ _ hthen helse =>
        split_ifs
        · exact hthen
        · exact helse
    · exact h
  | forRange v extent unroll body =>
    rw [Stmt.foldNode]
    split_ifs
    · exact hempty
    · exact h
  | assert cond message =>
    rw [Stmt.foldNode]
    split
    · split_ifs
      · exact hempty
      · exact h
    · exact h
  | seq stmts =>
    cases h with
    | seq h =>
      refine .block fun t ht => ?_
      rw [flattenAll_eq] at ht
      obtain ⟨u, hu, ht⟩ := List.mem_flatMap.mp ht
      exact (h u hu).of_mem_flatten ht
  | _ => exact h

/-- Constant folding keeps a statement well typed. -/
theorem WellTyped.fold (h : s.WellTyped vars) : s.fold.WellTyped vars := by
  have K := Expr.keepsTyping_fold
  induction h with
  | eval he => exact ((WellTyped.eval he).mapOwnExprs K).foldNode
  | assign hv hty hvalue htype => exact ((WellTyped.assign hv hty hvalue htype).mapOwnExprs K).foldNode
  | store hv helement hrank hindices htypes hvalue htype =>
    exact ((WellTyped.store hv helement hrank hindices htypes hvalue htype).mapOwnExprs K).foldNode
  | letIn hty hhides hvalue htype _ ih => exact ((WellTyped.letIn hty hhides hvalue htype ih).mapOwnExprs K).foldNode
  | forRange unroll hty hhides hextent htype _ ih =>
    exact ((WellTyped.forRange unroll hty hhides hextent htype ih).mapOwnExprs K).foldNode
  | ifThen hcond hbool _ iht => exact ((WellTyped.ifThen hcond hbool iht).mapOwnExprs K).foldNode
  | ifElse hcond hbool _ _ iht ihe => exact ((WellTyped.ifElse hcond hbool iht ihe).mapOwnExprs K).foldNode
  | assert message hcond hbool => exact ((WellTyped.assert message hcond hbool).mapOwnExprs K).foldNode
  | @seq _ stmts _ ih =>
    have hall : (Stmt.seq (stmts.map Stmt.fold)).WellTyped _ := .seq (List.forall_mem_map.mpr ih)
    rw [Stmt.fold, Stmt.map, mapAll_eq]
    exact hall.foldNode

/-- Simplification by bounds keeps a statement well typed. -/
theorem WellTyped.simplifyBounds (h : s.WellTyped vars) (env : Bounds) : (s.simplifyBounds env).WellTyped vars := by
  have K := Expr.keepsTyping_simplifyBounds
  induction h generalizing env with
  | eval he => exact ((WellTyped.eval he).mapOwnExprs (K env)).foldNode
  | assign hv hty hvalue htype => exact ((WellTyped.assign hv hty hvalue htype).mapOwnExprs (K env)).foldNode
  | store hv helement hrank hindices htypes hvalue htype =>
    exact ((WellTyped.store hv helement hrank hindices htypes hvalue htype).mapOwnExprs (K env)).foldNode
  | letIn hty hhides hvalue htype _ ih =>
    exact ((WellTyped.letIn hty hhides hvalue htype (ih _)).mapOwnExprs (K env)).foldNode
  | forRange unroll hty hhides hextent htype _ ih =>
    exact ((WellTyped.forRange unroll hty hhides hextent htype (ih _)).mapOwnExprs (K env)).foldNode
  | ifThen hcond hbool _ iht => exact ((WellTyped.ifThen hcond hbool (iht env)).mapOwnExprs (K env)).foldNode
  | ifElse hcond hbool _ _ iht ihe =>
    exact ((WellTyped.ifElse hcond hbool (iht env) (ihe env)).mapOwnExprs (K env)).foldNode
  | assert message hcond hbool => exact ((WellTyped.assert message hcond hbool).mapOwnExprs (K env)).foldNode
  | @seq _ stmts _ ih =>
    have hall : (Stmt.seq (stmts.map (Stmt.simplifyBounds env))).WellTyped _ :=
      .seq (List.forall_mem_map.mpr fun s hs => ih s hs env)
    rw [Stmt.simplifyBounds, simplifyAllBounds_eq]
    exact hall.foldNode

end Stmt

end TensorCompiler
