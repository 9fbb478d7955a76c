import TensorCompiler.Proofs.Expr.TypingRules
import TensorCompiler.Proofs.Lowering.BoundsExpr

/-! # Simplification keeps the types of resolved expressions

What constant folding and bounds make of an expression without open fields has none, and has the type of the expression
up to the extents of tensors, which are simplified along. Nothing else is asked of the expression: parts whose types
inference does not look at may have none, and any element types and nodes may occur.
-/

namespace TensorCompiler

namespace Expr

variable {e node : Expr} {ty : Ty}

/-! ## Nodes -/

/-- A node of known type is one of typed code. -/
theorem Infers.isTypedNode (h : e.Infers ty) (hresolved : e.isResolved) : e.IsTypedNode := by
  have hpart {c : Expr} {s : ScalarType} (hc : c ∈ e.children) (hs : c.Infers (.scalar s)) :
      ∃ d, s = .known d ∧ c.HasDType d := hs.exists_hasDType (isResolved_of_child hresolved hc)
  cases h with
  | not h | arith _ h =>
    obtain ⟨d, -, hd⟩ := hpart (by simp [children]) h
    exact ⟨d, hd⟩
  | truth _ hl hr hu | binary _ hl hr hu | ite hl hr hu =>
    obtain ⟨c, rfl, hc⟩ := hpart (by simp [children]) hl
    obtain ⟨d, rfl, hd⟩ := hpart (by simp [children]) hr
    obtain rfl := unify_known_inv hu
    exact ⟨c, hc, hd⟩
  | _ => trivial

/-- What a resolved node may become has no open field. -/
theorem FoldResult.isResolved (h : FoldResult node e) (hnode : node.isResolved) : e.isResolved := by
  cases h with
  | keep => exact hnode
  | part hp => exact isResolved_of_child hnode hp
  | truth hp _ =>
    rw [Expr.isResolved, isResolved_of_child hnode hp]
    rfl
  | literal => rfl

/-- Whether a replacement of nodes leaves no field open and keeps the types of resolved nodes. -/
def KeepsResolved (f : Expr → Expr) : Prop :=
  ∀ node : Expr, node.isResolved → (f node).isResolved ∧ ∀ ty, node.Infers ty → (f node).Infers ty

section

variable [FloatOps]

theorem keepsResolved_foldNode : KeepsResolved foldNode := by
  intro node hnode
  refine ⟨(foldResult_foldNode node).isResolved hnode, fun ty hty => infers_of_inferType ?_⟩
  rw [inferType_foldNode (hty.isTypedNode hnode)]
  exact hty.inferType_eq

theorem keepsResolved_boundNode (env : Bounds) : KeepsResolved (boundNode env) := by
  intro node hnode
  cases node with
  | binary op lhs rhs =>
    have hbound := (foldResult_boundBinary env op lhs rhs).isResolved hnode
    obtain ⟨hfolded, htyped⟩ := keepsResolved_foldNode _ hbound
    refine ⟨hfolded, fun ty hty => htyped ty (infers_of_inferType ?_)⟩
    obtain ⟨d, hl, hr⟩ := hty.isTypedNode hnode
    exact (hl.boundBinary hr).trans ((hl.binary op hr).symm.trans hty.inferType_eq)
  | _ => exact keepsResolved_foldNode _ hnode

end

/-! ## Expressions -/

/-- A node whose parts are rebuilt and which is then replaced retains its type. -/
theorem KeepsResolved.rebuild {f F : Expr → Expr} (hf : KeepsResolved f) (hresolved : e.isResolved)
    (hF : ∀ c ∈ e.children, (F c).isResolved ∧ c.RetainsType (F c)) :
    (f (e.mapChildren F)).isResolved ∧ e.RetainsType (f (e.mapChildren F)) := by
  obtain ⟨hkept, htypes⟩ := hf _ (isResolved_mapChildren hresolved fun c hc => (hF c hc).1)
  refine ⟨hkept, fun ty hty => ?_⟩
  obtain ⟨ty', hty', hresembles⟩ := RetainsType.mapChildren (fun c hc => (hF c hc).2) ty hty
  exact ⟨ty', htypes ty' hty', hresembles⟩

section

variable [FloatOps]

theorem retainsType_fold (hresolved : e.isResolved) : e.fold.isResolved ∧ e.RetainsType e.fold := by
  induction e using Expr.induct with
  | node e ih =>
    rw [fold, mapBottomUp_eq]
    exact keepsResolved_foldNode.rebuild hresolved fun c hc => ih c hc (isResolved_of_child hresolved hc)

theorem retainsType_simplifyBounds (hresolved : e.isResolved) (env : Bounds) :
    (e.simplifyBounds env).isResolved ∧ e.RetainsType (e.simplifyBounds env) := by
  induction e using Expr.induct generalizing env with
  | node e ih =>
    have hpart (env : Bounds) : ∀ c ∈ e.children, (c.simplifyBounds env).isResolved ∧ c.RetainsType (c.simplifyBounds env) :=
      fun c hc => ih c hc (isResolved_of_child hresolved hc) env
    by_cases hlet : ∃ v value body, e = letIn v value body
    · -- the body of a binding is simplified under other bounds than its value
      obtain ⟨v, value, body, rfl⟩ := hlet
      rw [simplifyBounds]
      obtain ⟨hvalue, -⟩ := hpart env value (by simp [children])
      obtain ⟨hbody, htype⟩ := hpart (env.bind v.name ((value.simplifyBounds env).interval env)) body (by simp [children])
      refine ⟨by rw [Expr.isResolved, hvalue, hbody, Bool.and_self], fun ty hty => ?_⟩
      cases hty with
      | letIn h =>
        obtain ⟨ty', hty', hresembles⟩ := htype ty h
        exact ⟨ty', .letIn hty', hresembles⟩
    · rw [simplifyBounds_eq env fun v value body heq => hlet ⟨v, value, body, heq⟩]
      exact (keepsResolved_boundNode env).rebuild hresolved (hpart env)

/-- Simplification preserves types: constant folding, and simplification under any bounds for the variables in scope and
the hardware indices, leave the type of an expression without open fields that is a scalar. -/
theorem HasDType.simplify_of_isResolved {d : DType} (h : e.HasDType d) (hresolved : e.isResolved) :
    e.fold.HasDType d ∧ ∀ env : Bounds, (e.simplifyBounds env).HasDType d :=
  ⟨(retainsType_fold hresolved).2.hasDType h, fun env => (retainsType_simplifyBounds hresolved env).2.hasDType h⟩

end

/-- An element that is read through a pointer if the index lies in the tensor, and otherwise a cast of an operand that has no
type. -/
def guardedRead : Expr :=
  .ite (.lt (.var (.int "i")) (.int 8))
    (.element (.deref (.addr (.tensorInput "x" (.known .float32) (some [.int 4 + .int 4])))) [.var (.int "i") % .int 8])
    (.cast (.ofDType .float32) (.deref (.int 0)))

/-- Whether the bounds drop the guard and the remainder or do not, the guarded element is a float. -/
theorem hasDType_simplify_guardedRead :
    guardedRead.simplifyBounds { vars := [("i", ⟨some 0, some 7⟩)], threadIdx := .any, blockIdx := .any, blockDim := .any } =
        .element (.deref (.addr (.tensorInput "x" (.known .float32) (some [.int 8])))) [.var (.int "i")] ∧
      guardedRead.fold.HasDType .float32 ∧ ∀ env : Bounds, (guardedRead.simplifyBounds env).HasDType .float32 :=
  ⟨rfl, HasDType.simplify_of_isResolved rfl rfl⟩

end Expr

end TensorCompiler
