import Mathlib.Tactic.Common
import TensorCompiler.Expr.Folding
import TensorCompiler.Proofs.Scalar.Typing

/-! # Scalar types of expressions

`Expr.HasDType e d` says that `e` is a scalar of the known type `d`. The lemmas read the type of a node off
the types of its operands and back, and show that folding a node keeps its type.
-/

namespace TensorCompiler

namespace Expr

/-- Whether an expression is a scalar of the given known type. -/
def HasDType (e : Expr) (d : DType) : Prop :=
  e.inferType = .ok (.ofDType d)

theorem HasDType.unique {e : Expr} {c d : DType} (hc : e.HasDType c) (hd : e.HasDType d) : c = d := by
  have h : Except.ok (ε := Error) (Ty.ofDType c) = .ok (.ofDType d) := hc.symm.trans hd
  simpa [Ty.ofDType] using h

/-- The known type of an expression, as a statement about `inferType`. -/
theorem knownDType?_eq_some_iff {e : Expr} {d : DType} : e.knownDType? = some d ↔ e.HasDType d := by
  unfold knownDType? HasDType
  split
  · rename_i dtype h
    rw [h]
    simp [Ty.ofDType]
  · rename_i h
    constructor
    · intro hnone
      cases hnone
    · intro hd
      exact absurd hd (h d)

theorem knownDType?_congr {e e' : Expr} (h : e'.inferType = e.inferType) : e'.knownDType? = e.knownDType? := by
  unfold knownDType?
  rw [h]

theorem integerType?_eq_some_iff {e : Expr} {d : DType} :
    e.integerType? = some d ↔ e.HasDType d ∧ d.isInteger := by
  simp [integerType?, Option.filter_eq_some_iff, knownDType?_eq_some_iff]

section Nodes

variable {d : DType}

theorem hasDType_const {v : Value} {c : DType} : (const v c).HasDType d ↔ c = d := by
  simp [HasDType, inferType, Ty.ofDType]

theorem hasDType_literal (v : Value) (d : DType) : (literal v d).HasDType d :=
  hasDType_const.mpr rfl

theorem hasDType_bool (b : Bool) : (bool b).HasDType .bool :=
  hasDType_const.mpr rfl

theorem hasDType_cast {c : DType} {e : Expr} : (cast (.ofDType c) e).HasDType d ↔ c = d := by
  simp [HasDType, inferType, Ty.ofDType]

theorem HasDType.scalarOrFault {e : Expr} (h : e.HasDType d) :
    (e.inferType >>= Ty.scalarOrFault) = .ok (.known d) := by
  rw [HasDType] at h
  rw [h]
  rfl

theorem HasDType.unary {e : Expr} (op : UnaryOp) (h : e.HasDType d) : (unary op e).HasDType (op.typeOn d) := by
  rw [HasDType] at h ⊢
  simp only [inferType, h]
  cases op <;> rfl

theorem HasDType.binary {lhs rhs : Expr} (op : BinaryOp) (hl : lhs.HasDType d) (hr : rhs.HasDType d) :
    (binary op lhs rhs).HasDType (op.typeOn d) := by
  rw [HasDType] at hl hr ⊢
  simp only [inferType, hl, hr, BinaryOp.typeOn]
  cases op <;> simp [Ty.ofDType, Ty.scalarOrFault, unify, bind, Except.bind, pure, Except.pure,
    BinaryOp.isComparison, BinaryOp.isLogical]

theorem HasDType.ite {cond thenE elseE : Expr} (ht : thenE.HasDType d) (he : elseE.HasDType d) :
    (ite cond thenE elseE).HasDType d := by
  rw [HasDType] at ht he ⊢
  simp [inferType, ht, he, Ty.ofDType, Ty.scalarOrFault, unify, bind, Except.bind, pure, Except.pure]

/-- The operands of a typed unary operation are scalars. -/
theorem inferType_unary_inv {op : UnaryOp} {e : Expr} {ty : Ty} (h : (unary op e).inferType = .ok ty) :
    ∃ s, e.inferType = .ok (.scalar s) := by
  simp only [inferType] at h
  cases he : e.inferType with
  | error err => simp [he, bind, Except.bind] at h
  | ok t => cases t <;> simp_all [Ty.scalarOrFault, bind, Except.bind]

/-- The operands of a typed binary operation are scalars with a common type. -/
theorem inferType_binary_inv {op : BinaryOp} {lhs rhs : Expr} {ty : Ty}
    (h : (binary op lhs rhs).inferType = .ok ty) :
    ∃ a b u, lhs.inferType = .ok (.scalar a) ∧ rhs.inferType = .ok (.scalar b) ∧ unify op.symbol a b = .ok u := by
  simp only [inferType] at h
  cases hl : lhs.inferType with
  | error err => simp [hl, bind, Except.bind] at h
  | ok tl =>
    cases hr : rhs.inferType with
    | error err => cases tl <;> simp [hl, hr, Ty.scalarOrFault, bind, Except.bind] at h
    | ok tr =>
      cases tl <;> cases tr <;> simp only [hl, hr, Ty.scalarOrFault, bind, Except.bind, reduceCtorEq] at h
      rename_i a b
      cases hu : unify op.symbol a b with
      | error err => simp [hu] at h
      | ok u => exact ⟨a, b, u, rfl, rfl, hu⟩

/-- The branches of a typed choice are scalars with a common type. -/
theorem inferType_ite_inv {cond thenE elseE : Expr} {ty : Ty} (h : (ite cond thenE elseE).inferType = .ok ty) :
    ∃ a b u, thenE.inferType = .ok (.scalar a) ∧ elseE.inferType = .ok (.scalar b) ∧
      unify "if_then_else" a b = .ok u := by
  simp only [inferType] at h
  cases hl : thenE.inferType with
  | error err => simp [hl, bind, Except.bind] at h
  | ok tl =>
    cases hr : elseE.inferType with
    | error err => cases tl <;> simp [hl, hr, Ty.scalarOrFault, bind, Except.bind] at h
    | ok tr =>
      cases tl <;> cases tr <;> simp only [hl, hr, Ty.scalarOrFault, bind, Except.bind, reduceCtorEq] at h
      rename_i a b
      cases hu : unify "if_then_else" a b with
      | error err => simp [hu] at h
      | ok u => exact ⟨a, b, u, rfl, rfl, hu⟩

theorem inferType_element (v : Var) (indices : List Expr) : (element (.var v) indices).inferType = v.ty.elementType := by
  simp only [inferType]
  rfl

/-- Two known types with a common type are equal. -/
theorem unify_known_inv {op : String} {a b : DType} {u : ScalarType}
    (h : unify op (.known a) (.known b) = .ok u) : a = b := by
  unfold unify at h
  split at h
  · rename_i x y hx hy
    split at h
    · simp_all
    · cases h
  · simp_all
  · simp_all

/-- The operands of a typed binary operation, where their types are known, have one type. -/
theorem HasDType.operands_eq {c : DType} {op : BinaryOp} {lhs rhs : Expr} {ty : Ty} (hl : lhs.HasDType c)
    (hr : rhs.HasDType d) (h : (Expr.binary op lhs rhs).inferType = .ok ty) : c = d := by
  obtain ⟨a, b, u, ha, hb, hu⟩ := inferType_binary_inv h
  obtain rfl : a = .known c := by simpa [HasDType, ha, Ty.ofDType] using hl
  obtain rfl : b = .known d := by simpa [HasDType, hb, Ty.ofDType] using hr
  exact unify_known_inv hu

/-- The branches of a typed choice, where their types are known, have one type. -/
theorem HasDType.branches_eq {c : DType} {cond thenE elseE : Expr} {ty : Ty} (ht : thenE.HasDType c)
    (he : elseE.HasDType d) (h : (Expr.ite cond thenE elseE).inferType = .ok ty) : c = d := by
  obtain ⟨a, b, u, ha, hb, hu⟩ := inferType_ite_inv h
  obtain rfl : a = .known c := by simpa [HasDType, ha, Ty.ofDType] using ht
  obtain rfl : b = .known d := by simpa [HasDType, hb, Ty.ofDType] using he
  exact unify_known_inv hu

end Nodes

end Expr

end TensorCompiler
