import TensorCompiler.Proofs.Expr.Traversal
import TensorCompiler.Proofs.Expr.Typing
import TensorCompiler.Proofs.Result

/-! # The rules of type inference

Inference as a judgment with a rule for each kind of node, for proofs that follow a derivation. Inference looks at some
parts of a node only: conditions, indices, operands of casts and most arguments of calls need no type.

Types *resemble* each other if they differ at most in the extents of tensors. Parts of an expression may be replaced by
parts whose types resemble theirs, and scalars that resemble each other are equal.
-/

namespace TensorCompiler

/-! ## Types -/

namespace Ty

/-- Types that differ at most in the scopes, extents and strides of the tensors that they refer to. -/
inductive Resembles : Ty → Ty → Prop
  | refl (ty : Ty) : Resembles ty ty
  | tensor {t t' : TensorType} (h : t'.dtype = t.dtype) : Resembles (.tensor t) (.tensor t')
  | pointer {a b : Ty} (h : Resembles a b) : Resembles (.pointer a) (.pointer b)
  | reference {a b : Ty} (h : Resembles a b) : Resembles (.reference a) (.reference b)

variable {ty ty' r : Ty}

theorem Resembles.eq_scalar {s : ScalarType} (h : Resembles (.scalar s) ty') : ty' = .scalar s := by
  cases h
  rfl

theorem Resembles.elementType (h : ty.Resembles ty') (hr : ty.elementType = .ok r) :
    ∃ r', ty'.elementType = .ok r' ∧ r.Resembles r' := by
  cases h with
  | refl => exact ⟨r, hr, .refl r⟩
  | tensor h =>
    cases hr
    exact ⟨_, rfl, h ▸ .refl _⟩
  | pointer h =>
    cases hr
    exact ⟨_, rfl, h⟩
  | reference => cases hr

theorem Resembles.pointee (h : ty.Resembles ty') (hr : ty.pointee = .ok r) :
    ∃ r', ty'.pointee = .ok r' ∧ r.Resembles r' := by
  cases h with
  | refl => exact ⟨r, hr, .refl r⟩
  | tensor => cases hr
  | pointer h | reference h =>
    cases hr
    exact ⟨_, rfl, h⟩

theorem scalarOrFault_eq_ok_iff {s : ScalarType} : ty.scalarOrFault = .ok s ↔ ty = .scalar s := by
  cases ty <;> simp [scalarOrFault]

end Ty

/-- The element type of a tensor without open fields is known. -/
theorem TensorType.isResolved_dtype {t : TensorType} (h : t.isResolved) : t.dtype.isResolved := by
  obtain ⟨scope, dtype, shape, strides⟩ := t
  cases dtype with
  | known => rfl
  | hole => cases scope <;> cases shape <;> cases strides <;> cases h

theorem Ty.isResolved_elementType {ty r : Ty} (h : ty.isResolved) (hr : ty.elementType = .ok r) : r.isResolved := by
  cases ty with
  | tensor t | tensorPointer t =>
    cases hr
    exact TensorType.isResolved_dtype h
  | pointer base =>
    cases hr
    exact h
  | _ => cases hr

theorem Ty.isResolved_pointee {ty r : Ty} (h : ty.isResolved) (hr : ty.pointee = .ok r) : r.isResolved := by
  cases ty with
  | pointer base | reference base | tensorPointer t =>
    cases hr
    exact h
  | _ => cases hr

/-- A tensor in global memory has no open field if its element type and extents have none. -/
theorem Ty.isResolved_tensor {s : ScalarType} {shape : List Expr} (hs : s.isResolved) (hshape : Expr.allResolved shape) :
    Ty.isResolved (.tensor ⟨.known .global, s, some shape, none⟩) := by
  cases s with
  | known d => exact hshape
  | hole => cases hs

theorem isResolved_unify {op : String} {a b s : ScalarType} (ha : a.isResolved) (hb : b.isResolved)
    (h : unify op a b = .ok s) : s.isResolved := by
  cases a with
  | hole => cases ha
  | known c =>
    cases b with
    | hole => cases hb
    | known d =>
      rw [unify] at h
      split_ifs at h
      cases h
      rfl

namespace Expr

/-! ## The judgment -/

/-- The types that inference gives, with a rule for each way in which it succeeds. -/
inductive Infers : Expr → Ty → Prop
  | var (v : Var) : Infers (.var v) v.ty
  | const (v : Value) (d : DType) : Infers (.const v d) (.ofDType d)
  | not {arg : Expr} {s : ScalarType} (h : Infers arg (.scalar s)) : Infers (.unary .not arg) (.ofDType .bool)
  | arith {op : UnaryOp} {arg : Expr} {s : ScalarType} (hop : op ≠ .not) (h : Infers arg (.scalar s)) :
      Infers (.unary op arg) (.scalar s)
  | truth {op : BinaryOp} {lhs rhs : Expr} {a b u : ScalarType} (hop : (op.isComparison || op.isLogical) = true)
      (hl : Infers lhs (.scalar a)) (hr : Infers rhs (.scalar b)) (hu : unify op.symbol a b = .ok u) :
      Infers (.binary op lhs rhs) (.ofDType .bool)
  | binary {op : BinaryOp} {lhs rhs : Expr} {a b u : ScalarType} (hop : (op.isComparison || op.isLogical) = false)
      (hl : Infers lhs (.scalar a)) (hr : Infers rhs (.scalar b)) (hu : unify op.symbol a b = .ok u) :
      Infers (.binary op lhs rhs) (.scalar u)
  | letIn {v : Var} {value body : Expr} {ty : Ty} (h : Infers body ty) : Infers (.letIn v value body) ty
  | ite {cond thenE elseE : Expr} {a b u : ScalarType} (ht : Infers thenE (.scalar a)) (he : Infers elseE (.scalar b))
      (hu : unify "if_then_else" a b = .ok u) : Infers (.ite cond thenE elseE) (.scalar u)
  | element {base : Expr} {indices : List Expr} {ty r : Ty} (h : Infers base ty) (hr : ty.elementType = .ok r) :
      Infers (.element base indices) r
  | hardwareIndex {func : String} {args : List Expr} (hfunc : Primitive.isHardwareIndex func = true) :
      Infers (.call func args) (.ofDType .int32)
  | noArgument {func : String} (hindex : Primitive.isHardwareIndex func = false)
      (hfunc : Primitive.isIntrinsic func = true) : Infers (.call func []) (.ofDType .float32)
  | intrinsic {func : String} {first : Expr} {rest : List Expr} {ty : Ty}
      (hindex : Primitive.isHardwareIndex func = false) (hfunc : Primitive.isIntrinsic func = true)
      (h : Infers first ty) : Infers (.call func (first :: rest)) ty
  | procedure {func : String} {args : List Expr} (hindex : Primitive.isHardwareIndex func = false)
      (hfunc : Primitive.isIntrinsic func = false) : Infers (.call func args) .void
  | cast (target : Ty) (arg : Expr) : Infers (.cast target arg) target
  | deref {arg : Expr} {ty r : Ty} (h : Infers arg ty) (hr : ty.pointee = .ok r) : Infers (.deref arg) r
  | addr {arg : Expr} {ty : Ty} (h : Infers arg ty) : Infers (.addr arg) (.pointer ty)
  | ref {arg : Expr} {ty : Ty} (h : Infers arg ty) : Infers (.ref arg) (.reference ty)
  | scalarInput (name : String) (dtype : ScalarType) : Infers (.scalarInput name dtype) (.scalar dtype)
  | tensorInput (name : String) (dtype : ScalarType) (shape : Option (List Expr)) :
      Infers (.tensorInput name dtype shape) (.tensor ⟨.known .global, dtype, shape, none⟩)
  | compute {name : String} {shape : List Expr} {axes : List Var} {value : Expr} {s : ScalarType}
      (h : Infers value (.scalar s)) :
      Infers (.compute name shape axes value) (.tensor ⟨.known .global, s, some shape, none⟩)
  | reduce {kind : ReduceKind} {shape : List Expr} {axes : List Var} {value : Expr} {ty : Ty} (h : Infers value ty) :
      Infers (.reduce kind shape axes value) ty

variable {e : Expr} {ty : Ty}

theorem Infers.inferType_eq (h : e.Infers ty) : e.inferType = .ok ty := by
  induction h with
  | @arith op _ _ hop _ ih =>
    rw [inferType, ih]
    cases op <;> first | exact absurd rfl hop | rfl
  | _ => simp_all [inferType, inferFirst, Ty.scalarOrFault, bind, Except.bind, pure, Except.pure]

theorem infers_of_inferType (h : e.inferType = .ok ty) : e.Infers ty := by
  induction e using Expr.induct generalizing ty with
  | node e ih =>
    have hpart {c : Expr} {r : Ty} (hc : c ∈ e.children) (hr : c.inferType = .ok r) : c.Infers r := ih c hc hr
    cases e with
    | var v =>
      rw [inferType_var] at h
      cases h
      exact .var v
    | const v d | scalarInput name dtype | tensorInput name dtype shape | cast target arg =>
      rw [inferType] at h
      cases h
      constructor
    | unary op arg =>
      simp only [inferType, bind_eq_ok_iff, Ty.scalarOrFault_eq_ok_iff] at h
      obtain ⟨_, harg, s, rfl, hresult⟩ := h
      cases op with
      | not =>
        cases hresult
        exact .not (hpart (by simp [children]) harg)
      | neg | bitNot =>
        cases hresult
        exact .arith (by decide) (hpart (by simp [children]) harg)
    | binary op lhs rhs =>
      simp only [inferType, bind_eq_ok_iff, Ty.scalarOrFault_eq_ok_iff] at h
      obtain ⟨_, hl, a, rfl, _, hr, b, rfl, u, hu, hresult⟩ := h
      split at hresult
      · rename_i hop
        cases hresult
        exact .truth hop (hpart (by simp [children]) hl) (hpart (by simp [children]) hr) hu
      · rename_i hop
        cases hresult
        exact .binary (Bool.eq_false_iff.mpr hop) (hpart (by simp [children]) hl) (hpart (by simp [children]) hr) hu
    | letIn v value body =>
      rw [inferType] at h
      exact .letIn (hpart (by simp [children]) h)
    | ite cond thenE elseE =>
      simp only [inferType, bind_eq_ok_iff, Ty.scalarOrFault_eq_ok_iff] at h
      obtain ⟨_, ht, a, rfl, _, he, b, rfl, u, hu, hresult⟩ := h
      cases hresult
      exact .ite (hpart (by simp [children]) ht) (hpart (by simp [children]) he) hu
    | element base indices =>
      simp only [inferType, bind_eq_ok_iff] at h
      obtain ⟨r, hbase, hr⟩ := h
      exact .element (hpart (by simp [children]) hbase) hr
    | call func args =>
      rw [inferType] at h
      split_ifs at h with hindex hfunc
      · cases h
        exact .hardwareIndex hindex
      · rw [Bool.not_eq_true] at hindex
        cases args with
        | nil =>
          cases h
          exact .noArgument hindex hfunc
        | cons first rest => exact .intrinsic hindex hfunc (hpart (by simp [children]) h)
      · rw [Bool.not_eq_true] at hindex hfunc
        cases h
        exact .procedure hindex hfunc
    | deref arg =>
      simp only [inferType, bind_eq_ok_iff] at h
      obtain ⟨r, harg, hr⟩ := h
      exact .deref (hpart (by simp [children]) harg) hr
    | addr arg | ref arg =>
      simp only [inferType, bind_eq_ok_iff] at h
      obtain ⟨r, harg, hresult⟩ := h
      cases hresult
      constructor
      exact hpart (by simp [children]) harg
    | compute name shape axes value =>
      simp only [inferType, bind_eq_ok_iff, Ty.scalarOrFault_eq_ok_iff] at h
      obtain ⟨_, hvalue, s, rfl, hresult⟩ := h
      cases hresult
      exact .compute (hpart (by simp [children]) hvalue)
    | reduce kind shape axes value =>
      rw [inferType] at h
      exact .reduce (hpart (by simp [children]) h)
    | any | anyCompute | anyReduce =>
      rw [inferType] at h
      cases h

/-- Inference and the judgment agree. -/
theorem inferType_eq_ok_iff : e.inferType = .ok ty ↔ e.Infers ty :=
  ⟨infers_of_inferType, Infers.inferType_eq⟩

/-! ## Types without open fields -/

/-- The type of an expression without open fields has none. -/
theorem Infers.isResolved (h : e.Infers ty) (hresolved : e.isResolved) : ty.isResolved := by
  induction h with
  | var v =>
    obtain ⟨name, ty⟩ := v
    exact hresolved
  | const | not | truth | hardwareIndex | noArgument | procedure => rfl
  | arith _ _ ih => exact ih (isResolved_of_child hresolved (by simp [children]))
  | binary _ _ _ hu ihl ihr =>
    exact isResolved_unify (ihl (isResolved_of_child hresolved (by simp [children])))
      (ihr (isResolved_of_child hresolved (by simp [children]))) hu
  | ite _ _ hu iht ihe =>
    exact isResolved_unify (iht (isResolved_of_child hresolved (by simp [children])))
      (ihe (isResolved_of_child hresolved (by simp [children]))) hu
  | letIn _ ih | intrinsic _ _ _ ih | addr _ ih | ref _ ih | reduce _ ih =>
    exact ih (isResolved_of_child hresolved (by simp [children]))
  | element _ hr ih => exact Ty.isResolved_elementType (ih (isResolved_of_child hresolved (by simp [children]))) hr
  | deref _ hr ih => exact Ty.isResolved_pointee (ih (isResolved_of_child hresolved (by simp [children]))) hr
  | cast target arg =>
    rw [Expr.isResolved, Bool.and_eq_true] at hresolved
    exact hresolved.1
  | scalarInput => exact hresolved
  | tensorInput name dtype shape =>
    cases shape with
    | none => cases hresolved
    | some shape =>
      rw [Expr.isResolved, Bool.and_eq_true] at hresolved
      exact Ty.isResolved_tensor hresolved.1 hresolved.2
  | compute _ ih =>
    have hvalue := ih (isResolved_of_child hresolved (by simp [children]))
    rw [Expr.isResolved, Bool.and_eq_true] at hresolved
    exact Ty.isResolved_tensor hvalue hresolved.1

/-- A scalar without open fields has a known type. -/
theorem Infers.exists_hasDType {s : ScalarType} (h : e.Infers (.scalar s)) (hresolved : e.isResolved) :
    ∃ d, s = .known d ∧ e.HasDType d := by
  have hs := h.isResolved hresolved
  cases s with
  | known d => exact ⟨d, rfl, h.inferType_eq⟩
  | hole => cases hs

/-! ## Replacing parts -/

/-- Whether an expression has a type that resembles that of another one, if that one has a type. -/
def RetainsType (e e' : Expr) : Prop :=
  ∀ ty, e.Infers ty → ∃ ty', e'.Infers ty' ∧ ty.Resembles ty'

theorem RetainsType.refl (e : Expr) : e.RetainsType e :=
  fun ty h => ⟨ty, h, .refl ty⟩

theorem RetainsType.scalar {e' : Expr} (h : e.RetainsType e') {s : ScalarType} (hs : e.Infers (.scalar s)) :
    e'.Infers (.scalar s) := by
  obtain ⟨ty', hty', hresembles⟩ := h _ hs
  rwa [hresembles.eq_scalar] at hty'

theorem RetainsType.hasDType {e' : Expr} (h : e.RetainsType e') {d : DType} (hd : e.HasDType d) : e'.HasDType d :=
  (h.scalar (infers_of_inferType hd)).inferType_eq

/-- Parts may be replaced by parts that retain their types. -/
theorem RetainsType.mapChildren {f : Expr → Expr} (hf : ∀ c ∈ e.children, c.RetainsType (f c)) :
    e.RetainsType (e.mapChildren f) := by
  intro ty h
  -- a rule that gives a scalar keeps it; the others hand on the type of a part, or record extents that are rebuilt
  cases h with
  | var | const | scalarInput | cast => exact RetainsType.refl _ _ (by constructor)
  | @not arg _ h =>
    exact ⟨_, .not ((hf arg (by simp [children])).scalar h), .refl _⟩
  | @arith _ arg _ hop h => exact ⟨_, .arith hop ((hf arg (by simp [children])).scalar h), .refl _⟩
  | @truth _ lhs rhs _ _ _ hop hl hr hu =>
    exact ⟨_, .truth hop ((hf lhs (by simp [children])).scalar hl) ((hf rhs (by simp [children])).scalar hr) hu, .refl _⟩
  | @binary _ lhs rhs _ _ _ hop hl hr hu =>
    exact ⟨_, .binary hop ((hf lhs (by simp [children])).scalar hl) ((hf rhs (by simp [children])).scalar hr) hu, .refl _⟩
  | @letIn _ _ body _ h =>
    obtain ⟨ty', hty', hresembles⟩ := hf body (by simp [children]) _ h
    exact ⟨ty', .letIn hty', hresembles⟩
  | @ite _ thenE elseE _ _ _ ht he hu =>
    exact ⟨_, .ite ((hf thenE (by simp [children])).scalar ht) ((hf elseE (by simp [children])).scalar he) hu, .refl _⟩
  | @element base _ _ _ h hr =>
    obtain ⟨ty', hty', hresembles⟩ := hf base (by simp [children]) _ h
    obtain ⟨r', hr', hresult⟩ := hresembles.elementType hr
    exact ⟨r', .element hty' hr', hresult⟩
  | hardwareIndex hfunc => exact ⟨_, .hardwareIndex hfunc, .refl _⟩
  | noArgument hindex hfunc => exact ⟨_, .noArgument hindex hfunc, .refl _⟩
  | @intrinsic _ first _ _ hindex hfunc h =>
    obtain ⟨ty', hty', hresembles⟩ := hf first (by simp [children]) _ h
    exact ⟨ty', .intrinsic hindex hfunc hty', hresembles⟩
  | procedure hindex hfunc => exact ⟨_, .procedure hindex hfunc, .refl _⟩
  | @deref arg _ _ h hr =>
    obtain ⟨ty', hty', hresembles⟩ := hf arg (by simp [children]) _ h
    obtain ⟨r', hr', hresult⟩ := hresembles.pointee hr
    exact ⟨r', .deref hty' hr', hresult⟩
  | @addr arg _ h =>
    obtain ⟨ty', hty', hresembles⟩ := hf arg (by simp [children]) _ h
    exact ⟨_, .addr hty', .pointer hresembles⟩
  | @ref arg _ h =>
    obtain ⟨ty', hty', hresembles⟩ := hf arg (by simp [children]) _ h
    exact ⟨_, .ref hty', .reference hresembles⟩
  | tensorInput name dtype shape => exact ⟨_, .tensorInput name dtype _, .tensor rfl⟩
  | @compute _ _ _ value _ h => exact ⟨_, .compute ((hf value (by simp [children])).scalar h), .tensor rfl⟩
  | @reduce _ _ _ value _ h =>
    obtain ⟨ty', hty', hresembles⟩ := hf value (by simp [children]) _ h
    exact ⟨ty', .reduce hty', hresembles⟩

end Expr

end TensorCompiler
