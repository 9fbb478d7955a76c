import TensorCompiler.Proofs.Expr.Eval
import TensorCompiler.Proofs.Expr.FoldRules
import TensorCompiler.Proofs.Expr.Traversal

/-! # Constant folding of scalar expressions

A scalar expression is made of booleans and integers, variables, operators, choices, casts and the integer
functions, and `inferType` accepts all of it. Folding keeps its type whether or not it has a value, which is what
the branches that are not taken need, and keeps its value in every environment that gives the variables values of
their types.
-/

namespace TensorCompiler

/-- Whether an environment gives each of some variables a value of its type. -/
def Env.Fits (env : Env) (vars : List Var) : Prop :=
  ∀ w ∈ vars, ∃ x d, env.lookup w.name = some x ∧ w.ty = .ofDType d ∧ x.HasType d

theorem Env.Fits.exists_ofDType {env : Env} {vars : List Var} (h : env.Fits vars) :
    ∀ w ∈ vars, ∃ d, w.ty = .ofDType d := by
  intro w hw
  obtain ⟨-, d, -, hty, -⟩ := h w hw
  exact ⟨d, hty⟩

namespace Expr

/-- Whether a node may occur in a scalar expression. Literals are no floats and have the form of their type, casts
go to types without floats, and functions take integers to integers. -/
def IsScalarNode : Expr → Prop
  | var _ | unary .. | binary .. | letIn .. | ite .. => True
  | const value dtype => dtype.isFloat = false ∧ value.HasType dtype
  | cast target _ => ∃ d : DType, d.isFloat = false ∧ target = .ofDType d
  | call func args =>
    (func = "abs" ∨ func = "max" ∨ func = "min") ∧ ∀ arg ∈ args, ∃ d : DType, d.isInteger ∧ arg.HasDType d
  | _ => False

/-- A scalar expression: all of it has a type, and each `let` variable occurs at the type of its value. -/
structure IsScalar (e : Expr) : Prop where
  nodes : ∀ s ∈ e.preorder, s.IsScalarNode
  typed : ∀ s ∈ e.preorder, ∃ ty, s.inferType = .ok ty
  lets : ∀ x value body, letIn x value body ∈ e.preorder →
    ∀ w ∈ body.freeVars, w.name = x.name → value.inferType = .ok w.ty

theorem IsScalar.child {e c : Expr} (h : e.IsScalar) (hc : c ∈ e.children) : c.IsScalar where
  nodes s hs := h.nodes s (mem_preorder_of_child hc hs)
  typed s hs := h.typed s (mem_preorder_of_child hc hs)
  lets x value body hs := h.lets x value body (mem_preorder_of_child hc hs)

section

variable [FloatOps]

theorem fold_eq (e : Expr) : e.fold = foldNode (e.mapChildren fold) :=
  mapBottomUp_eq foldNode e

/-! ## Types -/

/-- A scalar expression whose free variables are scalars of known type is one itself, and so is its folded form. -/
theorem IsScalar.hasDType {e : Expr} (h : e.IsScalar) (hvars : ∀ w ∈ e.freeVars, ∃ d, w.ty = .ofDType d) :
    ∃ d, e.HasDType d ∧ e.fold.HasDType d := by
  induction e using Expr.induct with
  | node e ih =>
    have hnode := h.nodes e (mem_preorder_self e)
    obtain ⟨ty, hty⟩ := h.typed e (mem_preorder_self e)
    rw [fold_eq]
    cases e with
    | var v =>
      obtain ⟨d, hd⟩ := hvars v (by simp [freeVars])
      have hv : (var v).HasDType d := by rw [HasDType, inferType, hd]
      exact ⟨d, hv, hv⟩
    | const value dtype => exact ⟨dtype, hasDType_const.mpr rfl, hasDType_const.mpr rfl⟩
    | unary op arg =>
      obtain ⟨d, hd, hfold⟩ := ih arg (by simp [children]) (h.child (by simp [children])) hvars
      exact ⟨op.typeOn d, hd.unary op, hfold.foldUnary⟩
    | binary op lhs rhs =>
      obtain ⟨c, hc, hcfold⟩ := ih lhs (by simp [children]) (h.child (by simp [children]))
        fun w hw => hvars w (by simp [freeVars, hw])
      obtain ⟨d, hd, hdfold⟩ := ih rhs (by simp [children]) (h.child (by simp [children]))
        fun w hw => hvars w (by simp [freeVars, hw])
      obtain rfl := hc.operands_eq hd hty
      exact ⟨op.typeOn c, hc.binary op hd, hcfold.foldBinary hdfold⟩
    | letIn x value body =>
      obtain ⟨c, hc, -⟩ := ih value (by simp [children]) (h.child (by simp [children]))
        fun w hw => hvars w (by simp [freeVars, hw])
      obtain ⟨d, hd, hdfold⟩ := ih body (by simp [children]) (h.child (by simp [children])) fun w hw => by
        by_cases hname : w.name = x.name
        · have htype := h.lets x value body (mem_preorder_self _) w hw hname
          rw [HasDType, htype] at hc
          exact ⟨c, Except.ok.inj hc⟩
        · exact hvars w (by simp [freeVars, hw, hname])
      exact ⟨d, hd, hdfold⟩
    | ite cond thenE elseE =>
      obtain ⟨c, hc, hcfold⟩ := ih thenE (by simp [children]) (h.child (by simp [children]))
        fun w hw => hvars w (by simp [freeVars, hw])
      obtain ⟨d, hd, hdfold⟩ := ih elseE (by simp [children]) (h.child (by simp [children]))
        fun w hw => hvars w (by simp [freeVars, hw])
      obtain rfl := hc.branches_eq hd hty
      exact ⟨c, hc.ite hd, hcfold.foldIte hdfold⟩
    | cast target arg =>
      obtain ⟨d, -, rfl⟩ := hnode
      exact ⟨d, hasDType_cast.mpr rfl, hasDType_foldCast d _⟩
    | call func args =>
      have hname : func ∈ Intrinsic.names := by
        obtain ⟨rfl | rfl | rfl, -⟩ := hnode <;> decide
      cases args with
      | nil =>
        have hcall : (call func []).HasDType .float32 := by
          simp [HasDType, inferType, inferFirst, Primitive.isHardwareIndex_eq_false hname,
            Primitive.isIntrinsic, hname]
        exact ⟨.float32, hcall, hcall.foldCall⟩
      | cons first rest =>
        obtain ⟨d, hd, hfold⟩ := ih first (by simp [children]) (h.child (by simp [children]))
          fun w hw => hvars w (by simp [freeVars, freeVarsAll, hw])
        refine ⟨d, ?_, HasDType.foldCall ?_⟩
        · rw [HasDType, inferType_call_eq hname]
          exact hd
        · rw [List.map_cons, HasDType, inferType_call_eq hname]
          exact hfold
    | _ => exact hnode.elim

/-! ## Values -/

variable {tensors : Tensors} {env : Env} {e : Expr} {v : Value} {d : DType}

/-- Whether an expression has a value and is no literal of a float. -/
def HasValue (tensors : Tensors) (env : Env) (e : Expr) (v : Value) : Prop :=
  e.eval tensors env = .ok v ∧ ∀ w d, e = const w d → d.isFloat = false

theorem hasValue_of_eval (h : e.eval tensors env = .ok v) (hlit : e.value? = none) : HasValue tensors env e v := by
  refine ⟨h, ?_⟩
  rintro w d rfl
  cases hlit

theorem meaning_hasValue (tensors : Tensors) (env : Env) : Meaning (HasValue tensors env) where
  const {v d} _ hd := by
    refine ⟨eval_const_eq_ok_iff.mpr rfl, ?_⟩
    rintro w c heq
    cases heq
    exact hd
  const_inv {v w d} h := ⟨(eval_const_eq_ok_iff.mp h.1).symm, h.2 v d rfl⟩
  cast {e v d} _ h := hasValue_of_eval (eval_cast_eq_ok_iff.mpr ⟨v, d, h.1, rfl, rfl⟩) rfl

/-- A scalar expression that has a value has one of its type, and its folded form has the same value. -/
theorem IsScalar.hasValue_fold (U : FloatOps.SeparatesUnits) (h : e.IsScalar) (hfits : env.Fits e.freeVars)
    (htype : e.HasDType d) (heval : e.eval tensors env = .ok v) :
    v.HasType d ∧ HasValue tensors env e.fold v := by
  induction e using Expr.induct generalizing env d v with
  | node e ih =>
    have M := meaning_hasValue tensors env
    have hnode := h.nodes e (mem_preorder_self e)
    -- what a part gives when it is evaluated in the environment of the node
    have hpart {c : Expr} (hc : c ∈ e.children) (hfree : ∀ w ∈ c.freeVars, w ∈ e.freeVars) :
        ∃ d, c.HasDType d ∧ c.fold.HasDType d ∧
          ∀ a, c.eval tensors env = .ok a → a.HasType d ∧ HasValue tensors env c.fold a := by
      have hcfits : env.Fits c.freeVars := fun w hw => hfits w (hfree w hw)
      obtain ⟨d, hd, hdfold⟩ := (h.child hc).hasDType hcfits.exists_ofDType
      exact ⟨d, hd, hdfold, fun a ha => ih c hc (h.child hc) hcfits hd ha⟩
    rw [fold_eq]
    cases e with
    | var w =>
      obtain ⟨x, c, hx, hty, hxc⟩ := hfits w (by simp [freeVars])
      obtain rfl : x = v := by simpa [hx] using eval_var_eq_ok_iff.mp heval
      obtain rfl : c = d := by simpa [HasDType, inferType, hty, Ty.ofDType] using htype
      exact ⟨hxc, hasValue_of_eval heval rfl⟩
    | const value dtype =>
      obtain rfl := eval_const_eq_ok_iff.mp heval
      obtain rfl := hasDType_const.mp htype
      exact ⟨hnode.2, M.const hnode.2 hnode.1⟩
    | unary op arg =>
      obtain ⟨a, ha, hv⟩ := eval_unary_eq_ok_iff.mp heval
      obtain ⟨c, hc, hcfold, hval⟩ := hpart (c := arg) (by simp [children]) fun w hw => hw
      obtain rfl := htype.unique (hc.unary op)
      obtain ⟨ta, hafold⟩ := hval a ha
      have keep : HasValue tensors env (unary op arg.fold) v :=
        hasValue_of_eval (eval_unary_eq_ok_iff.mpr ⟨a, hafold.1, hv⟩) rfl
      exact ⟨UnaryOp.hasType_eval? ta hv, M.foldUnary hcfold hafold ta hv keep⟩
    | binary op lhs rhs =>
      obtain ⟨a, b, ha, hb, hv⟩ := eval_binary_eq_ok_iff.mp heval
      obtain ⟨cl, hl, hlfold, hlval⟩ := hpart (c := lhs) (by simp [children]) fun w hw => by simp [freeVars, hw]
      obtain ⟨cr, hr, hrfold, hrval⟩ := hpart (c := rhs) (by simp [children]) fun w hw => by simp [freeVars, hw]
      obtain rfl := hl.operands_eq hr htype
      obtain rfl := htype.unique (hl.binary op hr)
      obtain ⟨ta, hafold⟩ := hlval a ha
      obtain ⟨tb, hbfold⟩ := hrval b hb
      have keep : HasValue tensors env (binary op lhs.fold rhs.fold) v :=
        hasValue_of_eval (eval_binary_eq_ok_iff.mpr ⟨a, b, hafold.1, hbfold.1, hv⟩) rfl
      exact ⟨BinaryOp.hasType_eval? ta tb hv, M.foldBinary U hlfold hrfold hafold hbfold ta tb hv keep⟩
    | letIn x value body =>
      obtain ⟨a, ha, hv⟩ := eval_letIn_eq_ok_iff.mp heval
      obtain ⟨c, hc, -, hval⟩ := hpart (c := value) (by simp [children]) fun w hw => by simp [freeVars, hw]
      obtain ⟨ta, hafold⟩ := hval a ha
      have hbody : Env.Fits ((x.name, a) :: env) body.freeVars := by
        intro w hw
        by_cases hname : w.name = x.name
        · have hty := h.lets x value body (mem_preorder_self _) w hw hname
          rw [HasDType, hty] at hc
          exact ⟨a, c, by simp [hname], Except.ok.inj hc, ta⟩
        · obtain ⟨y, dy, hy, hty, hyd⟩ := hfits w (by simp [freeVars, hw, hname])
          exact ⟨y, dy, by rw [List.lookup_cons, beq_false_of_ne hname]; exact hy, hty, hyd⟩
      obtain ⟨tv, hvfold⟩ := ih body (by simp [children]) (h.child (by simp [children])) hbody htype hv
      exact ⟨tv, hasValue_of_eval (eval_letIn_eq_ok_iff.mpr ⟨a, hafold.1, hvfold.1⟩) rfl⟩
    | ite cond thenE elseE =>
      obtain ⟨c, hc, hv⟩ := eval_ite_eq_ok_iff.mp heval
      obtain ⟨_, -, -, hcval⟩ := hpart (c := cond) (by simp [children]) fun w hw => by simp [freeVars, hw]
      obtain ⟨dt, ht, -, htval⟩ := hpart (c := thenE) (by simp [children]) fun w hw => by simp [freeVars, hw]
      obtain ⟨de, he, -, heval⟩ := hpart (c := elseE) (by simp [children]) fun w hw => by simp [freeVars, hw]
      obtain rfl := ht.branches_eq he htype
      obtain rfl := htype.unique (ht.ite he)
      obtain ⟨-, hcfold⟩ := hcval c hc
      have hbranch : v.HasType d ∧
          if c.truthy then HasValue tensors env thenE.fold v else HasValue tensors env elseE.fold v := by
        split_ifs at hv ⊢ with htruth
        · exact htval v hv
        · exact heval v hv
      obtain ⟨tv, hvfold⟩ := hbranch
      have keep : HasValue tensors env (ite cond.fold thenE.fold elseE.fold) v := by
        refine hasValue_of_eval (eval_ite_eq_ok_iff.mpr ⟨c, hcfold.1, ?_⟩) rfl
        split_ifs at hvfold ⊢ <;> exact hvfold.1
      exact ⟨tv, M.foldIte hcfold hvfold keep⟩
    | cast target arg =>
      obtain ⟨a, c, ha, htarget, hv⟩ := eval_cast_eq_ok_iff.mp heval
      subst htarget hv
      obtain rfl := hasDType_cast.mp htype
      obtain ⟨_, -, -, hval⟩ := hpart (c := arg) (by simp [children]) fun w hw => hw
      obtain ⟨d, hd, hcd⟩ := hnode
      obtain rfl : c = d := by simpa [Ty.ofDType] using hcd
      exact ⟨Value.hasType_cast a c, M.foldCast hd (hval a ha).2⟩
    | call func args =>
      obtain ⟨values, hvalues, hv⟩ := eval_call_eq_ok_iff.mp heval
      obtain ⟨hname, hints⟩ := hnode
      have hall : ∀ arg ∈ args, ∀ a, arg.eval tensors env = .ok a →
          (∃ n, a = .int n) ∧ HasValue tensors env arg.fold a := by
        intro arg harg a ha
        obtain ⟨c, hc, -, hval⟩ := hpart (c := arg) harg fun w hw => by
          rw [freeVars, freeVarsAll_eq]
          exact List.mem_flatMap.mpr ⟨arg, harg, hw⟩
        obtain ⟨d, hd, hargd⟩ := hints arg harg
        obtain rfl := hc.unique hargd
        obtain ⟨ta, hafold⟩ := hval a ha
        exact ⟨ta.exists_int hd, hafold⟩
      have hfold : List.Forall₂ (HasValue tensors env) (args.map fold) values := by
        rw [List.forall₂_map_left_iff]
        exact forall₂_imp_of_mem hvalues fun arg harg a ha => (hall arg harg a ha).2
      have hintValues := forall_mem_of_forall₂ hvalues fun arg harg a ha => (hall arg harg a ha).1
      obtain ⟨hne, m, rfl⟩ := Intrinsic.exists_int_of_eval? hname hintValues hv
      have hmem : func ∈ Intrinsic.names := Intrinsic.mem_names_of_eval? hv
      cases args with
      | nil => exact absurd (List.forall₂_nil_left_iff.mp hvalues) hne
      | cons first rest =>
        obtain ⟨c, hc, hcfold, -⟩ := hpart (c := first) (by simp [children]) fun w hw => by
          simp [freeVars, freeVarsAll, hw]
        obtain ⟨c', hint, hc'⟩ := hints first (by simp)
        obtain rfl := hc.unique hc'
        rw [HasDType, inferType_call_eq hmem] at htype
        obtain rfl := hc.unique htype
        have htypeFold : (call func ((first :: rest).map fold)).HasDType c := by
          rw [List.map_cons, HasDType, inferType_call_eq hmem]
          exact hcfold
        have keep : HasValue tensors env (call func ((first :: rest).map fold)) (.int m) :=
          hasValue_of_eval (eval_call_eq_ok_iff.mpr ⟨values, hfold.imp fun _ _ h => h.1, hv⟩) rfl
        refine ⟨hint, M.foldCall (DType.isFloat_eq_false_of_isInteger hint) htypeFold hfold ?_ hint keep⟩
        intro w hw
        exact Option.some.inj (hw.symm.trans hv)
    | _ => exact hnode.elim

/-- Constant folding keeps the value of a scalar expression. -/
theorem eval_fold_of_isScalar (U : FloatOps.SeparatesUnits) (h : e.IsScalar) (hfits : env.Fits e.freeVars)
    (heval : e.eval tensors env = .ok v) : e.fold.eval tensors env = .ok v := by
  obtain ⟨d, hd, -⟩ := h.hasDType hfits.exists_ofDType
  exact (h.hasValue_fold U hfits hd heval).2.1

end

/-- The greater of zero and a number, as a `let` with a product with one and a product with zero. -/
def positivePart : Expr :=
  letIn (Var.int "y") (var (Var.int "x") * int 1) (call "max" [var (Var.int "y") * int 0, var (Var.int "y")])

theorem isScalar_positivePart : positivePart.IsScalar where
  nodes s hs := by
    change s ∈ [_, _, _, _, _, _, _, _, _] at hs
    simp only [List.mem_cons, List.not_mem_nil, or_false] at hs
    rcases hs with rfl | rfl | rfl | rfl | rfl | rfl | rfl | rfl | rfl
    all_goals try trivial
    refine ⟨by simp, fun arg harg => ⟨.int32, rfl, ?_⟩⟩
    simp only [List.mem_cons, List.not_mem_nil, or_false] at harg
    rcases harg with rfl | rfl <;> rfl
  typed s hs := by
    change s ∈ [_, _, _, _, _, _, _, _, _] at hs
    simp only [List.mem_cons, List.not_mem_nil, or_false] at hs
    rcases hs with rfl | rfl | rfl | rfl | rfl | rfl | rfl | rfl | rfl
    all_goals exact ⟨_, rfl⟩
  lets x value body hs := by
    change letIn x value body ∈ [_, _, _, _, _, _, _, _, _] at hs
    simp only [List.mem_cons, List.not_mem_nil, or_false] at hs
    rcases hs with h | h | h | h | h | h | h | h | h <;> cases h
    intro w hw hname
    change w ∈ [_, _] at hw
    simp only [List.mem_cons, List.not_mem_nil, or_false] at hw
    rcases hw with rfl | rfl <;> rfl

/-- At the machine's floats and `x = -3` the folded form, `let y = x in max(0, y)`, still gives zero. -/
theorem eval_fold_positivePart : positivePart.fold.eval [] [("x", .int (-3))] = .ok (.int 0) := by
  refine eval_fold_of_isScalar FloatOps.separatesUnits_binary64 isScalar_positivePart ?_ rfl
  intro w hw
  change w ∈ [_] at hw
  obtain rfl := List.mem_singleton.mp hw
  exact ⟨.int (-3), .int32, rfl, rfl, rfl⟩

end Expr

end TensorCompiler
