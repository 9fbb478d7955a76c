import TensorCompiler.Lowering.Bounds
import TensorCompiler.Proofs.Expr.FoldRules
import TensorCompiler.Proofs.Kernel.Eval

/-! # Integral expressions

An integral expression is made of the nodes of programs, all of them with a type, and every scalar in it is a
boolean or an integer; buffers and what points to them may occur besides. Strict runs give such an expression what
its type says, and constant folding of a node leaves it integral, with its type and with what it gives.
-/

namespace TensorCompiler

/-- Whether a type is no scalar but a boolean or an integer. -/
def Ty.isIntegral : Ty → Bool
  | scalar (.known d) => !d.isFloat
  | scalar (.hole _) => false
  | _ => true

namespace Expr

/-- Whether a node belongs to programs and its type has no float and nothing open. -/
def IsIntegralNode (e : Expr) : Prop :=
  e.isComputeNode = false ∧ ∃ ty, e.inferType = .ok ty ∧ ty.isIntegral

/-- Whether all nodes of an expression are integral. -/
def IsIntegral (e : Expr) : Prop :=
  ∀ s ∈ e.preorder, s.IsIntegralNode

instance (e : Expr) : Decidable e.IsIntegralNode :=
  decidable_of_iff (e.isComputeNode = false ∧ ((e.inferType.toOption.map Ty.isIntegral).getD false) = true) <| by
    unfold IsIntegralNode
    cases e.inferType <;> simp [Except.toOption]

instance (e : Expr) : Decidable e.IsIntegral :=
  inferInstanceAs (Decidable (∀ s ∈ e.preorder, s.IsIntegralNode))

theorem IsIntegral.node {e : Expr} (h : e.IsIntegral) : e.IsIntegralNode :=
  h e (mem_preorder_self e)

theorem IsIntegral.child {e c : Expr} (h : e.IsIntegral) (hc : c ∈ e.children) : c.IsIntegral :=
  fun s hs => h s (mem_preorder_of_child hc hs)

theorem isIntegral_of_children {e : Expr} (h : e.IsIntegralNode) (hc : ∀ c ∈ e.children, c.IsIntegral) :
    e.IsIntegral := by
  intro s hs
  rw [preorder_eq] at hs
  rcases List.mem_cons.mp hs with rfl | hs
  · exact h
  · obtain ⟨c, hmem, hs⟩ := List.mem_flatMap.mp hs
    exact hc c hmem s hs

theorem isIntegral_const {v : Value} {d : DType} (hd : d.isFloat = false) : (const v d).IsIntegral :=
  isIntegral_of_children ⟨rfl, .ofDType d, rfl, by simp [Ty.ofDType, Ty.isIntegral, hd]⟩ (by simp [children])

theorem IsIntegral.cast {e : Expr} {d : DType} (hd : d.isFloat = false) (h : e.IsIntegral) :
    (cast (.ofDType d) e).IsIntegral := by
  refine isIntegral_of_children ⟨rfl, .ofDType d, rfl, by simp [Ty.ofDType, Ty.isIntegral, hd]⟩ fun c hc => ?_
  rw [List.mem_singleton.mp hc]
  exact h

theorem IsIntegralNode.isFloat {e : Expr} {d : DType} (h : e.IsIntegralNode) (hd : e.HasDType d) :
    d.isFloat = false := by
  obtain ⟨-, ty, hty, hint⟩ := h
  rw [HasDType, hty] at hd
  cases hd
  simpa [Ty.isIntegral, Ty.ofDType] using hint

/-- The scalars among integral nodes are of known type. -/
theorem IsIntegralNode.hasDType {e : Expr} {s : ScalarType} (h : e.IsIntegralNode)
    (hs : e.inferType = .ok (.scalar s)) : ∃ d, s = .known d ∧ e.HasDType d := by
  obtain ⟨-, ty, hty, hint⟩ := h
  rw [hs] at hty
  cases hty
  cases s with
  | known d => exact ⟨d, rfl, hs⟩
  | hole id => cases hint

theorem IsIntegral.unary_inv {op : UnaryOp} {arg : Expr} (h : (unary op arg).IsIntegral) : ∃ d, arg.HasDType d := by
  obtain ⟨-, ty, hty, -⟩ := h.node
  obtain ⟨s, hs⟩ := inferType_unary_inv hty
  obtain ⟨d, -, hd⟩ := (h.child (c := arg) (by simp [children])).node.hasDType hs
  exact ⟨d, hd⟩

theorem IsIntegral.binary_inv {op : BinaryOp} {lhs rhs : Expr} (h : (binary op lhs rhs).IsIntegral) :
    ∃ d, lhs.HasDType d ∧ rhs.HasDType d := by
  obtain ⟨-, ty, hty, -⟩ := h.node
  obtain ⟨a, b, u, ha, hb, -⟩ := inferType_binary_inv hty
  obtain ⟨c, -, hc⟩ := (h.child (c := lhs) (by simp [children])).node.hasDType ha
  obtain ⟨d, -, hd⟩ := (h.child (c := rhs) (by simp [children])).node.hasDType hb
  obtain rfl := hc.operands_eq hd hty
  exact ⟨c, hc, hd⟩

theorem IsIntegral.ite_inv {cond thenE elseE : Expr} (h : (ite cond thenE elseE).IsIntegral) :
    ∃ d, thenE.HasDType d ∧ elseE.HasDType d := by
  obtain ⟨-, ty, hty, -⟩ := h.node
  obtain ⟨a, b, u, ha, hb, -⟩ := inferType_ite_inv hty
  obtain ⟨c, -, hc⟩ := (h.child (c := thenE) (by simp [children])).node.hasDType ha
  obtain ⟨d, -, hd⟩ := (h.child (c := elseE) (by simp [children])).node.hasDType hb
  obtain rfl := hc.branches_eq hd hty
  exact ⟨c, hc, hd⟩

/-! ## Replacing sub-expressions -/

/-- The type of a node of a program depends only on the types of its sub-expressions. -/
theorem inferType_mapChildren {f : Expr → Expr} {e : Expr} (he : e.isComputeNode = false)
    (hf : ∀ c ∈ e.children, (f c).inferType = c.inferType) : (e.mapChildren f).inferType = e.inferType := by
  cases e with
  | unary op arg | deref arg | addr arg | ref arg =>
    simp only [mapChildren, inferType]
    rw [hf arg (by simp [children])]
  | binary op lhs rhs =>
    simp only [mapChildren, inferType]
    rw [hf lhs (by simp [children]), hf rhs (by simp [children])]
  | letIn v value body =>
    simp only [mapChildren, inferType]
    rw [hf body (by simp [children])]
  | ite cond thenE elseE =>
    simp only [mapChildren, inferType]
    rw [hf thenE (by simp [children]), hf elseE (by simp [children])]
  | element base indices =>
    simp only [mapChildren, inferType]
    rw [hf base (by simp [children])]
  | call func args =>
    have hfirst : inferFirst (args.map f) = inferFirst args := by
      cases args with
      | nil => rfl
      | cons first rest => exact hf first (by simp [children])
    simp only [mapChildren, inferType, hfirst]
  | cast | var | const => rfl
  | _ => cases he

theorem IsIntegral.mapChildren {f : Expr → Expr} {e : Expr} (h : e.IsIntegral)
    (hf : ∀ c ∈ e.children, (f c).IsIntegral ∧ (f c).inferType = c.inferType) :
    (e.mapChildren f).IsIntegral ∧ (e.mapChildren f).inferType = e.inferType := by
  obtain ⟨hcompute, ty, hty, hint⟩ := h.node
  have hsame := inferType_mapChildren hcompute fun c hc => (hf c hc).2
  have hprogram : (e.mapChildren f).isComputeNode = false := by
    rw [← hcompute]
    cases e <;> rfl
  refine ⟨isIntegral_of_children ⟨hprogram, ty, hsame.trans hty, hint⟩ fun c hc => ?_, hsame⟩
  rw [children_mapChildren] at hc
  obtain ⟨c', hc', rfl⟩ := List.mem_map.mp hc
  exact (hf c' hc').1

/-! ## What strict runs give -/

section

variable {Address Memory : Type} [FloatOps] {M : Machine Address Memory} {memory : Memory} {vars : Vars Address}
  {δ : Datum Address}

/-- What a strict run gives has the form of the type of the expression. -/
theorem IsIntegral.fits {e : Expr} (h : e.IsIntegral) (hrun : e.run M true memory vars = some δ) :
    δ.fits e = true := by
  induction e using Expr.induct generalizing vars δ with
  | node e ih =>
    cases e with
    | var v => exact (run_var_eq_some_iff.mp hrun).2 rfl
    | const v d =>
      obtain ⟨rfl, hv⟩ := run_const_eq_some_iff.mp hrun
      exact Datum.fits_scalar_iff.mpr ⟨d, hasDType_const.mpr rfl, hv rfl⟩
    | unary op arg =>
      obtain ⟨a, v, ha, hv, rfl⟩ := run_unary_eq_some_iff.mp hrun
      obtain ⟨d, hd, ta⟩ := Datum.fits_scalar_iff.mp (ih arg (by simp [children]) (h.child (by simp [children])) ha)
      exact Datum.fits_scalar_iff.mpr ⟨op.typeOn d, hd.unary op, UnaryOp.hasType_eval? ta hv⟩
    | binary op lhs rhs =>
      obtain ⟨a, b, v, ha, hb, -, hv, rfl⟩ := run_binary_eq_some_iff.mp hrun
      obtain ⟨d, hl, hr⟩ := h.binary_inv
      obtain ⟨c, hc, ta⟩ := Datum.fits_scalar_iff.mp (ih lhs (by simp [children]) (h.child (by simp [children])) ha)
      obtain ⟨c', hc', tb⟩ := Datum.fits_scalar_iff.mp (ih rhs (by simp [children]) (h.child (by simp [children])) hb)
      obtain rfl := hl.unique hc
      obtain rfl := hr.unique hc'
      exact Datum.fits_scalar_iff.mpr ⟨op.typeOn d, hl.binary op hr, BinaryOp.hasType_eval? ta tb hv⟩
    | letIn v value body =>
      obtain ⟨δ', -, hbody⟩ := run_letIn_eq_some_iff.mp hrun
      exact ih body (by simp [children]) (h.child (by simp [children])) hbody
    | ite cond thenE elseE =>
      obtain ⟨c, -, hbranch⟩ := run_ite_eq_some_iff.mp hrun
      obtain ⟨d, ht, he⟩ := h.ite_inv
      have hsame {branch : Expr} (hd : branch.HasDType d) (hfits : δ.fits branch = true) :
          δ.fits (ite cond thenE elseE) = true := by
        cases δ with
        | scalar v =>
          obtain ⟨c, hc, hv⟩ := Datum.fits_scalar_iff.mp hfits
          exact Datum.fits_scalar_iff.mpr ⟨d, ht.ite he, hd.unique hc ▸ hv⟩
        | address a => exact absurd hd (Datum.fits_address_iff.mp hfits d)
      split_ifs at hbranch
      · exact hsame ht (ih thenE (by simp [children]) (h.child (by simp [children])) hbranch)
      · exact hsame he (ih elseE (by simp [children]) (h.child (by simp [children])) hbranch)
    | element base indices =>
      obtain ⟨a, ns, δ', -, -, -, hread⟩ := run_element_eq_some_iff.mp hrun
      exact Datum.fits_of_readAs hread
    | deref arg =>
      obtain ⟨a, δ', -, -, hread⟩ := run_deref_eq_some_iff.mp hrun
      exact Datum.fits_of_readAs hread
    | addr place | ref place =>
      rcases (run_address_eq_some_iff place (by simp)).mp hrun with
        ⟨base, indices, a, ns, rfl, -, -, rfl⟩ | ⟨arg, a, rfl, -, rfl⟩
      all_goals
        refine Datum.fits_address_iff.mpr fun d hd => ?_
        obtain ⟨ty, -, hty⟩ := bind_eq_ok_iff.mp hd
        cases hty
    | call func args =>
      rcases run_call_eq_some_iff.mp hrun with ⟨hfunc, rfl, n, -, rfl⟩ | ⟨-, values, v, -, -, -, hfits⟩
      · refine Datum.fits_scalar_iff.mpr ⟨.int32, ?_, rfl⟩
        simp [HasDType, inferType, hfunc]
      · exact hfits rfl
    | cast target arg =>
      obtain ⟨δ', -, hcast⟩ := run_cast_eq_some_iff.mp hrun
      exact Datum.fits_of_castTo hcast
    | _ =>
      rw [run_eq_none_of_isComputeNode rfl] at hrun
      cases hrun

/-- A strict run gives a scalar of the type of the expression. -/
theorem IsIntegral.hasType {e : Expr} {d : DType} (h : e.IsIntegral) (hd : e.HasDType d)
    (hrun : e.run M true memory vars = some δ) : ∃ v, δ = .scalar v ∧ v.HasType d := by
  have hfits := h.fits hrun
  cases δ with
  | scalar v =>
    obtain ⟨c, hc, hv⟩ := Datum.fits_scalar_iff.mp hfits
    exact ⟨v, rfl, hd.unique hc ▸ hv⟩
  | address a => exact absurd hd (Datum.fits_address_iff.mp hfits d)

end

/-! ## Folding a node -/

/-- What has the type of an integral node and is made of its parts is integral: a literal is no float then. -/
theorem FoldResult.isIntegral {node e : Expr} (h : FoldResult node e) (htype : e.inferType = node.inferType)
    (hnode : node.IsIntegral) : e.IsIntegral := by
  cases h with
  | keep => exact hnode
  | part hp => exact hnode.child hp
  | truth hp _ => exact (hnode.child hp).cast rfl
  | literal v d => exact isIntegral_const (hnode.node.isFloat htype.symm)

theorem IsIntegral.isTypedNode {e : Expr} (h : e.IsIntegral) : e.IsTypedNode := by
  cases e with
  | unary op arg => exact h.unary_inv
  | binary op lhs rhs => exact h.binary_inv
  | ite cond thenE elseE => exact h.ite_inv
  | _ => trivial

section

variable [FloatOps]

/-- A folded node has the type of the node. -/
theorem IsIntegral.inferType_foldNode {e : Expr} (h : e.IsIntegral) : e.foldNode.inferType = e.inferType :=
  Expr.inferType_foldNode h.isTypedNode

/-- A folded node is integral. -/
theorem IsIntegral.foldNode {e : Expr} (h : e.IsIntegral) : e.foldNode.IsIntegral :=
  (foldResult_foldNode e).isIntegral h.inferType_foldNode h

variable {Address Memory : Type} {M : Machine Address Memory} {memory : Memory} {vars : Vars Address}
  {δ : Datum Address}

/-- Strict runs of integral expressions are an evaluation that constant folding may be used under. -/
theorem meaning_run (M : Machine Address Memory) (memory : Memory) (vars : Vars Address) :
    Meaning fun e v => e.IsIntegral ∧ e.run M true memory vars = some (.scalar v) where
  const hv hd := ⟨isIntegral_const hd, run_const_eq_some_iff.mpr ⟨rfl, fun _ => hv⟩⟩
  const_inv := by
    rintro v w d ⟨hint, hrun⟩
    obtain ⟨heq, -⟩ := run_const_eq_some_iff.mp hrun
    exact ⟨Datum.scalar.inj heq, hint.node.isFloat (hasDType_const.mpr rfl)⟩
  cast hd h := ⟨h.1.cast hd, run_cast_eq_some_iff.mpr ⟨_, h.2, rfl⟩⟩

/-- A folded node gives what the node gives. -/
theorem IsIntegral.run_foldNode {e : Expr} (U : FloatOps.SeparatesUnits) (h : e.IsIntegral)
    (hrun : e.run M true memory vars = some δ) : e.foldNode.run M true memory vars = some δ := by
  have D := meaning_run M memory vars
  cases e with
  | unary op arg =>
    obtain ⟨d, hd⟩ := h.unary_inv
    have harg : arg.IsIntegral := h.child (by simp [children])
    obtain ⟨a, v, ha, hv, rfl⟩ := run_unary_eq_some_iff.mp hrun
    obtain ⟨_, heq, ta⟩ := harg.hasType hd ha
    cases heq
    exact (D.foldUnary hd ⟨harg, ha⟩ ta hv ⟨h, hrun⟩).2
  | binary op lhs rhs =>
    obtain ⟨d, hl, hr⟩ := h.binary_inv
    have hlhs : lhs.IsIntegral := h.child (by simp [children])
    have hrhs : rhs.IsIntegral := h.child (by simp [children])
    obtain ⟨a, b, v, ha, hb, -, hv, rfl⟩ := run_binary_eq_some_iff.mp hrun
    obtain ⟨_, heq, ta⟩ := hlhs.hasType hl ha
    cases heq
    obtain ⟨_, heq, tb⟩ := hrhs.hasType hr hb
    cases heq
    exact (D.foldBinary U hl hr ⟨hlhs, ha⟩ ⟨hrhs, hb⟩ ta tb hv ⟨h, hrun⟩).2
  | ite cond thenE elseE =>
    obtain ⟨d, ht, he⟩ := h.ite_inv
    obtain ⟨v, rfl, -⟩ := h.hasType (ht.ite he) hrun
    obtain ⟨c, hc, hbranch⟩ := run_ite_eq_some_iff.mp hrun
    refine (D.foldIte ⟨h.child (by simp [children]), hc⟩ ?_ ⟨h, hrun⟩).2
    split_ifs at hbranch ⊢
    · exact ⟨h.child (by simp [children]), hbranch⟩
    · exact ⟨h.child (by simp [children]), hbranch⟩
  | cast target arg =>
    change (foldCast target arg).run M true memory vars = some δ
    unfold foldCast
    split
    · obtain ⟨δ', harg, hcast⟩ := run_cast_eq_some_iff.mp hrun
      obtain ⟨rfl, -⟩ := run_const_eq_some_iff.mp harg
      cases hcast
      exact run_const_eq_some_iff.mpr ⟨rfl, fun _ => Value.hasType_cast _ _⟩
    · exact hrun
  | call func args =>
    rcases run_call_eq_some_iff.mp hrun with ⟨-, rfl, -, -, -⟩ | ⟨-, values, v, hvalues, hv, rfl, hfits⟩
    · rcases foldCall_cases func [] with hsame | ⟨-, -, first, -, -, -, hfirst, -⟩
      · exact hsame ▸ hrun
      · cases hfirst
    · obtain ⟨d, hd, tv⟩ := Datum.fits_scalar_iff.mp (hfits rfl)
      have hargs : List.Forall₂ (fun e v => e.IsIntegral ∧ e.run M true memory vars = some (.scalar v)) args values :=
        forall₂_imp_of_mem hvalues fun arg harg a ha => ⟨h.child harg, ha⟩
      have hsame : ∀ w, Intrinsic.eval? func values = some w → w = v :=
        fun w hw => Option.some.inj (hw.symm.trans hv)
      exact (D.foldCall (h.node.isFloat hd) hd hargs hsame tv ⟨h, hrun⟩).2
  | _ => exact hrun

end

end Expr

end TensorCompiler
