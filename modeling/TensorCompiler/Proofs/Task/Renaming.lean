import TensorCompiler.Proofs.Expr.Traversal
import TensorCompiler.Proofs.Task.Instance

/-! # Renamed tasks

Two expressions are the same up to the names of bound variables if they have the same nodes and each occurrence of a
variable means the same in both: it is bound at the same place, or free and unchanged. What the names have to do with each
other is left to a relation `ρ`, which pairs each name of the one expression with the names that stand in its place in the
other. Comparing for structural equality reads names, so it gives the same answer for both only if `ρ` never gives two
names of one side one name on the other.
-/

namespace TensorCompiler

/-- Whether occurrences of two names mean the same: the variables around them that bind them are partners, or neither is
bound and they are one name. -/
inductive Renaming.Links : Renaming → String → String → Prop
  | free {v : String} : Links [] v v
  | here {v w : String} {scope : Renaming} : Links ((v, w) :: scope) v w
  | there {v w p q : String} {scope : Renaming} (hv : v ≠ p) (hw : w ≠ q) (h : Links scope v w) :
    Links ((p, q) :: scope) v w

/-- Whether variables that are bound together are renamed and keep their types. -/
def Var.RenamedAll (ρ : String → String → Prop) (axes axes' : List Var) : Prop :=
  List.Forall₂ (fun v w => ρ v.name w.name ∧ v.ty = w.ty) axes axes'

mutual

/-- Whether two expressions differ in the names of bound variables only. -/
inductive Expr.Renamed (ρ : String → String → Prop) : Renaming → Expr → Expr → Prop
  | var {scope v w} (hname : ρ v.name w.name) (hlinks : scope.Links v.name w.name) (htype : v.ty = w.ty) :
    Expr.Renamed ρ scope (.var v) (.var w)
  | const {scope value dtype} : Expr.Renamed ρ scope (.const value dtype) (.const value dtype)
  | unary {scope op arg arg'} (harg : Expr.Renamed ρ scope arg arg') :
    Expr.Renamed ρ scope (.unary op arg) (.unary op arg')
  | binary {scope op lhs lhs' rhs rhs'} (hlhs : Expr.Renamed ρ scope lhs lhs') (hrhs : Expr.Renamed ρ scope rhs rhs') :
    Expr.Renamed ρ scope (.binary op lhs rhs) (.binary op lhs' rhs')
  | letIn {scope v v' value value' body body'} (hvalue : Expr.Renamed ρ scope value value')
    (hv : Var.RenamedAll ρ [v] [v']) (hbody : Expr.Renamed ρ (scope.enter [v] [v']) body body') :
    Expr.Renamed ρ scope (.letIn v value body) (.letIn v' value' body')
  | ite {scope cond cond' thenE thenE' elseE elseE'} (hcond : Expr.Renamed ρ scope cond cond')
    (hthen : Expr.Renamed ρ scope thenE thenE') (helse : Expr.Renamed ρ scope elseE elseE') :
    Expr.Renamed ρ scope (.ite cond thenE elseE) (.ite cond' thenE' elseE')
  | element {scope base base' indices indices'} (hbase : Expr.Renamed ρ scope base base')
    (hindices : Expr.AllRenamed ρ scope indices indices') :
    Expr.Renamed ρ scope (.element base indices) (.element base' indices')
  | call {scope func args args'} (hargs : Expr.AllRenamed ρ scope args args') :
    Expr.Renamed ρ scope (.call func args) (.call func args')
  | cast {scope target target' arg arg'} (htarget : Ty.Renamed ρ scope target target')
    (harg : Expr.Renamed ρ scope arg arg') : Expr.Renamed ρ scope (.cast target arg) (.cast target' arg')
  | deref {scope arg arg'} (harg : Expr.Renamed ρ scope arg arg') : Expr.Renamed ρ scope (.deref arg) (.deref arg')
  | addr {scope arg arg'} (harg : Expr.Renamed ρ scope arg arg') : Expr.Renamed ρ scope (.addr arg) (.addr arg')
  | ref {scope arg arg'} (harg : Expr.Renamed ρ scope arg arg') : Expr.Renamed ρ scope (.ref arg) (.ref arg')
  | scalarInput {scope name dtype} : Expr.Renamed ρ scope (.scalarInput name dtype) (.scalarInput name dtype)
  | tensorInput {scope name dtype shape shape'} (hshape : Expr.ShapeRenamed ρ scope shape shape') :
    Expr.Renamed ρ scope (.tensorInput name dtype shape) (.tensorInput name dtype shape')
  | compute {scope name shape shape' axes axes' value value'} (hshape : Expr.AllRenamed ρ scope shape shape')
    (haxes : Var.RenamedAll ρ axes axes') (hvalue : Expr.Renamed ρ (scope.enter axes axes') value value') :
    Expr.Renamed ρ scope (.compute name shape axes value) (.compute name shape' axes' value')
  | reduce {scope kind shape shape' axes axes' value value'} (hshape : Expr.AllRenamed ρ scope shape shape')
    (haxes : Var.RenamedAll ρ axes axes') (hvalue : Expr.Renamed ρ (scope.enter axes axes') value value') :
    Expr.Renamed ρ scope (.reduce kind shape axes value) (.reduce kind shape' axes' value')
  | any {scope hole} : Expr.Renamed ρ scope (.any hole) (.any hole)
  | anyCompute {scope rank allowReduce} : Expr.Renamed ρ scope (.anyCompute rank allowReduce) (.anyCompute rank allowReduce)
  | anyReduce {scope kind} : Expr.Renamed ρ scope (.anyReduce kind) (.anyReduce kind)

inductive Expr.AllRenamed (ρ : String → String → Prop) : Renaming → List Expr → List Expr → Prop
  | nil {scope} : Expr.AllRenamed ρ scope [] []
  | cons {scope e e' es es'} (h : Expr.Renamed ρ scope e e') (hs : Expr.AllRenamed ρ scope es es') :
    Expr.AllRenamed ρ scope (e :: es) (e' :: es')

inductive Expr.ShapeRenamed (ρ : String → String → Prop) : Renaming → Option (List Expr) → Option (List Expr) → Prop
  | opened {scope} : Expr.ShapeRenamed ρ scope none none
  | known {scope es es'} (h : Expr.AllRenamed ρ scope es es') : Expr.ShapeRenamed ρ scope (some es) (some es')

inductive TensorType.Renamed (ρ : String → String → Prop) : Renaming → TensorType → TensorType → Prop
  | mk {scope memory dtype shape shape' strides strides'} (hshape : Expr.ShapeRenamed ρ scope shape shape')
    (hstrides : Expr.ShapeRenamed ρ scope strides strides') :
    TensorType.Renamed ρ scope ⟨memory, dtype, shape, strides⟩ ⟨memory, dtype, shape', strides'⟩

/-- Whether two types differ in the names of bound variables only. -/
inductive Ty.Renamed (ρ : String → String → Prop) : Renaming → Ty → Ty → Prop
  | scalar {scope dtype} : Ty.Renamed ρ scope (.scalar dtype) (.scalar dtype)
  | tensor {scope type type'} (h : TensorType.Renamed ρ scope type type') : Ty.Renamed ρ scope (.tensor type) (.tensor type')
  | tensorPointer {scope type type'} (h : TensorType.Renamed ρ scope type type') :
    Ty.Renamed ρ scope (.tensorPointer type) (.tensorPointer type')
  | pointer {scope base base'} (h : Ty.Renamed ρ scope base base') : Ty.Renamed ρ scope (.pointer base) (.pointer base')
  | reference {scope base base'} (h : Ty.Renamed ρ scope base base') :
    Ty.Renamed ρ scope (.reference base) (.reference base')
  | void {scope} : Ty.Renamed ρ scope .void .void

end

/-! ## Comparing renamed expressions -/

/-- Whether names paired by the two relations are equal on one side if and only if they are on the other. -/
def Consistent (ρ σ : String → String → Prop) : Prop :=
  ∀ ⦃x x' y y' : String⦄, ρ x x' → σ y y' → (x = y ↔ x' = y')

section

variable {ρ σ : String → String → Prop} {scope scope' : Renaming}

theorem Var.same_eq_of_renamed (h : Consistent ρ σ) {v v' w w' : Var} (hv : ρ v.name v'.name) (hvty : v.ty = v'.ty)
    (hw : σ w.name w'.name) (hwty : w.ty = w'.ty) : v.same w = v'.same w' := by
  obtain ⟨n, ty⟩ := v
  obtain ⟨n', ty'⟩ := v'
  obtain ⟨m, tx⟩ := w
  obtain ⟨m', tx'⟩ := w'
  cases hvty
  cases hwty
  rw [Var.same, Var.same, Bool.eq_iff_iff]
  simp only [Bool.and_eq_true, beq_iff_eq, h hv hw]

theorem Var.RenamedAll.sameAll_eq (h : Consistent ρ σ) {vs vs' ws ws' : List Var} (hv : Var.RenamedAll ρ vs vs')
    (hw : Var.RenamedAll σ ws ws') : Var.sameAll vs ws = Var.sameAll vs' ws' := by
  induction hv generalizing ws ws' with
  | nil => cases hw <;> simp only [Var.sameAll]
  | cons hv _ ih =>
    cases hw with
    | nil => simp only [Var.sameAll]
    | cons hw hws => rw [Var.sameAll, Var.sameAll, Var.same_eq_of_renamed h hv.1 hv.2 hw.1 hw.2, ih hws]

mutual

/-- Renaming that is consistent keeps what comparing for equality says. -/
theorem Expr.same_eq_of_renamed (h : Consistent ρ σ) (a : Expr) {b a' b' : Expr} {scope scope' : Renaming}
    (ha : Expr.Renamed ρ scope a a') (hb : Expr.Renamed σ scope' b b') : a.same b = a'.same b' := by
  cases a with
  | var v =>
    cases ha with
    | var hname hlinks htype =>
      cases hb with
      | var hname' hlinks' htype' =>
        rw [Expr.same, Expr.same, Var.same_eq_of_renamed h hname htype hname' htype']
      | _ => rw [Expr.same.eq_def, Expr.same.eq_def]
  | unary op arg =>
    cases ha with
    | unary harg =>
      cases hb with
      | unary harg' =>
        rw [Expr.same, Expr.same, Expr.same_eq_of_renamed h arg harg harg']
      | _ => rw [Expr.same.eq_def, Expr.same.eq_def]
  | binary op lhs rhs =>
    cases ha with
    | binary hlhs hrhs =>
      cases hb with
      | binary hlhs' hrhs' =>
        rw [Expr.same, Expr.same, Expr.same_eq_of_renamed h lhs hlhs hlhs', Expr.same_eq_of_renamed h rhs hrhs hrhs']
      | _ => rw [Expr.same.eq_def, Expr.same.eq_def]
  | ite cond thenE elseE =>
    cases ha with
    | ite hcond hthen helse =>
      cases hb with
      | ite hcond' hthen' helse' =>
        rw [Expr.same, Expr.same, Expr.same_eq_of_renamed h cond hcond hcond',
          Expr.same_eq_of_renamed h thenE hthen hthen', Expr.same_eq_of_renamed h elseE helse helse']
      | _ => rw [Expr.same.eq_def, Expr.same.eq_def]
  | element base indices =>
    cases ha with
    | element hbase hindices =>
      cases hb with
      | element hbase' hindices' =>
        rw [Expr.same, Expr.same, Expr.same_eq_of_renamed h base hbase hbase',
          Expr.sameAll_eq_of_renamed h indices hindices hindices']
      | _ => rw [Expr.same.eq_def, Expr.same.eq_def]
  | call func args =>
    cases ha with
    | call hargs =>
      cases hb with
      | call hargs' =>
        rw [Expr.same, Expr.same, Expr.sameAll_eq_of_renamed h args hargs hargs']
      | _ => rw [Expr.same.eq_def, Expr.same.eq_def]
  | cast target arg =>
    cases ha with
    | cast htarget harg =>
      cases hb with
      | cast htarget' harg' =>
        rw [Expr.same, Expr.same, Ty.same_eq_of_renamed h target htarget htarget',
          Expr.same_eq_of_renamed h arg harg harg']
      | _ => rw [Expr.same.eq_def, Expr.same.eq_def]
  | deref arg =>
    cases ha with
    | deref harg =>
      cases hb with
      | deref harg' =>
        rw [Expr.same, Expr.same, Expr.same_eq_of_renamed h arg harg harg']
      | _ => rw [Expr.same.eq_def, Expr.same.eq_def]
  | addr arg =>
    cases ha with
    | addr harg =>
      cases hb with
      | addr harg' =>
        rw [Expr.same, Expr.same, Expr.same_eq_of_renamed h arg harg harg']
      | _ => rw [Expr.same.eq_def, Expr.same.eq_def]
  | ref arg =>
    cases ha with
    | ref harg =>
      cases hb with
      | ref harg' =>
        rw [Expr.same, Expr.same, Expr.same_eq_of_renamed h arg harg harg']
      | _ => rw [Expr.same.eq_def, Expr.same.eq_def]
  | tensorInput name dtype shape =>
    cases ha with
    | tensorInput hshape =>
      cases hb with
      | tensorInput hshape' =>
        rw [Expr.same, Expr.same, Expr.sameShape_eq_of_renamed h shape hshape hshape']
      | _ => rw [Expr.same.eq_def, Expr.same.eq_def]
  | compute name shape axes value =>
    cases ha with
    | compute hshape haxes hvalue =>
      cases hb with
      | compute hshape' haxes' hvalue' =>
        rw [Expr.same, Expr.same, Expr.sameAll_eq_of_renamed h shape hshape hshape', haxes.sameAll_eq h haxes',
          Expr.same_eq_of_renamed h value hvalue hvalue']
      | _ => rw [Expr.same.eq_def, Expr.same.eq_def]
  | reduce kind shape axes value =>
    cases ha with
    | reduce hshape haxes hvalue =>
      cases hb with
      | reduce hshape' haxes' hvalue' =>
        rw [Expr.same, Expr.same, Expr.sameAll_eq_of_renamed h shape hshape hshape', haxes.sameAll_eq h haxes',
          Expr.same_eq_of_renamed h value hvalue hvalue']
      | _ => rw [Expr.same.eq_def, Expr.same.eq_def]
  | letIn v value body =>
    cases ha with
    | letIn hvalue hv hbody =>
      cases hb with
      | letIn hvalue' hv' hbody' =>
        have hvar := hv.sameAll_eq h hv'
        simp only [Var.sameAll, Bool.and_true] at hvar
        rw [Expr.same, Expr.same, hvar, Expr.same_eq_of_renamed h value hvalue hvalue',
          Expr.same_eq_of_renamed h body hbody hbody']
      | _ => rw [Expr.same.eq_def, Expr.same.eq_def]
  | const | scalarInput | any | anyCompute | anyReduce =>
    cases ha
    cases hb <;> simp only [Expr.same]
termination_by structural a

theorem Expr.sameAll_eq_of_renamed (h : Consistent ρ σ) (as : List Expr) {bs as' bs' : List Expr}
    {scope scope' : Renaming} (ha : Expr.AllRenamed ρ scope as as') (hb : Expr.AllRenamed σ scope' bs bs') :
    Expr.sameAll as bs = Expr.sameAll as' bs' := by
  cases as with
  | nil =>
    cases ha
    cases hb <;> simp only [Expr.sameAll]
  | cons a as =>
    cases ha with
    | cons ha has =>
      cases hb with
      | nil => simp only [Expr.sameAll]
      | cons hb hbs =>
        rw [Expr.sameAll, Expr.sameAll, Expr.same_eq_of_renamed h a ha hb, Expr.sameAll_eq_of_renamed h as has hbs]
termination_by structural as

theorem Expr.sameShape_eq_of_renamed (h : Consistent ρ σ) (as : Option (List Expr)) {bs as' bs' : Option (List Expr)}
    {scope scope' : Renaming} (ha : Expr.ShapeRenamed ρ scope as as') (hb : Expr.ShapeRenamed σ scope' bs bs') :
    Expr.sameShape as bs = Expr.sameShape as' bs' := by
  cases as with
  | none =>
    cases ha
    cases hb <;> simp only [Expr.sameShape]
  | some as =>
    cases ha with
    | known ha =>
      cases hb with
      | opened => simp only [Expr.sameShape]
      | known hb => rw [Expr.sameShape, Expr.sameShape, Expr.sameAll_eq_of_renamed h as ha hb]
termination_by structural as

theorem TensorType.same_eq_of_renamed (h : Consistent ρ σ) (a : TensorType) {b a' b' : TensorType}
    {scope scope' : Renaming} (ha : TensorType.Renamed ρ scope a a') (hb : TensorType.Renamed σ scope' b b') :
    a.same b = a'.same b' := by
  cases a with
  | mk memory dtype shape strides =>
    cases ha with
    | mk hshape hstrides =>
      cases hb with
      | mk hshape' hstrides' =>
        rw [TensorType.same, TensorType.same, Expr.sameShape_eq_of_renamed h shape hshape hshape',
          Expr.sameShape_eq_of_renamed h strides hstrides hstrides']
termination_by structural a

theorem Ty.same_eq_of_renamed (h : Consistent ρ σ) (a : Ty) {b a' b' : Ty} {scope scope' : Renaming}
    (ha : Ty.Renamed ρ scope a a') (hb : Ty.Renamed σ scope' b b') : a.same b = a'.same b' := by
  cases a with
  | scalar | void =>
    cases ha
    cases hb <;> simp only [Ty.same]
  | tensor type =>
    cases ha with
    | tensor ha =>
      cases hb with
      | tensor hb => rw [Ty.same, Ty.same, TensorType.same_eq_of_renamed h type ha hb]
      | _ => simp only [Ty.same]
  | tensorPointer type =>
    cases ha with
    | tensorPointer ha =>
      cases hb with
      | tensorPointer hb => rw [Ty.same, Ty.same, TensorType.same_eq_of_renamed h type ha hb]
      | _ => simp only [Ty.same]
  | pointer base =>
    cases ha with
    | pointer ha =>
      cases hb with
      | pointer hb => rw [Ty.same, Ty.same, Ty.same_eq_of_renamed h base ha hb]
      | _ => simp only [Ty.same]
  | reference base =>
    cases ha with
    | reference ha =>
      cases hb with
      | reference hb => rw [Ty.same, Ty.same, Ty.same_eq_of_renamed h base ha hb]
      | _ => simp only [Ty.same]
termination_by structural a

end

/-! ## What renaming keeps -/

theorem Var.same_self_of_ty_eq {v w : Var} (h : v.ty = w.ty) : v.same v = w.same w := by
  obtain ⟨n, ty⟩ := v
  obtain ⟨m, tx⟩ := w
  cases h
  rw [Var.same, Var.same, beq_self_eq_true, beq_self_eq_true]

theorem Var.RenamedAll.sameAll_self {vs ws : List Var} (h : Var.RenamedAll ρ vs ws) :
    Var.sameAll vs vs = Var.sameAll ws ws := by
  induction h with
  | nil => rfl
  | cons h _ ih => rw [Var.sameAll, Var.sameAll, Var.same_self_of_ty_eq h.2, ih]

/-- Whether an expression equals itself, which a literal that is not a number decides, does not depend on names. -/
theorem Expr.Renamed.same_self {e e' : Expr} (h : Expr.Renamed ρ scope e e') : e.same e = e'.same e' := by
  apply @Expr.Renamed.rec ρ (fun _ e e' _ => e.same e = e'.same e') (fun _ es es' _ => sameAll es es = sameAll es' es')
    (fun _ es es' _ => sameShape es es = sameShape es' es') (fun _ type type' _ => type.same type = type'.same type')
    (fun _ type type' _ => type.same type = type'.same type')
  case t => exact h
  case var =>
    intro _ v w _ _ htype
    rw [Expr.same, Expr.same, Var.same_self_of_ty_eq htype]
  case letIn =>
    intro _ v v' _ _ _ _ _ hv _ hvalue hbody
    have hvar := hv.sameAll_self
    simp only [Var.sameAll, Bool.and_true] at hvar
    rw [Expr.same, Expr.same, hvar, hvalue, hbody]
  case compute | reduce =>
    intro _ _ _ _ _ _ _ _ _ haxes _ hshape hvalue
    rw [Expr.same, Expr.same, hshape, haxes.sameAll_self, hvalue, beq_self_eq_true]
  all_goals
    intros
    simp_all only [Expr.same, sameAll, sameShape, TensorType.same, Ty.same, beq_self_eq_true]

theorem Expr.hasReduction_eq (e : Expr) :
    e.hasReduction = ((match e with | .reduce .. => true | _ => false) || e.children.any Expr.hasReduction) := by
  rw [Expr.hasReduction, Expr.preorder_eq, List.any_cons, List.any_flatMap]
  rfl

theorem Expr.AllRenamed.any_hasReduction {es es' : List Expr} (h : Expr.AllRenamed ρ scope es es')
    (ih : ∀ e ∈ es, ∀ e' scope, Expr.Renamed ρ scope e e' → e.hasReduction = e'.hasReduction) :
    es.any Expr.hasReduction = es'.any Expr.hasReduction := by
  induction es generalizing es' with
  | nil =>
    cases h
    rfl
  | cons e es ihs =>
    cases h with
    | cons he hes =>
      rw [List.any_cons, List.any_cons, ih e List.mem_cons_self _ _ he,
        ihs hes fun e he => ih e (List.mem_cons_of_mem _ he)]

theorem Expr.Renamed.hasReduction_eq {e e' : Expr} (h : Expr.Renamed ρ scope e e') :
    e.hasReduction = e'.hasReduction := by
  induction e using Expr.induct generalizing e' scope with
  | node e ih =>
    have ih : ∀ c ∈ e.children, ∀ c' scope, Expr.Renamed ρ scope c c' → c.hasReduction = c'.hasReduction :=
      fun c hc c' scope hc' => ih c hc hc'
    rw [Expr.hasReduction_eq, Expr.hasReduction_eq e']
    cases h with
    | element hbase hindices =>
      simp only [children, List.any_cons, ih _ List.mem_cons_self _ _ hbase,
        hindices.any_hasReduction fun e he => ih e (List.mem_cons_of_mem _ he)]
    | call hargs => simp only [children, hargs.any_hasReduction ih]
    | tensorInput hshape =>
      cases hshape with
      | opened => rfl
      | known h => simp only [children, Option.getD_some, h.any_hasReduction ih]
    | compute hshape _ hvalue | reduce hshape _ hvalue =>
      simp only [children, List.any_append, List.any_cons, ih _ (List.mem_append_right _ List.mem_cons_self) _ _ hvalue,
        hshape.any_hasReduction fun e he => ih e (List.mem_append_left _ he)]
    | unary harg | cast _ harg | deref harg | addr harg | ref harg =>
      simp only [children, List.any_cons, List.any_nil, ih _ List.mem_cons_self _ _ harg]
    | binary hlhs hrhs | letIn hlhs _ hrhs =>
      simp only [children, List.any_cons, List.any_nil, ih _ List.mem_cons_self _ _ hlhs,
        ih _ (List.mem_cons_of_mem _ List.mem_cons_self) _ _ hrhs]
    | ite hcond hthen helse =>
      simp only [children, List.any_cons, List.any_nil, ih _ List.mem_cons_self _ _ hcond,
        ih _ (List.mem_cons_of_mem _ List.mem_cons_self) _ _ hthen,
        ih _ (List.mem_cons_of_mem _ (List.mem_cons_of_mem _ List.mem_cons_self)) _ _ helse]
    | var | const | scalarInput | any | anyCompute | anyReduce => rfl

/-! ## Strides -/

theorem Expr.Renamed.int?_eq {e e' : Expr} (h : Expr.Renamed ρ scope e e') : e.int? = e'.int? := by
  cases h <;> rfl

theorem TensorType.renamed_scaledStride {stride stride' extent extent' : Expr} (hs : Expr.Renamed ρ scope stride stride')
    (he : Expr.Renamed ρ scope extent extent') :
    Expr.Renamed ρ scope (TensorType.scaledStride stride extent) (TensorType.scaledStride stride' extent') := by
  unfold TensorType.scaledStride
  rw [← hs.int?_eq, ← he.int?_eq]
  split
  · exact .const
  · exact .binary hs he

theorem Expr.AllRenamed.headD {es es' : List Expr} {d d' : Expr} (h : Expr.AllRenamed ρ scope es es')
    (hd : Expr.Renamed ρ scope d d') : Expr.Renamed ρ scope (es.headD d) (es'.headD d') := by
  cases h with
  | nil => exact hd
  | cons he _ => exact he

theorem TensorType.allRenamed_rowMajorStrides {shape shape' : List Expr} (h : Expr.AllRenamed ρ scope shape shape') :
    Expr.AllRenamed ρ scope (TensorType.rowMajorStrides shape) (TensorType.rowMajorStrides shape') := by
  induction shape generalizing shape' with
  | nil =>
    cases h
    exact .nil
  | cons e shape ih =>
    cases h with
    | cons he hes =>
      cases hes with
      | nil => exact .cons .const .nil
      | cons hextent hrest =>
        have hstrides := ih (.cons hextent hrest)
        exact .cons (TensorType.renamed_scaledStride (hstrides.headD .const) hextent) hstrides

theorem TensorType.Renamed.effectiveStrides? {type type' : TensorType} (h : TensorType.Renamed ρ scope type type') :
    Expr.ShapeRenamed ρ scope type.effectiveStrides? type'.effectiveStrides? := by
  cases h with
  | mk hshape hstrides =>
    cases hstrides with
    | known h => exact .known h
    | opened =>
      cases hshape with
      | opened => exact .opened
      | known h => exact .known (TensorType.allRenamed_rowMajorStrides h)

end

/-! ## Weights -/

mutual

/-- The weight of an expression: more than that of any node inside of it, those in the types of its casts and in the strides
in effect there among them. -/
def Expr.weight : Expr → Nat
  | .unary _ arg | .deref arg | .addr arg | .ref arg => arg.weight + 1
  | .binary _ lhs rhs => lhs.weight + rhs.weight + 1
  | .letIn _ value body => value.weight + body.weight + 1
  | .ite cond thenE elseE => cond.weight + thenE.weight + elseE.weight + 1
  | .element base indices => base.weight + Expr.totalWeight indices + 1
  | .call _ args => Expr.totalWeight args + 1
  | .cast target arg => target.weight + arg.weight + 1
  | .tensorInput _ _ shape => Expr.shapeWeight shape + 1
  | .compute _ shape _ value | .reduce _ shape _ value => Expr.totalWeight shape + value.weight + 1
  | .var _ | .const .. | .scalarInput .. | .any _ | .anyCompute .. | .anyReduce _ => 1

def Expr.totalWeight : List Expr → Nat
  | [] => 0
  | e :: es => e.weight + Expr.totalWeight es

/-- The weight that the strides of a tensor of the given extents have at most, where none are declared. -/
def Expr.rowMajorWeight : List Expr → Nat
  | [] => 0
  | _ :: es => Expr.rowMajorWeight es + (Expr.rowMajorWeight es + Expr.totalWeight es + 2)

def Expr.shapeWeight : Option (List Expr) → Nat
  | none => 0
  | some es => Expr.totalWeight es

def Expr.stridesWeight : Option (List Expr) → Nat
  | none => 0
  | some es => Expr.rowMajorWeight es

def TensorType.weight : TensorType → Nat
  | ⟨_, _, shape, strides⟩ => Expr.shapeWeight shape + Expr.stridesWeight shape + Expr.shapeWeight strides

def Ty.weight : Ty → Nat
  | .tensor type | .tensorPointer type => type.weight
  | .pointer base | .reference base => base.weight
  | .scalar _ | .void => 0

end

theorem Expr.weight_int (n : Int64) : (Expr.int n).weight = 1 := rfl

theorem Expr.weight_headD_le (es : List Expr) : (es.headD (.int 1)).weight ≤ Expr.totalWeight es + 1 := by
  cases es with
  | nil => exact Nat.le_refl _
  | cons e es =>
    rw [List.headD_cons, Expr.totalWeight]
    omega

theorem TensorType.weight_scaledStride_le (stride extent : Expr) :
    (TensorType.scaledStride stride extent).weight ≤ stride.weight + extent.weight + 1 := by
  unfold TensorType.scaledStride
  split
  · rw [Expr.weight_int]
    omega
  · exact Nat.le_refl _

theorem TensorType.totalWeight_rowMajorStrides_le (es : List Expr) :
    Expr.totalWeight (TensorType.rowMajorStrides es) ≤ Expr.rowMajorWeight es := by
  induction es with
  | nil => exact Nat.le_refl _
  | cons e es ih =>
    cases es with
    | nil =>
      rw [TensorType.rowMajorStrides, Expr.totalWeight, Expr.totalWeight, Expr.weight_int, Expr.rowMajorWeight]
      omega
    | cons extent rest =>
      rw [TensorType.rowMajorStrides, Expr.totalWeight, Expr.rowMajorWeight, Expr.totalWeight]
      generalize TensorType.rowMajorStrides (extent :: rest) = strides at ih ⊢
      have hstride := TensorType.weight_scaledStride_le (strides.headD (.int 1)) extent
      have hhead := Expr.weight_headD_le strides
      omega

theorem TensorType.shapeWeight_effectiveStrides?_le (type : TensorType) :
    Expr.shapeWeight type.effectiveStrides? ≤ type.weight := by
  obtain ⟨scope, dtype, shape, strides⟩ := type
  rw [TensorType.weight]
  cases strides with
  | some strides => exact Nat.le_add_left _ _
  | none =>
    cases shape with
    | none => exact Nat.zero_le _
    | some es =>
      have h := TensorType.totalWeight_rowMajorStrides_le es
      rw [Expr.stridesWeight]
      exact Nat.le_add_right_of_le (Nat.le_add_left_of_le h)

theorem Expr.Renamed.weight_eq {ρ : String → String → Prop} {scope : Renaming} {e e' : Expr} (h : Expr.Renamed ρ scope e e') :
    e.weight = e'.weight := by
  apply @Expr.Renamed.rec ρ (fun _ e e' _ => e.weight = e'.weight)
    (fun _ es es' _ => totalWeight es = totalWeight es' ∧ rowMajorWeight es = rowMajorWeight es')
    (fun _ es es' _ => shapeWeight es = shapeWeight es' ∧ stridesWeight es = stridesWeight es')
    (fun _ type type' _ => type.weight = type'.weight) (fun _ type type' _ => type.weight = type'.weight)
  case t => exact h
  all_goals
    intros
    simp_all only [Expr.weight, totalWeight, rowMajorWeight, shapeWeight, stridesWeight, TensorType.weight, Ty.weight,
      and_self]

/-- Equal expressions are of the same weight. -/
theorem Expr.weight_eq_of_same :
    (∀ a b : Expr, a.same b → a.weight = b.weight) ∧ (∀ _ _ : List Var, True) ∧ (∀ _ _ : Var, True) ∧
      (∀ a b : Ty, a.same b → a.weight = b.weight) ∧
      (∀ a b : TensorType, a.same b → a.weight = b.weight) ∧
      (∀ as bs : Option (List Expr), sameShape as bs →
        shapeWeight as = shapeWeight bs ∧ stridesWeight as = stridesWeight bs) ∧
      ∀ as bs : List Expr, sameAll as bs → totalWeight as = totalWeight bs ∧ rowMajorWeight as = rowMajorWeight bs := by
  apply Expr.same.mutual_induct <;>
    simp +contextual [Expr.same, sameAll, sameShape, TensorType.same, Ty.same, Expr.weight, totalWeight, shapeWeight,
      rowMajorWeight, stridesWeight, TensorType.weight, Ty.weight]

end TensorCompiler
