import TensorCompiler.Proofs.Expr.TypeSoundness

/-! # What an expression depends on

An expression has the same value in two environments that agree on the names that occur free in it. An axis of a reduction
that has no extent to run over is bound to nothing and stays what it is in the environment; where each axis has its extent,
the names that occur free are those of the free variables.
-/

namespace TensorCompiler

/-- Binding the same values makes two environments agree on what is bound and leaves the rest as it is. -/
theorem Env.lookup_bind_congr {env env' : Env} {vars : List Var} {values : List Value} {x : String}
    (hlength : vars.length ≤ values.length) (h : x ∉ vars.map Var.name → env'.lookup x = env.lookup x) :
    (env'.bind vars values).lookup x = (env.bind vars values).lookup x := by
  induction vars generalizing env env' values with
  | nil => exact h List.not_mem_nil
  | cons v vars ih =>
    cases values with
    | nil => cases hlength
    | cons a values =>
      rw [bind, bind]
      refine ih (Nat.le_of_succ_le_succ hlength) fun hx => ?_
      by_cases hv : x = v.name
      · subst hv
        rw [List.lookup_cons_self, List.lookup_cons_self]
      · rw [List.lookup_cons, List.lookup_cons, beq_false_of_ne hv]
        refine h fun hmem => ?_
        rcases List.mem_cons.mp hmem with heq | hmem
        · exact hv heq
        · exact hx hmem

theorem Env.lookup_bind_of_not_mem {name : String} {axes : List Var} (h : name ∉ axes.map Var.name) (env : Env)
    (values : List Value) : (env.bind axes values).lookup name = env.lookup name := by
  induction axes generalizing env values with
  | nil => cases values <;> rfl
  | cons v axes ih =>
    cases values with
    | nil => rfl
    | cons x values =>
      have hne : name ≠ v.name := List.ne_of_not_mem_cons h
      rw [bind, ih (List.not_mem_of_not_mem_cons h), List.lookup_cons, beq_false_of_ne hne]

/-- A variable without a value is not bound. -/
theorem Env.bind_take (env : Env) (vars : List Var) (values : List Value) :
    env.bind (vars.take values.length) values = env.bind vars values := by
  induction vars generalizing env values with
  | nil => rw [List.take_nil]
  | cons v vars ih =>
    cases values with
    | nil => rfl
    | cons a values => exact ih ((v.name, a) :: env) values

namespace Expr

/-! ## Free variables -/

/-- Whether a node gives a meaning to variables: it is one, or it binds some. -/
def isScoping : Expr → Bool
  | var _ | letIn .. | compute .. | reduce .. => true
  | _ => false

/-- Other nodes have the free variables of their parts. -/
theorem freeVars_eq {e : Expr} (h : e.isScoping = false) : e.freeVars = e.children.flatMap freeVars := by
  cases e with
  | var | letIn | compute | reduce => cases h
  | tensorInput name dtype shape => cases shape <;> simp [freeVars, freeVarsAll_eq, children]
  | _ => simp [freeVars, freeVarsAll_eq, children]

theorem mem_freeVars_of_child {e c : Expr} {w : Var} (h : e.isScoping = false) (hc : c ∈ e.children)
    (hw : w ∈ c.freeVars) : w ∈ e.freeVars := by
  rw [freeVars_eq h]
  exact List.mem_flatMap.mpr ⟨c, hc, hw⟩

theorem mem_freeVars_letIn {v w : Var} {value body : Expr} :
    w ∈ (letIn v value body).freeVars ↔ w ∈ value.freeVars ∨ w ∈ body.freeVars ∧ w.name ≠ v.name := by
  simp [freeVars]

theorem mem_freeVars_reduce {w : Var} {kind : ReduceKind} {shape : List Expr} {axes : List Var} {value : Expr} :
    w ∈ (reduce kind shape axes value).freeVars ↔
      (∃ extent ∈ shape, w ∈ extent.freeVars) ∨ w ∈ value.freeVars ∧ w.name ∉ axes.map Var.name := by
  simp [freeVars, freeVarsAll_eq]

/-! ## Occurrences -/

/-- The direct sub-expressions of a node, each with the variables that the node binds in it. A reduction binds those of its
axes that have an extent to run over. -/
def scopedChildren : Expr → List (List Var × Expr)
  | letIn v value body => [([], value), ([v], body)]
  | reduce _ shape axes value => shape.map (Prod.mk []) ++ [(axes.take shape.length, value)]
  | compute _ shape axes value => shape.map (Prod.mk []) ++ [(axes, value)]
  | e => e.children.map (Prod.mk [])

theorem map_snd_scopedChildren (e : Expr) : e.scopedChildren.map Prod.snd = e.children := by
  cases e <;> simp [scopedChildren, children]

theorem mem_children_of_scoped {e c : Expr} {vars : List Var} (h : (vars, c) ∈ e.scopedChildren) : c ∈ e.children :=
  map_snd_scopedChildren e ▸ List.mem_map_of_mem h

/-- Whether a name occurs free: as a variable that is not inside of the scope of a variable of the name. -/
inductive OccursFree (x : String) : Expr → Prop
  | var {v : Var} (hname : v.name = x) : OccursFree x (.var v)
  | inside {e c : Expr} {vars : List Var} (hc : (vars, c) ∈ e.scopedChildren) (hx : x ∉ vars.map Var.name)
      (h : OccursFree x c) : OccursFree x e

/-- Whether each reduction in an expression has one axis for each extent. -/
def IsShaped (e : Expr) : Prop :=
  ∀ kind shape axes value, reduce kind shape axes value ∈ e.preorder → axes.length = shape.length

theorem IsShaped.child {e c : Expr} (h : e.IsShaped) (hc : c ∈ e.children) : c.IsShaped :=
  fun kind shape axes value hmem => h kind shape axes value (mem_preorder_of_child hc hmem)

/-- If each axis has its extent, the names that occur free are those of the free variables. -/
theorem OccursFree.mem_freeVars {e : Expr} {x : String} (h : e.OccursFree x) (hshaped : e.IsShaped) :
    ∃ w ∈ e.freeVars, w.name = x := by
  induction h with
  | @var v hname => exact ⟨v, by simp [freeVars], hname⟩
  | @inside e c vars hc hx _ ih =>
    obtain ⟨w, hw, rfl⟩ := ih (hshaped.child (mem_children_of_scoped hc))
    refine ⟨w, ?_, rfl⟩
    have hextent {shape : List Expr} (hmem : (vars, c) ∈ shape.map (Prod.mk [])) : c ∈ shape := by
      obtain ⟨extent, hextent, heq⟩ := List.mem_map.mp hmem
      cases heq
      exact hextent
    cases e with
    | var => cases hc
    | letIn v value body =>
      rw [mem_freeVars_letIn]
      simp only [scopedChildren, List.mem_cons, List.not_mem_nil, or_false, Prod.mk.injEq] at hc
      rcases hc with ⟨rfl, rfl⟩ | ⟨rfl, rfl⟩
      · exact .inl hw
      · exact .inr ⟨hw, by simpa using hx⟩
    | reduce kind shape axes value =>
      have hlength := hshaped kind shape axes value (mem_preorder_self _)
      rw [mem_freeVars_reduce]
      rcases List.mem_append.mp hc with hc | hc
      · exact .inl ⟨c, hextent hc, hw⟩
      · cases List.mem_singleton.mp hc
        rw [← hlength, List.take_length] at hx
        exact .inr ⟨hw, hx⟩
    | compute name shape axes value =>
      rw [freeVars, freeVarsAll_eq, List.mem_append, List.mem_flatMap]
      rcases List.mem_append.mp hc with hc | hc
      · exact .inl ⟨c, hextent hc, hw⟩
      · cases List.mem_singleton.mp hc
        exact .inr (List.mem_filter.mpr ⟨hw, by simpa using hx⟩)
    | _ => exact mem_freeVars_of_child rfl (mem_children_of_scoped hc) hw

/-! ## Evaluation -/

/-- The name and the element type of the tensor that an element with this base is read from. -/
def source? (e : Expr) : Option (String × ScalarType) :=
  e.tensorInput?.map fun input => (input.name, input.dtype)

theorem source?_eq_some_iff {e : Expr} {name : String} {dtype : ScalarType} :
    e.source? = some (name, dtype) ↔ ∃ shape, e = tensorInput name dtype shape := by
  cases e <;> simp [source?, tensorInput?]

theorem isRejected_mapChildren (f : Expr → Expr) (e : Expr) : (e.mapChildren f).isRejected = e.isRejected := by
  cases e <;> simp [mapChildren, isRejected]

variable [FloatOps] {tensors : Tensors} {env env' : Env} {e : Expr} {v : Value}

/-- Only an input has elements to read. -/
theorem eval_element_ne_ok {base : Expr} {indices : List Expr} (h : base.source? = none) :
    (element base indices).eval tensors env ≠ .ok v := by
  cases base with
  | tensorInput => cases h
  | _ =>
    rw [eval]
    · rintro ⟨⟩
    · simp

/-- A node other than a variable has the same values as one whose parts have the same values, each with what the node
binds in it. -/
theorem eval_mapChildren_eq_ok_iff {f : Expr → Expr} (hvar : ∀ w, e ≠ var w)
    (hextents : ∀ kind shape axes value, e = reduce kind shape axes value → shape.map f = shape)
    (hsource : ∀ base indices, e = element base indices → (f base).source? = base.source?)
    (h : ∀ vars c, (vars, c) ∈ e.scopedChildren → ∀ values : List Value, vars.length ≤ values.length → ∀ a,
      (f c).eval tensors (env'.bind vars values) = .ok a ↔ c.eval tensors (env.bind vars values) = .ok a) :
    (e.mapChildren f).eval tensors env' = .ok v ↔ e.eval tensors env = .ok v := by
  -- most nodes bind nothing
  have hopen {c : Expr} (hc : ([], c) ∈ e.scopedChildren) (a : Value) :
      (f c).eval tensors env' = .ok a ↔ c.eval tensors env = .ok a := h [] c hc [] le_rfl a
  cases e with
  | var w => exact absurd rfl (hvar w)
  | const value d => exact eval_const_eq_ok_iff.trans eval_const_eq_ok_iff.symm
  | unary op arg =>
    rw [mapChildren, eval_unary_eq_ok_iff, eval_unary_eq_ok_iff]
    exact exists_congr fun a => and_congr_left' (hopen (by simp [scopedChildren, children]) a)
  | binary op lhs rhs =>
    rw [mapChildren, eval_binary_eq_ok_iff, eval_binary_eq_ok_iff]
    refine exists_congr fun a => exists_congr fun b => and_congr ?_ (and_congr_left' ?_)
    · exact hopen (by simp [scopedChildren, children]) a
    · exact hopen (by simp [scopedChildren, children]) b
  | letIn x value body =>
    rw [mapChildren, eval_letIn_eq_ok_iff, eval_letIn_eq_ok_iff]
    refine exists_congr fun a => and_congr (hopen (by simp [scopedChildren]) a) ?_
    exact h [x] body (by simp [scopedChildren]) [a] le_rfl v
  | ite cond thenE elseE =>
    rw [mapChildren, eval_ite_eq_ok_iff, eval_ite_eq_ok_iff]
    refine exists_congr fun c => and_congr (hopen (by simp [scopedChildren, children]) c) ?_
    split_ifs
    · exact hopen (by simp [scopedChildren, children]) v
    · exact hopen (by simp [scopedChildren, children]) v
  | element base indices =>
    have hbase := hsource base indices rfl
    rw [mapChildren]
    cases hkey : base.source? with
    | none => exact iff_of_false (eval_element_ne_ok (hbase.trans hkey)) (eval_element_ne_ok hkey)
    | some key =>
      obtain ⟨shape, hread⟩ := source?_eq_some_iff.mp hkey
      obtain ⟨shape', hread'⟩ := source?_eq_some_iff.mp (hbase.trans hkey)
      rw [hread', hread, eval_element_eq_ok_iff, eval_element_eq_ok_iff]
      refine exists_congr fun array => exists_congr fun ns => exists_congr fun x => and_congr_right fun _ =>
        and_congr_left' ?_
      rw [List.forall₂_map_left_iff]
      exact forall₂_congr_of_mem fun i hi n =>
        and_congr_left' (hopen (by simp [scopedChildren, children, hi]) _)
  | call func args =>
    rw [mapChildren, eval_call_eq_ok_iff, eval_call_eq_ok_iff]
    refine exists_congr fun values => and_congr_left' ?_
    rw [List.forall₂_map_left_iff]
    exact forall₂_congr_of_mem fun arg harg a => hopen (by simp [scopedChildren, children, harg]) a
  | cast target arg =>
    rw [mapChildren, eval_cast_eq_ok_iff, eval_cast_eq_ok_iff]
    exact exists_congr fun a => exists_congr fun d =>
      and_congr_left' (hopen (by simp [scopedChildren, children]) a)
  | reduce kind shape axes value =>
    rw [mapChildren, eval_reduce_eq_ok_iff, eval_reduce_eq_ok_iff, hextents kind shape axes value rfl]
    refine exists_congr fun extents => exists_congr fun vs => exists_congr fun acc =>
      and_congr_right fun hshape => and_congr_left' ?_
    refine forall₂_congr_of_mem fun point hpoint a => ?_
    have hlength : (point.map Value.int).length = shape.length := by
      rw [List.length_map, length_of_mem_points hpoint, length_of_constShape? hshape]
    have hvalue := h (axes.take shape.length) value (by simp [scopedChildren]) (point.map .int)
      (by rw [hlength]; exact List.length_take_le _ _) a
    rwa [← hlength, Env.bind_take, Env.bind_take] at hvalue
  | deref | addr | ref | scalarInput | tensorInput | compute | any | anyCompute | anyReduce =>
    exact iff_of_false (eval_ne_ok_of_isRejected rfl) (eval_ne_ok_of_isRejected rfl)

/-- A value depends on the names that occur free only. -/
theorem eval_eq_ok_iff_of_agree (hagree : ∀ x, e.OccursFree x → env'.lookup x = env.lookup x) :
    e.eval tensors env' = .ok v ↔ e.eval tensors env = .ok v := by
  induction e using Expr.induct generalizing env env' v with
  | node e ih =>
    by_cases hvar : ∃ w, e = var w
    · obtain ⟨w, rfl⟩ := hvar
      rw [eval_var_eq_ok_iff, eval_var_eq_ok_iff, hagree w.name (.var rfl)]
    · have hsame : (e.mapChildren id).eval tensors env' = .ok v ↔ e.eval tensors env = .ok v := by
        refine eval_mapChildren_eq_ok_iff (fun w hw => hvar ⟨w, hw⟩) (fun _ _ _ _ _ => List.map_id _) (fun _ _ _ => rfl)
          fun vars c hc values hlength a => ih c (mem_children_of_scoped hc) fun x hx => ?_
        exact Env.lookup_bind_congr hlength fun hbound => hagree x (.inside hc hbound hx)
      rwa [mapChildren_id] at hsame

/-- If each axis has its extent, a value depends on the free variables only. -/
theorem eval_of_agree (hshaped : e.IsShaped) (hagree : ∀ w ∈ e.freeVars, env'.lookup w.name = env.lookup w.name)
    (h : e.eval tensors env = .ok v) : e.eval tensors env' = .ok v := by
  refine (eval_eq_ok_iff_of_agree fun x hx => ?_).mpr h
  obtain ⟨w, hw, rfl⟩ := hx.mem_freeVars hshaped
  exact hagree w hw

end Expr

end TensorCompiler
