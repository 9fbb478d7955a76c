import TensorCompiler.Proofs.Codegen.Value
import TensorCompiler.Proofs.Kernel.Launch
import TensorCompiler.Proofs.Stmt.Scoping

/-! # Reductions that leave their place

Lowering moves the reductions of a value in front of it, out of whatever binds variables or chooses between branches
there. A value without such surroundings means the same afterwards: the statements in front run and leave the reductions
in their accumulators, and the lowered value then gives what the evaluator gives. The same holds inside conditionals for
reductions that have values in either case, and under bindings that a reduction does not depend on; otherwise a loop reads
a variable that is bound further inside only, or an element that the conditional keeps out of reach.
-/

namespace TensorCompiler

namespace Expr

/-- Whether lowering an expression moves a reduction in front of it. Reductions inside of that one stay in its loops. -/
inductive Hoists : Expr → Expr → Prop
  | self (kind : ReduceKind) (shape : List Expr) (axes : List Var) (value : Expr) :
      Hoists (reduce kind shape axes value) (reduce kind shape axes value)
  | inside {e c r : Expr} (he : e.isPlain) (hc : c ∈ e.children) (h : Hoists c r) : Hoists e r

/-- Whether no reduction leaves the scope of a variable that it depends on, and no variable that an expression binds has
one of the given names. -/
structure KeepsScopes (taken : List String) (e : Expr) : Prop where
  lets : ∀ v value body, letIn v value body ∈ e.preorder → v.name ∉ taken ∧ ∀ r, body.Hoists r → v.name ∉ r.freeNames
  axes : ∀ kind shape axes value, reduce kind shape axes value ∈ e.preorder → ∀ v ∈ axes, v.name ∉ taken

/-- Whether the reductions in an expression are of an integer type, with one axis for each extent, and nonempty. -/
structure ReducesIntegers (e : Expr) : Prop where
  shaped : e.IsShaped
  extents : ∀ kind shape axes value, reduce kind shape axes value ∈ e.preorder →
    ∀ extents, constShape? shape = some extents → ∀ n ∈ extents, 0 < n
  typed : ∀ kind shape axes value, reduce kind shape axes value ∈ e.preorder → ∀ d, value.HasDType d → d.isInteger

/-- Whether the tensors that an expression reads have the element types of the parameters that stand for them. -/
def ReadsParams (params : ParamMap) (e : Expr) : Prop :=
  ∀ name dtype shape, tensorInput name dtype shape ∈ e.preorder → ∀ v, params.lookup name = some v →
    ∃ d, dtype = .known d ∧ v.ty.elementType = .ok (.ofDType d)

variable {params : ParamMap} {taken : List String} {e c r : Expr} {x : String}

theorem KeepsScopes.child (h : e.KeepsScopes taken) (hc : c ∈ e.children) : c.KeepsScopes taken :=
  ⟨fun v value body hmem => h.lets v value body (mem_preorder_of_child hc hmem),
    fun kind shape axes value hmem => h.axes kind shape axes value (mem_preorder_of_child hc hmem)⟩

theorem ReducesIntegers.child (h : e.ReducesIntegers) (hc : c ∈ e.children) : c.ReducesIntegers :=
  ⟨h.shaped.child hc, fun kind shape axes value hmem => h.extents kind shape axes value (mem_preorder_of_child hc hmem),
    fun kind shape axes value hmem => h.typed kind shape axes value (mem_preorder_of_child hc hmem)⟩

theorem ReadsParams.child (h : e.ReadsParams params) (hc : c ∈ e.children) : c.ReadsParams params :=
  fun name dtype shape hmem => h name dtype shape (mem_preorder_of_child hc hmem)

/-- What is moved in front of an expression is a reduction in it. -/
theorem Hoists.exists_eq_reduce (h : e.Hoists r) :
    ∃ kind shape axes value, r = reduce kind shape axes value ∧ reduce kind shape axes value ∈ e.preorder := by
  induction h with
  | self kind shape axes value => exact ⟨kind, shape, axes, value, rfl, mem_preorder_self _⟩
  | inside _ hc _ ih =>
    obtain ⟨kind, shape, axes, value, rfl, hmem⟩ := ih
    exact ⟨kind, shape, axes, value, rfl, mem_preorder_of_child hc hmem⟩

theorem Hoists.mem_preorder {kind : ReduceKind} {shape : List Expr} {axes : List Var} {value : Expr}
    (h : e.Hoists (reduce kind shape axes value)) : reduce kind shape axes value ∈ e.preorder := by
  obtain ⟨_, _, _, _, heq, hmem⟩ := h.exists_eq_reduce
  rwa [heq]

/-- What a reduction combines is a proper part of the expression that it is moved in front of. -/
theorem Hoists.value_mem {kind : ReduceKind} {shape : List Expr} {axes : List Var} {value : Expr}
    (h : e.Hoists (reduce kind shape axes value)) : value ∈ e.children.flatMap preorder := by
  have hchild : value ∈ (reduce kind shape axes value).children := by simp [children]
  cases h with
  | self => exact List.mem_flatMap.mpr ⟨value, hchild, mem_preorder_self value⟩
  | inside _ hc h =>
    have hvalue := mem_preorder_of_child hchild (mem_preorder_self value)
    exact List.mem_flatMap.mpr ⟨_, hc, mem_preorder_trans h.mem_preorder hvalue⟩

/-! ## Where the names come from -/

/-- What a reduction that is moved in front of an expression depends on, the expression depends on. -/
theorem Hoists.mem_freeNames (h : e.Hoists r) (hscopes : e.KeepsScopes taken) (hx : x ∈ r.freeNames) : x ∈ e.freeNames := by
  induction h with
  | self => exact hx
  | @inside e c r he hc h ih =>
    have hchild := ih (hscopes.child hc) hx
    by_cases hscoping : e.isScoping = false
    · exact mem_freeNames_of_child hscoping hc hchild
    · cases e with
      | var => cases hc
      | compute | reduce => cases he
      | letIn v value body =>
        rw [mem_freeNames_letIn]
        rcases List.mem_cons.mp hc with rfl | hc
        · exact .inl hchild
        · rw [List.mem_singleton] at hc
          subst hc
          refine .inr ⟨hchild, fun heq => ?_⟩
          exact (hscopes.lets v value c (mem_preorder_self _)).2 r h (heq ▸ hx)
      | _ => exact absurd rfl hscoping

theorem isScoping_withChildren (e : Expr) (es : List Expr) : (e.withChildren es).isScoping = e.isScoping := by
  unfold withChildren
  split <;> rfl

/-- A node that is rebuilt depends on what it depended on and on what its new parts depend on besides. -/
theorem mem_freeNames_withChildren {D : String → Prop} (he : e.isPlain) {values : List Expr}
    (hvalues : List.Forall₂ (fun c value => ∀ x ∈ value.freeNames, x ∈ c.freeNames ∨ D x) e.children values)
    (hx : x ∈ (e.withChildren values).freeNames) : x ∈ e.freeNames ∨ D x := by
  by_cases hscoping : e.isScoping = false
  · rw [freeNames, freeVars_eq ((isScoping_withChildren e values).trans hscoping),
      children_withChildren hvalues.length_eq.symm] at hx
    obtain ⟨w, hw, rfl⟩ := List.mem_map.mp hx
    obtain ⟨value, hvalue, hw⟩ := List.mem_flatMap.mp hw
    obtain ⟨c, hc, hnames⟩ := exists_mem_of_forall₂ hvalues.flip hvalue
    exact (hnames w.name (List.mem_map_of_mem hw)).imp_left (mem_freeNames_of_child hscoping hc)
  · cases e with
    | compute | reduce => cases he
    | var w =>
      obtain rfl := List.forall₂_nil_left_iff.mp hvalues
      exact .inl hx
    | letIn v value body =>
      obtain ⟨value', _, hvalue, hrest, rfl⟩ := List.forall₂_cons_left_iff.mp hvalues
      obtain ⟨body', _, hbody, hnil, rfl⟩ := List.forall₂_cons_left_iff.mp hrest
      obtain rfl := List.forall₂_nil_left_iff.mp hnil
      change x ∈ (letIn v value' body').freeNames at hx
      rw [mem_freeNames_letIn] at hx ⊢
      rcases hx with hx | ⟨hx, hne⟩
      · exact (hvalue x hx).imp_left .inl
      · exact (hbody x hx).imp_left fun h => .inr ⟨h, hne⟩
    | _ => exact absurd rfl hscoping

end Expr

namespace Lowers

variable {params : ParamMap} {taken : List String} {b : FunctionBuilder} {es values : List Expr} {prelude : List Stmt}
  {accs : List Var} {x : String} {scopes : List Scope}

/-- The statements in front of values bind the axes of their reductions only, as the variables of loops. -/
theorem isLoopOver_of_uses (h : Lowers params b es prelude values accs) {s : Stmt} (hs : s ∈ prelude)
    (huse : s.Uses x scopes) {scope : Scope} (hscope : scope ∈ scopes) :
    ∃ e ∈ es, ∃ kind shape axes value, Expr.reduce kind shape axes value ∈ e.preorder ∧ scope.IsLoopOver axes := by
  induction h generalizing s scopes with
  | nil => cases hs
  | input _ _ _ ih =>
    obtain ⟨e, he, hloop⟩ := ih hs huse hscope
    exact ⟨e, List.mem_cons_of_mem _ he, hloop⟩
  | node _ _ _ ihparts ihrest =>
    rcases List.mem_append.mp hs with hs | hs
    · obtain ⟨c, hc, kind, shape, axes, value, hmem, hloop⟩ := ihparts hs huse hscope
      exact ⟨_, List.mem_cons_self, kind, shape, axes, value, Expr.mem_preorder_of_child hc hmem, hloop⟩
    · obtain ⟨e, he, hloop⟩ := ihrest hs huse hscope
      exact ⟨e, List.mem_cons_of_mem _ he, hloop⟩
  | @reduce b kind shape axes value _ _ _ _ _ _ _ _ _ _ _ _ _ hdivide _ ihvalue ihrest =>
    rcases List.mem_cons.mp hs with rfl | hs
    · refine ⟨_, List.mem_cons_self, ?_⟩
      obtain ⟨inner, outer, rfl, houter, hinner⟩ := Reduction.uses_toStmt hdivide huse
      rcases List.mem_append.mp hscope with hscope | hscope
      · -- inside of the loops there are only those of the reductions further inside
        rcases hinner with ⟨rfl, -⟩ | ⟨⟨rfl, -⟩ | ⟨s, hs, huse⟩, -⟩
        · cases hscope
        · cases hscope
        · obtain ⟨e, he, kind', shape', axes', value', hmem, hloop⟩ := ihvalue hs huse hscope
          rw [List.mem_singleton.mp he] at hmem
          exact ⟨kind', shape', axes', value', Expr.mem_preorder_of_child (by simp [Expr.children]) hmem, hloop⟩
      · exact ⟨kind, shape, axes, value, Expr.mem_preorder_self _, houter scope hscope⟩
    · obtain ⟨e, he, hloop⟩ := ihrest hs huse hscope
      exact ⟨e, List.mem_cons_of_mem _ he, hloop⟩

section

variable {D : String → Prop}

/-- Lowered values depend on what the values depend on, on parameters and on accumulators. -/
theorem forall₂_freeNames (h : Lowers params b es prelude values accs)
    (hparams : ∀ name v, params.lookup name = some v → D v.name) (haccs : ∀ v ∈ accs, D v.name) :
    List.Forall₂ (fun e value => ∀ x ∈ value.freeNames, x ∈ e.freeNames ∨ D x) es values := by
  induction h with
  | nil => exact .nil
  | @input b e name v _ _ _ _ _ hparam _ ih =>
    refine .cons (fun x hx => .inr ?_) (ih haccs)
    rw [Expr.freeNames_var, List.mem_singleton] at hx
    exact hx ▸ hparams name v hparam
  | node hplain _ _ ihparts ihrest =>
    obtain ⟨haccs, haccs'⟩ := List.forall_mem_append.mp haccs
    exact .cons (fun x hx => Expr.mem_freeNames_withChildren hplain (ihparts haccs) hx) (ihrest haccs')
  | reduce _ _ _ _ _ _ ihrest =>
    obtain ⟨haccs, haccs'⟩ := List.forall_mem_append.mp haccs
    refine .cons (fun x hx => .inr ?_) (ihrest haccs')
    rw [Expr.freeNames_var, List.mem_singleton] at hx
    exact hx ▸ haccs _ List.mem_cons_self

/-- The statements in front of them depend on what the reductions depend on that they compute. -/
theorem exists_hoists_of_mentions (h : Lowers params b es prelude values accs)
    (hparams : ∀ name v, params.lookup name = some v → D v.name) (haccs : ∀ v ∈ accs, D v.name)
    (hshaped : ∀ e ∈ es, e.IsShaped) (hscopes : ∀ e ∈ es, e.KeepsScopes taken) {s : Stmt} (hs : s ∈ prelude)
    (hx : s.Mentions x) : (∃ e ∈ es, ∃ r, e.Hoists r ∧ x ∈ r.freeNames) ∨ D x := by
  induction h generalizing s with
  | nil => cases hs
  | input _ _ _ ih =>
    rw [List.forall_mem_cons] at hshaped hscopes
    refine (ih haccs hshaped.2 hscopes.2 hs hx).imp_left ?_
    rintro ⟨e, he, hr⟩
    exact ⟨e, List.mem_cons_of_mem _ he, hr⟩
  | @node b e _ _ _ _ _ _ _ hplain _ _ ihparts ihrest =>
    obtain ⟨haccs, haccs'⟩ := List.forall_mem_append.mp haccs
    rw [List.forall_mem_cons] at hshaped hscopes
    rcases List.mem_append.mp hs with hs | hs
    · refine (ihparts haccs (fun c => hshaped.1.child) (fun c => hscopes.1.child) hs hx).imp_left ?_
      rintro ⟨c, hc, r, hr, hx⟩
      exact ⟨e, List.mem_cons_self, r, .inside hplain hc hr, hx⟩
    · refine (ihrest haccs' hshaped.2 hscopes.2 hs hx).imp_left ?_
      rintro ⟨e, he, hr⟩
      exact ⟨e, List.mem_cons_of_mem _ he, hr⟩
  | @reduce b kind shape axes value combined d acc divide _ _ _ _ _ _ _ _ hvalue hdivide _ ihvalue ihrest =>
    obtain ⟨haccs, haccs'⟩ := List.forall_mem_append.mp haccs
    rw [List.forall_mem_cons] at haccs hshaped hscopes
    have hchild : value ∈ (Expr.reduce kind shape axes value).children := by simp [Expr.children]
    have hself := Expr.Hoists.self kind shape axes value
    rcases List.mem_cons.mp hs with rfl | hs
    · obtain ⟨scopes, huse, hfree⟩ := hx
      obtain ⟨inner, outer, rfl, -, hinner⟩ := Reduction.uses_toStmt hdivide huse
      obtain ⟨hfree, hfree'⟩ := List.forall_mem_append.mp hfree
      rcases hinner with ⟨-, rfl | hextent⟩ | ⟨huse, hbound⟩
      · exact .inr haccs.1
      · refine .inl ⟨_, List.mem_cons_self, _, hself, ?_⟩
        exact Expr.mem_freeNames_reduce.mpr (.inl hextent)
      · -- what is used inside of all the loops and is free is no axis
        have haxes : x ∉ axes.map Var.name := by
          intro hmem
          obtain ⟨v, hv, rfl⟩ := List.mem_map.mp hmem
          obtain ⟨scope, hscope, hbinds⟩ := hbound (hshaped.1 kind shape axes value (Expr.mem_preorder_self _)) v hv
          rw [hfree' scope hscope] at hbinds
          cases hbinds
        have hvalues : x ∈ value.freeNames ∨ D x := by
          rcases huse with ⟨-, hcombined⟩ | ⟨s, hs, huse⟩
          · obtain ⟨hnames, -⟩ := List.forall₂_cons.mp (hvalue.forall₂_freeNames hparams haccs.2)
            exact hnames x hcombined
          · have hone := ihvalue haccs.2 (List.forall_mem_singleton.mpr (hshaped.1.child hchild))
              (List.forall_mem_singleton.mpr (hscopes.1.child hchild)) hs ⟨inner, huse, hfree⟩
            refine hone.imp_left ?_
            rintro ⟨e, he, r, hr, hx⟩
            rw [List.mem_singleton.mp he] at hr
            exact hr.mem_freeNames (hscopes.1.child hchild) hx
        refine hvalues.imp_left fun hx => ⟨_, List.mem_cons_self, _, hself, ?_⟩
        exact Expr.mem_freeNames_reduce.mpr (.inr ⟨hx, haxes⟩)
    · refine (ihrest haccs' hshaped.2 hscopes.2 hs hx).imp_left ?_
      rintro ⟨e, he, hr⟩
      exact ⟨e, List.mem_cons_of_mem _ he, hr⟩

end

end Lowers

/-! ## What the values are -/

namespace Expr

variable [FloatOps] {tensors : Tensors} {taken : List String} {env : Env} {e c r : Expr} {v : Value}

omit [FloatOps] in
theorem Hoists.isShaped (h : e.Hoists r) (hshaped : e.IsShaped) : r.IsShaped := by
  induction h with
  | self => exact hshaped
  | inside he hc _ ih => exact ih (hshaped.child hc)

/-- In an expression without conditionals, a reduction that is moved in front has a value if the expression has one. -/
theorem Hoists.exists_eval (h : e.Hoists r) (hscopes : e.KeepsScopes taken) (hshaped : e.IsShaped)
    (hchoice : ∀ cond thenE elseE, ite cond thenE elseE ∉ e.preorder) (heval : e.eval tensors env = .ok v) :
    ∃ w, r.eval tensors env = .ok w := by
  induction h generalizing env v with
  | self => exact ⟨v, heval⟩
  | @inside e c r he hc h ih =>
    have hpart {env : Env} {a : Value} (ha : c.eval tensors env = .ok a) : ∃ w, r.eval tensors env = .ok w :=
      ih (hscopes.child hc) (hshaped.child hc)
        (fun cond thenE elseE hmem => hchoice cond thenE elseE (mem_preorder_of_child hc hmem)) ha
    cases e with
    | tensorInput | scalarInput | compute | reduce => cases he
    | var | const => cases hc
    | deref | addr | ref | any | anyCompute | anyReduce => exact absurd heval (eval_ne_ok_of_isRejected rfl)
    | ite cond thenE elseE => exact absurd (mem_preorder_self _) (hchoice cond thenE elseE)
    | unary op arg =>
      obtain ⟨a, ha, -⟩ := eval_unary_eq_ok_iff.mp heval
      rw [List.mem_singleton.mp hc] at hpart
      exact hpart ha
    | cast target arg =>
      obtain ⟨a, -, ha, -, -⟩ := eval_cast_eq_ok_iff.mp heval
      rw [List.mem_singleton.mp hc] at hpart
      exact hpart ha
    | binary op lhs rhs =>
      obtain ⟨a, b, ha, hb, -⟩ := eval_binary_eq_ok_iff.mp heval
      rcases List.mem_cons.mp hc with rfl | hc
      · exact hpart ha
      · rw [List.mem_singleton.mp hc] at hpart
        exact hpart hb
    | call func args =>
      obtain ⟨as, has, -⟩ := eval_call_eq_ok_iff.mp heval
      obtain ⟨a, -, ha⟩ := exists_mem_of_forall₂ has hc
      exact hpart ha
    | element base indices =>
      cases base with
      | tensorInput name dtype shape =>
        obtain ⟨_, ns, _, -, hns, -, -⟩ := eval_element_eq_ok_iff.mp heval
        rcases List.mem_cons.mp hc with rfl | hc
        · -- nothing is moved out of an input
          cases h with
          | inside hinput _ _ => cases hinput
        · obtain ⟨n, -, hn, -⟩ := exists_mem_of_forall₂ hns hc
          exact hpart hn
      | _ => simp [eval] at heval
    | letIn x value body =>
      obtain ⟨a, ha, hb⟩ := eval_letIn_eq_ok_iff.mp heval
      rcases List.mem_cons.mp hc with rfl | hc
      · exact hpart ha
      · rw [List.mem_singleton] at hc
        subst hc
        -- the reduction does not depend on the variable
        obtain ⟨w, hw⟩ := hpart hb
        refine ⟨w, eval_of_agree (h.isShaped (hshaped.child (by simp [children]))) (fun y hy => ?_) hw⟩
        have hne : y.name ≠ x.name := by
          intro heq
          have hfree := (hscopes.lets x value c (mem_preorder_self _)).2 r h
          exact hfree (heq ▸ List.mem_map_of_mem hy)
        rw [List.lookup_cons, beq_false_of_ne hne]

end Expr

/-- Whether the reductions of an expression have values where lowering moves them to, outside of conditionals and
bindings: in the environment itself, and those inside of them at each of their points. The values that they combine are
integers. -/
inductive HoistsIn [FloatOps] (tensors : Tensors) : Env → Expr → Prop
  | intro {env : Env} {e : Expr} (heval : ∀ r, e.Hoists r → ∃ v, r.eval tensors env = .ok v)
      (hint : ∀ kind shape axes value, e.Hoists (.reduce kind shape axes value) → ∀ extents,
        Expr.constShape? shape = some extents → ∀ point ∈ grid extents, ∀ v,
          value.eval tensors (env.bind axes (point.map .int)) = .ok v → ∃ n, v = .int n)
      (hinner : ∀ kind shape axes value, e.Hoists (.reduce kind shape axes value) → ∀ extents,
        Expr.constShape? shape = some extents → ∀ point ∈ grid extents,
          HoistsIn tensors (env.bind axes (point.map .int)) value) : HoistsIn tensors env e

theorem HoistsIn.child [FloatOps] {tensors : Tensors} {env : Env} {e c : Expr} (h : HoistsIn tensors env e)
    (he : e.isPlain) (hc : c ∈ e.children) : HoistsIn tensors env c := by
  cases h with
  | intro heval hint hinner =>
    exact .intro (fun r hr => heval r (.inside he hc hr))
      (fun kind shape axes value hr => hint kind shape axes value (.inside he hc hr))
      (fun kind shape axes value hr => hinner kind shape axes value (.inside he hc hr))

/-- Nothing is moved out of an expression without reductions. -/
theorem HoistsIn.of_no_reduce [FloatOps] {tensors : Tensors} {env : Env} {e : Expr}
    (h : ∀ kind shape axes value, Expr.reduce kind shape axes value ∉ e.preorder) : HoistsIn tensors env e := by
  have hnone (r : Expr) : ¬ e.Hoists r := by
    intro hr
    obtain ⟨kind, shape, axes, value, -, hmem⟩ := hr.exists_eq_reduce
    exact h kind shape axes value hmem
  exact .intro (fun r hr => absurd hr (hnone r)) (fun _ _ _ _ hr => absurd hr (hnone _))
    fun _ _ _ _ hr => absurd hr (hnone _)

/-- Without conditionals, the reductions of an expression that has a value have values where they are moved to. -/
theorem HoistsIn.of_eval [FloatOps] {tensors : Tensors} {taken : List String} {env : Env} {e : Expr} {v : Value}
    (hscopes : e.KeepsScopes taken) (hshaped : e.IsShaped)
    (hchoice : ∀ cond thenE elseE, Expr.ite cond thenE elseE ∉ e.preorder)
    (hint : ∀ kind shape axes value, .reduce kind shape axes value ∈ e.preorder → ∀ env w,
      value.eval tensors env = .ok w → ∃ n, w = .int n)
    (heval : e.eval tensors env = .ok v) : HoistsIn tensors env e := by
  induction e using Expr.induct_proper generalizing env v with
  | node e ih =>
    have hvalued (r : Expr) (hr : e.Hoists r) : ∃ w, r.eval tensors env = .ok w :=
      hr.exists_eval hscopes hshaped hchoice heval
    refine .intro hvalued (fun kind shape axes value hr _ _ _ _ => hint kind shape axes value hr.mem_preorder _) ?_
    intro kind shape axes value hr extents hshape point hpoint
    -- the value of the reduction at a point
    obtain ⟨w, hw⟩ := hvalued _ hr
    obtain ⟨_, _, _, hshape', hvalues, -⟩ := Expr.eval_reduce_eq_ok_iff.mp hw
    cases hshape.symm.trans hshape'
    rw [points_eq_grid] at hvalues
    obtain ⟨a, -, ha⟩ := exists_mem_of_forall₂ hvalues hpoint
    have hproper := hr.value_mem
    have hsub {t : Expr} (ht : t ∈ value.preorder) : t ∈ e.preorder := by
      rw [Expr.preorder_eq]
      obtain ⟨c, hc, hvalue⟩ := List.mem_flatMap.mp hproper
      exact List.mem_cons_of_mem _ (List.mem_flatMap.mpr ⟨c, hc, Expr.mem_preorder_trans hvalue ht⟩)
    refine ih value hproper ⟨fun v value body hmem => hscopes.lets v value body (hsub hmem),
      fun kind shape axes value hmem => hscopes.axes kind shape axes value (hsub hmem)⟩
      (fun kind shape axes value hmem => hshaped kind shape axes value (hsub hmem))
      (fun cond thenE elseE hmem => hchoice cond thenE elseE (hsub hmem))
      (fun kind shape axes value hmem => hint kind shape axes value (hsub hmem)) ha

section

variable {Address Memory : Type} {M : Machine Address Memory} {address : String → Address} {tensors : Tensors}
  {params : ParamMap} {taken : List String} {env : Env} {memory : Memory} {vars vars' : Vars Address}

/-- Whether a run has what a value is evaluated with: the variables of the environment, of which none has one of the
given names, and behind the parameters buffers that hold the tensors. -/
structure Provides (M : Machine Address Memory) (address : String → Address) (tensors : Tensors) (params : ParamMap)
    (taken : List String) (env : Env) (memory : Memory) (vars : Vars Address) : Prop where
  axes : ∀ x v, env.lookup x = some v → x ∉ taken ∧ vars.lookup x = some (.scalar v)
  params : ∀ name v a, params.lookup name = some v → tensors.lookup name = some a →
    vars.lookup v.name = some (.address (address name)) ∧ M.Holds memory (address name) a

namespace Provides

variable {x : String}

theorem bind (h : Provides M address tensors params taken env memory vars)
    (hparams : ∀ name v, params.lookup name = some v → v.name ∈ taken) (hx : x ∉ taken) (v : Value) :
    Provides M address tensors params taken ((x, v) :: env) memory ((x, .scalar v) :: vars) where
  axes y w hw := by
    by_cases heq : x = y
    · subst heq
      rw [List.lookup_cons_self] at hw ⊢
      cases hw
      exact ⟨hx, rfl⟩
    · rw [Vars.lookup_cons_of_ne heq]
      rw [List.lookup_cons, beq_false_of_ne (Ne.symm heq)] at hw
      exact h.axes y w hw
  params name w a hparam ha := by
    have hne : x ≠ w.name := fun heq => hx (heq ▸ hparams name w hparam)
    rw [Vars.lookup_cons_of_ne hne]
    exact h.params name w a hparam ha

theorem bindAll (h : Provides M address tensors params taken env memory vars)
    (hparams : ∀ name v, params.lookup name = some v → v.name ∈ taken) {axes : List Var}
    (haxes : ∀ v ∈ axes, v.name ∉ taken) (point : List Int64) :
    Provides M address tensors params taken (env.bind axes (point.map .int)) memory (vars.bindAll axes point) := by
  induction axes generalizing env vars point with
  | nil => exact h
  | cons v axes ih =>
    cases point with
    | nil => exact h
    | cons n point =>
      exact ih (h.bind hparams (haxes v List.mem_cons_self) (.int n)) (fun w hw => haxes w (List.mem_cons_of_mem _ hw)) point

/-- Assignments to other variables than parameters leave it. -/
theorem of_sameExcept {names : List String} (h : Provides M address tensors params taken env memory vars)
    (hsame : Vars.SameExcept names vars vars') (hnames : ∀ x ∈ names, x ∈ taken)
    (hparams : ∀ name v, params.lookup name = some v → v.name ∉ names) :
    Provides M address tensors params taken env memory vars' where
  axes x v hv := by
    obtain ⟨hx, hlookup⟩ := h.axes x v hv
    rw [hsame.lookup_eq fun hmem => hx (hnames x hmem)]
    exact ⟨hx, hlookup⟩
  params name v a hparam ha := by
    rw [hsame.lookup_eq (hparams name v hparam)]
    exact h.params name v a hparam ha

/-- Statements that assign accumulators leave what values are evaluated with. -/
theorem of_assigns {b : FunctionBuilder} {names : List String} {s : State Address Memory}
    {r : Run Address Memory} (h : Provides M address tensors params taken env s.memory s.vars)
    (hassigns : r.Assigns names s) (hparams : ∀ name v, params.lookup name = some v → v.name ∈ b.taken)
    (hnames : ∀ x ∈ names, x ∈ taken) (hfresh : ∀ x ∈ names, x ∉ b.taken) :
    Provides M address tensors params taken env r.state.memory r.state.vars := by
  rw [hassigns.memory]
  exact h.of_sameExcept hassigns.vars hnames fun name v hparam hmem => hfresh _ hmem (hparams name v hparam)

end Provides

variable [FloatOps]

/-- Whether a lowered value stands for an expression behind the statements that have filled the accumulators: it gives what
the expression evaluates to in every scope in which the reductions in front mean the same. -/
structure IsValueOf (M : Machine Address Memory) (address : String → Address) (tensors : Tensors) (params : ParamMap)
    (taken accs : List String) (env : Env) (s : State Address Memory) (e value : Expr) : Prop where
  run_eq : ∀ env' (vars : Vars Address) v, (∀ r, e.Hoists r → ∀ x ∈ r.freeNames, env'.lookup x = env.lookup x) →
    Provides M address tensors params taken env' s.memory vars → (∀ x ∈ accs, vars.lookup x = s.vars.lookup x) →
      e.eval tensors env' = .ok v → value.run M false s.memory vars = some (.scalar v)
  input : ∀ name, e.inputName? = some name → ∃ v, params.lookup name = some v ∧ value = .var v

namespace IsValueOf

variable {accs accs' : List String} {s s' : State Address Memory} {e value : Expr}

/-- Later statements leave the accumulators of a value. -/
theorem mono (h : IsValueOf M address tensors params taken accs env s e value) (hmemory : s'.memory = s.memory)
    (haccs : ∀ x ∈ accs, x ∈ accs' ∧ s'.vars.lookup x = s.vars.lookup x) :
    IsValueOf M address tensors params taken accs' env s' e value where
  run_eq env' vars v hagree hprovides hheld heval := by
    rw [hmemory] at hprovides ⊢
    refine h.run_eq env' vars v hagree hprovides (fun x hx => ?_) heval
    obtain ⟨hx', hkept⟩ := haccs x hx
    exact (hheld x hx').trans hkept
  input := h.input

/-- A read of an input stands for the element of the tensor. -/
theorem element (hreads : e.ReadsParams params) {base : Expr} {indices values : List Expr} (he : e = .element base indices)
    (hvalues : List.Forall₂ (IsValueOf M address tensors params taken accs env s) e.children values) {env' : Env}
    {vars : Vars Address} {v : Value} (hprovides : Provides M address tensors params taken env' s.memory vars)
    (hpart : ∀ c value v, c ∈ e.children → IsValueOf M address tensors params taken accs env s c value →
      c.eval tensors env' = .ok v → value.run M false s.memory vars = some (.scalar v))
    (heval : e.eval tensors env' = .ok v) : (e.withChildren values).run M false s.memory vars = some (.scalar v) := by
  subst he
  cases base with
  | tensorInput name dtype shape =>
    obtain ⟨a, ns, x, ha, hns, hx, rfl⟩ := Expr.eval_element_eq_ok_iff.mp heval
    obtain ⟨base', values, hbase, hindices, rfl⟩ := List.forall₂_cons_left_iff.mp hvalues
    obtain ⟨w, hparam, rfl⟩ := hbase.input name rfl
    obtain ⟨d, rfl, htype⟩ := hreads name dtype shape
      (Expr.mem_preorder_of_child (by simp [Expr.children]) (Expr.mem_preorder_self _)) w hparam
    obtain ⟨haddress, hholds⟩ := hprovides.params name w a hparam ha
    have hbuffer : (Expr.var w).run M false s.memory vars = some (.address (address name)) :=
      Expr.run_var_eq_some_iff.mpr ⟨haddress, by simp⟩
    have hcoordinates : List.Forall₂ (fun value n => value.run M false s.memory vars = some (.scalar (.int n))) values
        (ns.map Int64.ofNat) := by
      rw [List.forall₂_map_right_iff]
      exact forall₂_of_common hindices hns fun i hi value n hvalue hn =>
        hpart i value _ (List.mem_cons_of_mem _ hi) hvalue hn.1
    have hsmall : ∀ n ∈ ns, n < 2 ^ 63 := forall_mem_of_forall₂ hns fun _ _ _ hn => hn.2
    refine Expr.run_element_eq_some_iff.mpr ⟨_, _, _, hbuffer, hcoordinates, hholds ns x hsmall hx, ?_⟩
    exact Datum.readAs_eq_some_iff.mpr (Or.inl ⟨d, _, (Expr.inferType_element w values).trans htype, rfl, rfl⟩)
  | _ => simp [Expr.eval] at heval

/-- A node that is rebuilt from lowered parts stands for the node. -/
theorem withChildren (hparams : ∀ name v, params.lookup name = some v → v.name ∈ taken) (haccs : ∀ x ∈ accs, x ∈ taken)
    (he : e.isPlain) (hscopes : e.KeepsScopes taken) (hreads : e.ReadsParams params) {values : List Expr}
    (hvalues : List.Forall₂ (IsValueOf M address tensors params taken accs env s) e.children values) :
    IsValueOf M address tensors params taken accs env s e (e.withChildren values) where
  input name hname := by
    cases e with
    | tensorInput | scalarInput => cases he
    | _ => cases hname
  run_eq env' vars v hagree hprovides hheld heval := by
    -- a part is evaluated in the same scope, unless it is the body of a binding
    have hpart (c value : Expr) (v : Value) (hc : c ∈ e.children)
        (h : IsValueOf M address tensors params taken accs env s c value) (hv : c.eval tensors env' = .ok v) :
        value.run M false s.memory vars = some (.scalar v) :=
      h.run_eq env' vars v (fun r hr => hagree r (.inside he hc hr)) hprovides hheld hv
    cases e with
    | tensorInput | scalarInput | compute | reduce => cases he
    | deref | addr | ref | any | anyCompute | anyReduce => exact absurd heval (Expr.eval_ne_ok_of_isRejected rfl)
    | element base indices => exact element hreads rfl hvalues hprovides hpart heval
    | var w =>
      obtain rfl := List.forall₂_nil_left_iff.mp hvalues
      exact Expr.run_var_eq_some_iff.mpr ⟨(hprovides.axes _ v (Expr.eval_var_eq_ok_iff.mp heval)).2, by simp⟩
    | const value d =>
      obtain rfl := List.forall₂_nil_left_iff.mp hvalues
      exact Expr.run_const_eq_some_iff.mpr ⟨congrArg Datum.scalar (Expr.eval_const_eq_ok_iff.mp heval).symm, by simp⟩
    | unary op arg =>
      obtain ⟨a, ha, hv⟩ := Expr.eval_unary_eq_ok_iff.mp heval
      obtain _ | ⟨harg, _ | _⟩ := hvalues
      exact Expr.run_unary_eq_some_iff.mpr ⟨a, v, hpart arg _ a (by simp [Expr.children]) harg ha, hv, rfl⟩
    | cast target arg =>
      obtain ⟨a, d, ha, rfl, rfl⟩ := Expr.eval_cast_eq_ok_iff.mp heval
      obtain _ | ⟨harg, _ | _⟩ := hvalues
      exact Expr.run_cast_eq_some_iff.mpr ⟨_, hpart arg _ a (by simp [Expr.children]) harg ha, rfl⟩
    | binary op lhs rhs =>
      obtain ⟨a, b, ha, hb, hv⟩ := Expr.eval_binary_eq_ok_iff.mp heval
      obtain _ | ⟨hlhs, _ | ⟨hrhs, _ | _⟩⟩ := hvalues
      have hl := hpart lhs _ a (by simp [Expr.children]) hlhs ha
      have hr := hpart rhs _ b (by simp [Expr.children]) hrhs hb
      exact Expr.run_binary_eq_some_iff.mpr ⟨a, b, v, hl, hr, by simp, hv, rfl⟩
    | letIn w value body =>
      obtain ⟨a, ha, hv⟩ := Expr.eval_letIn_eq_ok_iff.mp heval
      obtain ⟨hw, hfree⟩ := hscopes.lets w value body (Expr.mem_preorder_self _)
      obtain _ | ⟨hvalue, _ | ⟨hbody, _ | _⟩⟩ := hvalues
      have hbound := hpart value _ a (by simp [Expr.children]) hvalue ha
      refine Expr.run_letIn_eq_some_iff.mpr ⟨_, hbound, ?_⟩
      refine hbody.run_eq _ _ v (fun r hr x hx => ?_) (hprovides.bind hparams hw a) (fun x hx => ?_) hv
      · -- the reductions of the body do not depend on the variable
        have hne : x ≠ w.name := fun heq => hfree r hr (heq ▸ hx)
        rw [List.lookup_cons, beq_false_of_ne hne]
        exact hagree r (.inside he (by simp [Expr.children]) hr) x hx
      · have hne : w.name ≠ x := fun heq => hw (heq ▸ haccs x hx)
        rw [Vars.lookup_cons_of_ne hne]
        exact hheld x hx
    | ite cond thenE elseE =>
      obtain ⟨c, hc, hbranch⟩ := Expr.eval_ite_eq_ok_iff.mp heval
      obtain _ | ⟨hcond, _ | ⟨hthen, _ | ⟨helse, _ | _⟩⟩⟩ := hvalues
      refine Expr.run_ite_eq_some_iff.mpr ⟨c, hpart cond _ c (by simp [Expr.children]) hcond hc, ?_⟩
      by_cases htrue : c.truthy
      · rw [if_pos htrue] at hbranch ⊢
        exact hpart thenE _ v (by simp [Expr.children]) hthen hbranch
      · rw [if_neg htrue] at hbranch ⊢
        exact hpart elseE _ v (by simp [Expr.children]) helse hbranch
    | call func args =>
      obtain ⟨as, has, hv⟩ := Expr.eval_call_eq_ok_iff.mp heval
      have hargs : List.Forall₂ (fun e a => e.run M false s.memory vars = some (.scalar a)) values as :=
        forall₂_of_common hvalues has fun arg harg arg' a harg' ha => hpart arg arg' a harg harg' ha
      refine Expr.run_call_eq_some_iff.mpr (Or.inr ?_)
      exact ⟨Primitive.isHardwareIndex_eq_false (Intrinsic.mem_names_of_eval? hv), as, v, hargs, hv, rfl, by simp⟩

end IsValueOf

/-- The statements of one value and then those of the others: the later ones leave the accumulators of the first. -/
theorem IsValueOf.exists_run_cons {names names' : List String} {prelude prelude' : List Stmt} {e value : Expr}
    {es values : List Expr} {s : State Address Memory} {r : Run Address Memory}
    (hr : Stmt.execAll M false prelude s = some r) (hassigns : r.Assigns names s)
    (hvalue : IsValueOf M address tensors params taken names env r.state e value) (hne : ∀ x ∈ names, x ∉ names')
    (hrest : ∃ t, Stmt.execAll M false prelude' r.state = some t ∧ t.Assigns names' r.state ∧
      List.Forall₂ (IsValueOf M address tensors params taken names' env t.state) es values) :
    ∃ t, Stmt.execAll M false (prelude ++ prelude') s = some t ∧ t.Assigns (names ++ names') s ∧
      List.Forall₂ (IsValueOf M address tensors params taken (names ++ names') env t.state) (e :: es)
        (value :: values) := by
  obtain ⟨t, ht, hassigns', hvalues⟩ := hrest
  refine ⟨r.followedBy t, ?_, ?_, .cons ?_ (hvalues.imp fun e value h => ?_)⟩
  · rw [Stmt.execAll_append, hr]
    exact Run.andThen_eq_followedBy hassigns.halt ht
  · exact (hassigns.mono fun x hx => List.mem_append_left _ hx).followedBy
      (hassigns'.mono fun x hx => List.mem_append_right _ hx)
  · exact hvalue.mono hassigns'.memory fun x hx => ⟨List.mem_append_left _ hx, hassigns'.vars.lookup_eq (hne x hx)⟩
  · exact h.mono rfl fun x hx => ⟨List.mem_append_right _ hx, rfl⟩

/-- The loops of a reduction leave in the accumulator what the reduction evaluates to, if the statements in front of its
value run at each point and the lowered value gives the value there. -/
theorem HoistsIn.exists_exec_toStmt {b : FunctionBuilder} {kind : ReduceKind} {shape : List Expr} {axes : List Var}
    {value combined : Expr} {prelude : List Stmt} {d : DType} {acc : Var} {divide : List Stmt} {names : List String}
    {s : State Address Memory} {v : Value} (hin : HoistsIn tensors env (.reduce kind shape axes value)) (hd : d.isInteger)
    (hlength : axes.length = shape.length)
    (hextents : ∀ extents, Expr.constShape? shape = some extents → ∀ n ∈ extents, 0 < n)
    (haxes : ∀ v ∈ axes, v.name ∉ taken) (hdivide : Reduction.divide kind d acc shape = .ok divide)
    (hparams : ∀ name v, params.lookup name = some v → v.name ∈ b.taken) (htaken : ∀ x ∈ b.taken, x ∈ taken)
    (hnames : ∀ x ∈ acc.name :: names, x ∈ taken ∧ x ∉ b.taken) (hacc : acc.name ∉ names)
    (hprovides : Provides M address tensors params taken env s.memory s.vars)
    (hlocals : ∀ x ∈ acc.name :: names, x ∈ s.vars.map Prod.fst)
    (hvalue : ∀ env' (t : State Address Memory) n, Provides M address tensors params taken env' t.memory t.vars →
      (∀ x ∈ names, x ∈ t.vars.map Prod.fst) → HoistsIn tensors env' value → value.eval tensors env' = .ok (.int n) →
        ∃ r, Stmt.execAll M false prelude t = some r ∧ r.Assigns names t ∧
          combined.run M false r.state.memory r.state.vars = some (.scalar (.int n)))
    (heval : (Expr.reduce kind shape axes value).eval tensors env = .ok v) :
    ∃ r, (Reduction.toStmt kind d acc shape axes ⟨prelude, combined⟩ divide).exec M false s = some r ∧
      r.Assigns (acc.name :: names) s ∧ r.state.vars.lookup acc.name = some (.scalar v) := by
  cases hin with
  | intro _ hint hinner =>
  have hself := Expr.Hoists.self kind shape axes value
  obtain ⟨extents, _, _, hshape, -, -, -⟩ := Expr.eval_reduce_eq_ok_iff.mp heval
  obtain ⟨f, total, hf, htotal, hv⟩ :=
    Expr.exists_ints_of_eval_reduce hshape (hint kind shape axes value hself extents hshape) heval
  have hacctaken : acc.name ∈ taken := (hnames _ List.mem_cons_self).1
  refine Reduction.exists_exec_toStmt hd hshape (hextents extents hshape) hlength
    (fun w hw heq => haxes w hw (heq ▸ hacctaken)) hacc (hlocals _ List.mem_cons_self) ?_ hdivide htotal hv
  intro point hpoint t hmemory hsame
  refine hvalue _ t _ ?_ (fun x hx => ?_) (hinner kind shape axes value hself extents hshape point hpoint) (hf point hpoint)
  · rw [hmemory]
    refine (hprovides.bindAll (fun name w h => htaken _ (hparams name w h)) haxes point).of_sameExcept hsame
      (fun x hx => (hnames x hx).1) fun name w h hmem => ?_
    exact (hnames _ hmem).2 (hparams name w h)
  · rw [hsame.map_fst]
    exact Vars.mem_map_fst_bindAll (hlocals x (List.mem_cons_of_mem _ hx)) axes point

/-- The statements in front of values run wherever the reductions have values, assign the accumulators only, and leave the
lowered values standing for the values. -/
theorem Lowers.exists_run {b : FunctionBuilder} {es values : List Expr} {prelude : List Stmt} {accs : List Var}
    {s : State Address Memory} (h : Lowers params b es prelude values accs)
    (hparams : ∀ name v, params.lookup name = some v → v.name ∈ b.taken) (htaken : ∀ x ∈ b.taken, x ∈ taken)
    (haccs : ∀ x ∈ accs.map Var.name, x ∈ taken) (hscopes : ∀ e ∈ es, e.KeepsScopes taken)
    (hreads : ∀ e ∈ es, e.ReadsParams params) (hintegers : ∀ e ∈ es, e.ReducesIntegers)
    (hprovides : Provides M address tensors params taken env s.memory s.vars)
    (hlocals : ∀ x ∈ accs.map Var.name, x ∈ s.vars.map Prod.fst) (hin : ∀ e ∈ es, HoistsIn tensors env e) :
    ∃ r, Stmt.execAll M false prelude s = some r ∧ r.Assigns (accs.map Var.name) s ∧
      List.Forall₂ (IsValueOf M address tensors params taken (accs.map Var.name) env r.state) es values := by
  induction h generalizing s env with
  | nil => exact ⟨_, rfl, .done _ s, .nil⟩
  | @input b e name v es values prelude accs hname hparam hrest ih =>
    rw [List.forall_mem_cons] at hscopes hreads hintegers hin
    obtain ⟨r, hr, hassigns, hvalues⟩ :=
      ih hparams htaken haccs hscopes.2 hreads.2 hintegers.2 hprovides hlocals hin.2
    refine ⟨r, hr, hassigns, .cons ⟨fun env' vars v _ _ _ heval => ?_, fun name' hname' => ?_⟩ hvalues⟩
    · -- an input by itself has no value
      cases e with
      | tensorInput | scalarInput => exact absurd heval (Expr.eval_ne_ok_of_isRejected rfl)
      | _ => cases hname
    · cases hname.symm.trans hname'
      exact ⟨v, hparam, rfl⟩
  | @node b e es values values' prelude prelude' accs accs' hplain hparts hrest ihparts ihrest =>
    rw [List.forall_mem_cons] at hscopes hreads hintegers hin
    rw [List.map_append] at haccs hlocals ⊢
    obtain ⟨haccs, haccs'⟩ := List.forall_mem_append.mp haccs
    obtain ⟨hlocals, hlocals'⟩ := List.forall_mem_append.mp hlocals
    -- the parts
    obtain ⟨r, hr, hassigns, hvalues⟩ := ihparts hparams htaken haccs (fun c hc => hscopes.1.child hc)
      (fun c hc => hreads.1.child hc) (fun c hc => hintegers.1.child hc) hprovides hlocals
      (fun c hc => hin.1.child hplain hc)
    have hparams' : ∀ name v, params.lookup name = some v → v.name ∈ taken :=
      fun name v hparam => htaken _ (hparams name v hparam)
    have hvalue := IsValueOf.withChildren hparams' haccs hplain hscopes.1 hreads.1 hvalues
    -- the rest
    refine hvalue.exists_run_cons hr hassigns (fun x hx hx' => hrest.not_mem_of_rest hx' hx) ?_
    refine ihrest (fun name v hparam => FunctionBuilder.mem_taken_withLocals.mpr (.inr (hparams name v hparam)))
      (fun x hx => (FunctionBuilder.mem_taken_withLocals.mp hx).elim (haccs x) (htaken x)) haccs' hscopes.2 hreads.2
      hintegers.2 ?_ ?_ hin.2
    · exact hprovides.of_assigns hassigns hparams haccs
        (List.forall_mem_map.mpr fun v hv => hparts.not_mem_taken v hv)
    · rw [hassigns.vars.map_fst]
      exact hlocals'
  | @reduce b kind shape axes value combined d acc divide es values' prelude prelude' accs accs' hd hacc hvalue hdivide
      hrest ihvalue ihrest =>
    rw [List.forall_mem_cons] at hscopes hreads hintegers hin
    rw [List.map_append] at haccs hlocals ⊢
    obtain ⟨haccs, haccs'⟩ := List.forall_mem_append.mp haccs
    obtain ⟨hlocals, hlocals'⟩ := List.forall_mem_append.mp hlocals
    obtain ⟨hacctaken, haccs⟩ := List.forall_mem_cons.mp haccs
    have hchild : value ∈ (Expr.reduce kind shape axes value).children := by simp [Expr.children]
    have hself := Expr.Hoists.self kind shape axes value
    have hmem := Expr.mem_preorder_self (Expr.reduce kind shape axes value)
    have hdisjoint : acc.name ∉ accs.map Var.name := fun h => hvalue.not_mem_of_rest h (List.mem_singleton_self _)
    have hnew : ∀ x ∈ acc.name :: accs.map Var.name, x ∉ b.taken := by
      refine List.forall_mem_cons.mpr ⟨?_, List.forall_mem_map.mpr fun v hv hmem => ?_⟩
      · rw [hacc]
        exact freshName_not_mem _ _
      · exact hvalue.not_mem_taken v hv (FunctionBuilder.mem_taken_withLocals.mpr (.inr hmem))
    have hnames : ∀ x ∈ acc.name :: accs.map Var.name, x ∈ taken :=
      List.forall_mem_cons.mpr ⟨hacctaken, haccs⟩
    -- inside the loops, the value
    have hpoint (env' : Env) (t : State Address Memory) (n : Int64)
        (hprovides : Provides M address tensors params taken env' t.memory t.vars)
        (hlocals : ∀ x ∈ accs.map Var.name, x ∈ t.vars.map Prod.fst) (hin : HoistsIn tensors env' value)
        (heval : value.eval tensors env' = .ok (.int n)) :
        ∃ r, Stmt.execAll M false prelude t = some r ∧ r.Assigns (accs.map Var.name) t ∧
          combined.run M false r.state.memory r.state.vars = some (.scalar (.int n)) := by
      obtain ⟨r, hr, hassigns, hvalues⟩ := ihvalue
        (fun name v hparam => FunctionBuilder.mem_taken_withLocals.mpr (.inr (hparams name v hparam)))
        (fun x hx => (FunctionBuilder.mem_taken_withLocals.mp hx).elim
          (fun h => List.mem_singleton.mp h ▸ hacctaken) (htaken x))
        haccs (List.forall_mem_singleton.mpr (hscopes.1.child hchild))
        (List.forall_mem_singleton.mpr (hreads.1.child hchild))
        (List.forall_mem_singleton.mpr (hintegers.1.child hchild)) hprovides hlocals
        (List.forall_mem_singleton.mpr hin)
      refine ⟨r, hr, hassigns, (List.forall₂_cons.mp hvalues).1.run_eq env' _ _ (fun _ _ _ _ => rfl) ?_
        (fun _ _ => rfl) heval⟩
      exact hprovides.of_assigns hassigns hparams haccs fun x hx => hnew x (List.mem_cons_of_mem _ hx)
    have hin' := hin.1
    cases hin' with
    | intro heval _ _ =>
    obtain ⟨v, hv⟩ := heval _ hself
    obtain ⟨r, hr, hassigns, hheld⟩ := hin.1.exists_exec_toStmt
      (hintegers.1.typed kind shape axes value hmem d hd) (hintegers.1.shaped kind shape axes value hmem)
      (hintegers.1.extents kind shape axes value hmem) (hscopes.1.axes kind shape axes value hmem) hdivide hparams
      htaken (fun x hx => ⟨hnames x hx, hnew x hx⟩) hdisjoint hprovides hlocals hpoint hv
    have hvalueOf : IsValueOf M address tensors params taken (acc.name :: accs.map Var.name) env r.state
        (.reduce kind shape axes value) (.var acc) := by
      refine ⟨fun env' vars v' hagree _ hheld' heval' => ?_, fun _ hname => by cases hname⟩
      -- the reduction means the same where its variable is read
      have hsame : (Expr.reduce kind shape axes value).eval tensors env = .ok v' := by
        refine Expr.eval_of_agree hintegers.1.shaped (fun w hw => ?_) heval'
        exact (hagree _ hself w.name (List.mem_map_of_mem hw)).symm
      cases hv.symm.trans hsame
      exact Expr.run_var_eq_some_iff.mpr ⟨(hheld' acc.name List.mem_cons_self).trans hheld, by simp⟩
    -- the rest
    refine hvalueOf.exists_run_cons ((Stmt.execAll_singleton _ s).trans hr) hassigns
      (fun x hx hx' => hrest.not_mem_of_rest hx' hx) ?_
    refine ihrest (fun name v hparam => FunctionBuilder.mem_taken_withLocals.mpr (.inr (hparams name v hparam)))
      (fun x hx => (FunctionBuilder.mem_taken_withLocals.mp hx).elim (hnames x) (htaken x)) haccs' hscopes.2 hreads.2
      hintegers.2 ?_ ?_ hin.2
    · exact hprovides.of_assigns hassigns hparams hnames hnew
    · rw [hassigns.vars.map_fst]
      exact hlocals'

/-! ## What `lower` gives -/

/-- **Lowered values mean what the values mean.** -/
theorem Expr.exists_run_of_lower {b b' : FunctionBuilder} {e : Expr} {lowered : Lowered Expr}
    (hparams : params.DeclaredIn b) (hreads : e.ReadsParams params) (hintegers : e.ReducesIntegers)
    (hscopes : e.KeepsScopes b'.taken) (hlower : e.lower params b = .ok (lowered, b')) :
    (∀ x, (∃ s ∈ lowered.prelude, s.Mentions x) ∨ x ∈ lowered.value.freeNames →
      x ∈ e.freeNames ∨ ∃ v ∈ b'.function.params ++ b'.function.locals, v.name = x) ∧
    ∀ {Address Memory : Type} (M : Machine Address Memory) (address : String → Address) (tensors : Tensors) (env : Env)
      (s : State Address Memory) (v : Value), Provides M address tensors params b'.taken env s.memory s.vars →
        (∀ w ∈ b'.function.locals, w.name ∈ s.vars.map Prod.fst) → HoistsIn tensors env e →
          e.eval tensors env = .ok v →
            ∃ r, Stmt.execAll M false lowered.prelude s = some r ∧ r.Assigns (b'.function.locals.map Var.name) s ∧
              lowered.value.run M false r.state.memory r.state.vars = some (.scalar v) := by
  obtain ⟨accs, rfl, hlowers⟩ := exists_lowers hlower
  have htaken : ∀ x ∈ b.taken, x ∈ (b.withLocals accs).taken :=
    fun x hx => FunctionBuilder.mem_taken_withLocals.mpr (.inr hx)
  have haccs : ∀ x ∈ accs.map Var.name, x ∈ (b.withLocals accs).taken :=
    fun x hx => FunctionBuilder.mem_taken_withLocals.mpr (.inl hx)
  have hlocals : ∀ v ∈ accs, v ∈ (b.withLocals accs).function.locals := fun v hv => List.mem_append_right _ hv
  have hparams' : ∀ name v, params.lookup name = some v → v.name ∈ b.taken :=
    fun name v hparam => hparams.taken v (hparams.mem name v hparam)
  constructor
  · -- the names
    let D (x : String) : Prop := ∃ v ∈ (b.withLocals accs).function.params ++ (b.withLocals accs).function.locals, v.name = x
    have hparamsD : ∀ name v, params.lookup name = some v → D v.name :=
      fun name v hparam => ⟨v, List.mem_append_left _ (hparams.mem name v hparam), rfl⟩
    have haccsD : ∀ v ∈ accs, D v.name := fun v hv => ⟨v, List.mem_append_right _ (hlocals v hv), rfl⟩
    rintro x (⟨s, hs, hx⟩ | hx)
    · refine (hlowers.exists_hoists_of_mentions hparamsD haccsD (List.forall_mem_singleton.mpr hintegers.shaped)
        (List.forall_mem_singleton.mpr hscopes) hs hx).imp_left ?_
      rintro ⟨e', he, r, hr, hx⟩
      rw [List.mem_singleton.mp he] at hr
      exact hr.mem_freeNames hscopes hx
    · exact (List.forall₂_cons.mp (hlowers.forall₂_freeNames hparamsD haccsD)).1 x hx
  · -- the run
    intro Address Memory M address tensors env s v hprovides hdeclared hin heval
    obtain ⟨r, hr, hassigns, hvalues⟩ := hlowers.exists_run hparams' htaken haccs
      (List.forall_mem_singleton.mpr hscopes) (List.forall_mem_singleton.mpr hreads)
      (List.forall_mem_singleton.mpr hintegers) hprovides
      (List.forall_mem_map.mpr fun w hw => hdeclared w (hlocals w hw)) (List.forall_mem_singleton.mpr hin)
    refine ⟨r, hr, hassigns.mono (List.forall_mem_map.mpr fun w hw => List.mem_map_of_mem (hlocals w hw)), ?_⟩
    refine (List.forall₂_cons.mp hvalues).1.run_eq env _ v (fun _ _ _ _ => rfl) ?_ (fun _ _ => rfl) heval
    refine hprovides.of_assigns hassigns hparams' haccs ?_
    exact List.forall_mem_map.mpr hlowers.not_mem_taken

end

/-! ## Bindings and conditionals -/

namespace Expr

/-- Two rows of three integers. -/
def rowInput : TensorInput :=
  .ofShape "t0" .int32 [2, 3]

/-- The parameter that stands for the rows. -/
def rowParam : Var :=
  ⟨"t0", rowInput.globalType⟩

/-- A function with this parameter. -/
def rowBuilder : FunctionBuilder :=
  ⟨{ name := "f", worker := .grid (some 1) (some 4), params := [rowParam] }, ["t0"]⟩

/-- The sum of the row whose number a variable holds. -/
def rowSum (row : String) : Expr :=
  reduce .sum [int 3] [Var.int "k"] (rowInput.elementAt [var (Var.int row), var (Var.int "k")])

/-- The sum of the row `i` if there is one, and zero otherwise. -/
def guardedRow : Expr :=
  letIn (Var.int "m") (int 2) (ite (lt (var (Var.int "i")) (var (Var.int "m"))) (rowSum "i") (int 0))

/-- The sum of the row `i` by way of another name for its number. -/
def renamedRow : Expr :=
  letIn (Var.int "j") (var (Var.int "i")) (rowSum "j")

/-- The rows. -/
def rowTensor : NDArray :=
  ⟨[2, 3], #[1.0, 2.0, 3.0, 4.0, 5.0, 6.0]⟩

/-- A thread that holds the number of a row, with the rows in memory. -/
def rowState (row : Int64) : State Place Buffers where
  vars := [("i", .scalar (.int row)), ("t0", .address ("t0", [])), ("acc", .scalar (.int 0))]
  memory place := (rowTensor.get? (place.2.map Int64.toNatClampNeg)).map Value.float

theorem declaredIn_rowBuilder : ParamMap.DeclaredIn [("t0", rowParam)] rowBuilder := by
  refine ⟨fun name v hlookup => ?_, List.forall_mem_singleton.mpr (List.mem_singleton_self _)⟩
  obtain ⟨_, _, hsplit, -⟩ := List.lookup_eq_some_iff.mp hlookup
  have hmem : (name, v) ∈ [("t0", rowParam)] := by simp [hsplit]
  cases List.mem_singleton.mp hmem
  exact List.mem_singleton_self _

theorem eq_rowSum_of_mem_preorder {kind : ReduceKind} {shape : List Expr} {axes : List Var} {value : Expr}
    (h : reduce kind shape axes value ∈ guardedRow.preorder) : reduce kind shape axes value = rowSum "i" := by
  simpa [guardedRow, rowSum, preorder_eq, children, int, lt, TensorInput.elementAt, TensorInput.toExpr, rowInput,
    TensorInput.ofShape, ofShape] using h

theorem reducesIntegers_guardedRow : guardedRow.ReducesIntegers where
  shaped kind shape axes value hmem := by
    cases eq_rowSum_of_mem_preorder hmem
    rfl
  extents kind shape axes value hmem extents hshape := by
    cases eq_rowSum_of_mem_preorder hmem
    cases hshape
    exact List.forall_mem_singleton.mpr (by decide)
  typed kind shape axes value hmem d hd := by
    cases eq_rowSum_of_mem_preorder hmem
    have hint : (rowInput.elementAt [var (Var.int "i"), var (Var.int "k")]).HasDType .int32 := rfl
    rw [hd.unique hint]
    rfl

theorem keepsScopes_guardedRow : guardedRow.KeepsScopes ["acc", "t0"] where
  lets v value body hmem := by
    have hlet : v = Var.int "m" ∧ body = ite (lt (var (Var.int "i")) (var (Var.int "m"))) (rowSum "i") (int 0) := by
      have hnode : letIn v value body = guardedRow := by
        simpa [guardedRow, rowSum, preorder_eq, children, int, lt, TensorInput.elementAt, TensorInput.toExpr, rowInput,
          TensorInput.ofShape, ofShape] using hmem
      cases hnode
      exact ⟨rfl, rfl⟩
    obtain ⟨rfl, rfl⟩ := hlet
    refine ⟨by decide, fun r hr => ?_⟩
    obtain ⟨kind, shape, axes, value', rfl, hreduce⟩ := hr.exists_eq_reduce
    rw [eq_rowSum_of_mem_preorder (mem_preorder_of_child (by simp [guardedRow, children]) hreduce)]
    decide
  axes kind shape axes value hmem := by
    cases eq_rowSum_of_mem_preorder hmem
    decide

theorem hoistsIn_guardedRow : HoistsIn [("t0", rowTensor)] [("i", .int 1)] guardedRow := by
  refine .intro (fun r hr => ?_) ?_ ?_
  · obtain ⟨kind, shape, axes, value, rfl, hmem⟩ := hr.exists_eq_reduce
    cases eq_rowSum_of_mem_preorder hmem
    exact ⟨_, rfl⟩
  · intro kind shape axes value hr extents _ point _ v hv
    cases eq_rowSum_of_mem_preorder hr.mem_preorder
    obtain ⟨_, _, _, -, -, -, rfl⟩ := eval_element_eq_ok_iff.mp hv
    exact ⟨_, rfl⟩
  · intro kind shape axes value hr extents _ point _
    cases eq_rowSum_of_mem_preorder hr.mem_preorder
    refine .of_no_reduce fun kind shape axes value hmem => ?_
    simp [preorder_eq, children, TensorInput.elementAt, TensorInput.toExpr, rowInput, TensorInput.ofShape, ofShape,
      int] at hmem

theorem readsParams_guardedRow : guardedRow.ReadsParams [("t0", rowParam)] := by
  intro name dtype shape hmem v hlookup
  have hinput : tensorInput name dtype shape = rowInput.toExpr := by
    simpa [guardedRow, rowSum, preorder_eq, children, int, lt, TensorInput.elementAt, TensorInput.toExpr, rowInput,
      TensorInput.ofShape, ofShape] using hmem
  cases hinput
  cases hlookup
  exact ⟨.int32, rfl, rfl⟩

theorem provides_rowState : Provides ((Thread.mk 0 1).machine 4) (fun name => (name, [])) [("t0", rowTensor)]
    [("t0", rowParam)] ["acc", "t0"] [("i", .int 1)] (rowState 1).memory (rowState 1).vars where
  axes x v hlookup := by
    obtain ⟨_, _, hsplit, -⟩ := List.lookup_eq_some_iff.mp hlookup
    have hmem : (x, v) ∈ [("i", Value.int 1)] := by simp [hsplit]
    cases List.mem_singleton.mp hmem
    exact ⟨by decide, rfl⟩
  params name v a hparam ha := by
    have hname : name = "t0" := by
      obtain ⟨_, _, hsplit, -⟩ := List.lookup_eq_some_iff.mp hparam
      have hmem : (name, v) ∈ [("t0", rowParam)] := by simp [hsplit]
      exact congrArg Prod.fst (List.mem_singleton.mp hmem)
    subst hname
    cases hparam
    cases ha
    refine ⟨rfl, fun ns x hsmall hx => ?_⟩
    have hindices : (ns.map Int64.ofNat).map Int64.toNatClampNeg = ns := by
      rw [List.map_map]
      refine (List.map_congr_left fun n hn => ?_).trans (List.map_id ns)
      exact Int64.toNatClampNeg_ofNat_of_lt (hsmall n hn)
    simp only [Thread.machine, rowState, List.nil_append, hindices, hx, Option.map_some]

theorem exists_run_of_lower_guardedRow : ∃ lowered b', guardedRow.lower [("t0", rowParam)] rowBuilder = .ok (lowered, b') ∧
    ∃ v r, guardedRow.eval [("t0", rowTensor)] [("i", .int 1)] = .ok v ∧
      Stmt.execAll ((Thread.mk 0 1).machine 4) false lowered.prelude (rowState 1) = some r ∧
        lowered.value.run ((Thread.mk 0 1).machine 4) false r.state.memory r.state.vars = some (.scalar v) := by
  obtain ⟨lowered, b', hlower, htaken, hlocals⟩ : ∃ lowered b',
      guardedRow.lower [("t0", rowParam)] rowBuilder = .ok (lowered, b') ∧ b'.taken = ["acc", "t0"] ∧
        b'.function.locals = [⟨"acc", .ofDType .int32⟩] := ⟨_, _, rfl, rfl, rfl⟩
  obtain ⟨v, hv⟩ : ∃ v, guardedRow.eval [("t0", rowTensor)] [("i", .int 1)] = .ok v := ⟨_, rfl⟩
  obtain ⟨-, hrun⟩ := exists_run_of_lower declaredIn_rowBuilder readsParams_guardedRow reducesIntegers_guardedRow
    (htaken ▸ keepsScopes_guardedRow) hlower
  obtain ⟨r, hr, -, hvalue⟩ := hrun _ _ _ _ (rowState 1) v (htaken ▸ provides_rowState)
    (hlocals ▸ List.forall_mem_singleton.mpr (by decide)) hoistsIn_guardedRow hv
  exact ⟨lowered, b', hlower, v, r, hv, hr, hvalue⟩

/-- Under another name the number of the row is out of reach for the loop in front: it reads a variable that nothing
binds there, and does not run. -/
theorem not_bound_lower_renamedRow : ∃ lowered b', renamedRow.lower [("t0", rowParam)] rowBuilder = .ok (lowered, b') ∧
    renamedRow.freeNames = ["i"] ∧ (b'.function.params ++ b'.function.locals).map Var.name = ["t0", "acc"] ∧
      (∃ s ∈ lowered.prelude, s.Mentions "j") ∧
      (∃ v, renamedRow.eval [("t0", rowTensor)] [("i", .int 1)] = .ok v) ∧
        Stmt.execAll ((Thread.mk 0 1).machine 4) false lowered.prelude (rowState 1) = none := by
  refine ⟨_, _, rfl, rfl, rfl, ⟨_, List.mem_singleton_self _, ?_⟩, ⟨_, rfl⟩, rfl⟩
  refine ⟨[.forRange (Var.int "k") (int 3) none], ?_, List.forall_mem_singleton.mpr rfl⟩
  let acc : Var := ⟨"acc", .ofDType .int32⟩
  let step : Stmt := .assign acc (var acc + element (var rowParam) [var (Var.int "j"), var (Var.int "k")])
  let loop : Stmt := .forRange (Var.int "k") (int 3) none step
  have hstep : step.Uses "j" [] := .expr (List.mem_singleton_self _) (by decide)
  have hloop : loop.Uses "j" [.forRange (Var.int "k") (int 3) none] := .inside (List.mem_singleton_self step) hstep
  exact .inside (s := .seq [.assign acc (literal (.int 0) .int32), loop])
    (List.mem_cons_of_mem _ (List.mem_singleton_self loop)) hloop

/-- There is no third row, and the conditional reads none; the loop in front reads it all the same, and does not run. -/
theorem not_run_lower_guardedRow : ∃ lowered b', guardedRow.lower [("t0", rowParam)] rowBuilder = .ok (lowered, b') ∧
    guardedRow.eval [("t0", rowTensor)] [("i", .int 2)] = .ok (.int 0) ∧
      Stmt.execAll ((Thread.mk 0 2).machine 4) false lowered.prelude (rowState 2) = none :=
  ⟨_, _, rfl, rfl, rfl⟩

end Expr

end TensorCompiler
