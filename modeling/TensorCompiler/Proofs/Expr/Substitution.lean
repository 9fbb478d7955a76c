import TensorCompiler.Proofs.Expr.Agreement

/-! # Expressions in the place of variables

Substitution replaces all variables at once, and what it puts in their place is not replaced again. So it evaluates to
what the expression evaluates to once each replaced name is bound to the value of its replacement, provided that no binding
and no reduction comes between a name and its replacement: none binds a name that is replaced or that occurs free in a
replacement.
-/

namespace TensorCompiler

/-! ## Environments -/

/-- Whether `env'` is `env` with each replaced name bound to the value of its replacement. -/
structure Env.Realizes [FloatOps] (tensors : Tensors) (map : List (String × Expr)) (env env' : Env) : Prop where
  replaced : ∀ x r, map.lookup x = some r → ∃ a, r.eval tensors env = .ok a ∧ env'.lookup x = some a
  kept : ∀ x, map.lookup x = none → env'.lookup x = env.lookup x

namespace Expr

/-! ## Binders -/

/-- The variables that the evaluation of a node binds. -/
def binders : Expr → List Var
  | letIn v _ _ => [v]
  | reduce _ shape axes _ => axes.take shape.length
  | _ => []

/-- Whether a binding or a reduction inside of an expression binds a name. -/
def Binds (e : Expr) (x : String) : Prop :=
  ∃ node ∈ e.preorder, x ∈ node.binders.map Var.name

variable {e c : Expr} {x : String} {vars : List Var}

theorem Binds.of_child (hc : c ∈ e.children) (h : c.Binds x) : e.Binds x := by
  obtain ⟨node, hnode, hx⟩ := h
  exact ⟨node, mem_preorder_of_child hc hnode, hx⟩

/-- What a node that can be evaluated binds in its parts are its bound variables. -/
theorem binds_of_scoped (hrejected : e.isRejected = false) (hc : (vars, c) ∈ e.scopedChildren)
    (hx : x ∈ vars.map Var.name) : e.Binds x := by
  refine ⟨e, mem_preorder_self e, ?_⟩
  cases e with
  | compute => cases hrejected
  | letIn v value body =>
    simp only [scopedChildren, List.mem_cons, List.not_mem_nil, or_false, Prod.mk.injEq] at hc
    rcases hc with ⟨rfl, -⟩ | ⟨rfl, -⟩
    · cases hx
    · exact hx
  | reduce kind shape axes value =>
    rcases List.mem_append.mp hc with hc | hc
    · obtain ⟨extent, -, heq⟩ := List.mem_map.mp hc
      cases heq
      cases hx
    · cases List.mem_singleton.mp hc
      exact hx
  | _ =>
    obtain ⟨part, -, heq⟩ := List.mem_map.mp hc
    cases heq
    cases hx

/-! ## Substitution -/

variable {map : List (String × Expr)}

theorem substitute_var (v : Var) : (var v).substitute map = (map.lookup v.name).getD (var v) := rfl

/-- Substitution goes on in the parts of a node other than a variable. -/
theorem substitute_eq (he : ∀ v, e ≠ var v) : e.substitute map = e.mapChildren (substitute map) := by
  cases e with
  | var v => exact absurd rfl (he v)
  | _ => exact mapBottomUp_eq _ _

/-- Whether the extents of each reduction in an expression are integer literals. -/
def HasConstExtents (e : Expr) : Prop :=
  ∀ kind shape axes value, reduce kind shape axes value ∈ e.preorder → (constShape? shape).isSome

theorem HasConstExtents.child (h : e.HasConstExtents) (hc : c ∈ e.children) : c.HasConstExtents :=
  fun kind shape axes value hmem => h kind shape axes value (mem_preorder_of_child hc hmem)

/-- Extents that are literals have nothing to replace. -/
theorem map_substitute_of_constShape? {shape : List Expr} {extents : List Int64} (h : constShape? shape = some extents) :
    shape.map (substitute map) = shape := by
  induction shape generalizing extents with
  | nil => rfl
  | cons extent shape ih =>
    rw [constShape?, List.mapM_cons] at h
    obtain ⟨n, hn, hrest⟩ := Option.bind_eq_some_iff.mp h
    obtain ⟨ns, hns, -⟩ := Option.bind_eq_some_iff.mp hrest
    have hliteral : extent.substitute map = extent := by
      cases extent with
      | const value d => exact mapBottomUp_eq _ _
      | _ => cases hn
    rw [List.map_cons, hliteral, ih hns]

variable [FloatOps] {tensors : Tensors} {env env' : Env} {v : Value}

/-- An input in the place of a variable would have no value, so an element is read from the same tensor as before. -/
theorem source?_substitute (hmap : ∀ x r, map.lookup x = some r → ∃ a, r.eval tensors env = .ok a) (base : Expr) :
    (base.substitute map).source? = base.source? := by
  by_cases hvar : ∃ w, base = var w
  · obtain ⟨w, rfl⟩ := hvar
    rw [substitute_var]
    cases hlookup : map.lookup w.name with
    | none => rfl
    | some r =>
      obtain ⟨a, ha⟩ := hmap _ r hlookup
      cases r with
      | tensorInput => exact absurd ha (eval_ne_ok_of_isRejected rfl)
      | _ => rfl
  · rw [substitute_eq fun w hw => hvar ⟨w, hw⟩]
    cases base <;> simp [mapChildren, source?, tensorInput?]

end Expr

/-- Binding variables leaves the environments in step if none is replaced and none occurs free in a replacement. -/
theorem Env.Realizes.bind [FloatOps] {tensors : Tensors} {map : List (String × Expr)} {env env' : Env} {vars : List Var}
    {values : List Value} (h : Env.Realizes tensors map env env') (hlength : vars.length ≤ values.length)
    (hbound : ∀ x ∈ vars.map Var.name, map.lookup x = none ∧ ∀ y r, map.lookup y = some r → ¬ r.OccursFree x) :
    Env.Realizes tensors map (env.bind vars values) (env'.bind vars values) where
  replaced x r hlookup := by
    obtain ⟨a, ha, hx⟩ := h.replaced x r hlookup
    have hnew : x ∉ vars.map Var.name := by
      intro hmem
      rw [(hbound x hmem).1] at hlookup
      cases hlookup
    refine ⟨a, (Expr.eval_eq_ok_iff_of_agree fun y hy => ?_).mpr ha, (lookup_bind_of_not_mem hnew env' values).trans hx⟩
    exact lookup_bind_of_not_mem (fun hmem => (hbound y hmem).2 x r hlookup hy) env values
  kept x hlookup := lookup_bind_congr hlength fun _ => h.kept x hlookup

namespace Expr

section

variable [FloatOps] {tensors : Tensors} {map : List (String × Expr)} {env env' : Env} {e : Expr} {v : Value}

/-- One environment in step with another gives an expression the value that the other gives it after substitution. -/
theorem eval_substitute_of_realizes (hextents : e.HasConstExtents) (hmap : Env.Realizes tensors map env env')
    (hbinds : ∀ x, e.Binds x → map.lookup x = none ∧ ∀ y r, map.lookup y = some r → ¬ r.OccursFree x) :
    (e.substitute map).eval tensors env = .ok v ↔ e.eval tensors env' = .ok v := by
  induction e using Expr.induct generalizing env env' v with
  | node e ih =>
    by_cases hvar : ∃ w, e = var w
    · obtain ⟨w, rfl⟩ := hvar
      rw [substitute_var, eval_var_eq_ok_iff]
      cases hlookup : map.lookup w.name with
      | none => rw [Option.getD_none, eval_var_eq_ok_iff, hmap.kept _ hlookup]
      | some r =>
        obtain ⟨a, ha, hw⟩ := hmap.replaced _ r hlookup
        rw [Option.getD_some, ha, hw, Except.ok.injEq, Option.some.injEq]
    -- a node that has no value has none afterwards, so only nodes that bind what they seem to bind are left
    rw [substitute_eq fun w hw => hvar ⟨w, hw⟩]
    by_cases hrejected : e.isRejected
    · refine iff_of_false (eval_ne_ok_of_isRejected ?_) (eval_ne_ok_of_isRejected hrejected)
      rw [isRejected_mapChildren, hrejected]
    · refine (eval_mapChildren_eq_ok_iff (fun w hw => hvar ⟨w, hw⟩) ?_ ?_ ?_)
      · intro kind shape axes value heq
        subst heq
        obtain ⟨extents, hshape⟩ := Option.isSome_iff_exists.mp (hextents kind shape axes value (mem_preorder_self _))
        exact map_substitute_of_constShape? hshape
      · intro base indices _
        exact source?_substitute (fun x r h => (hmap.replaced x r h).imp fun a ha => ha.1) base
      · intro vars c hc values hlength a
        have hchild := mem_children_of_scoped hc
        have hbound : ∀ x ∈ vars.map Var.name, map.lookup x = none ∧ ∀ y r, map.lookup y = some r → ¬ r.OccursFree x :=
          fun x hx => hbinds x (binds_of_scoped (Bool.eq_false_iff.mpr hrejected) hc hx)
        exact ih c hchild (hextents.child hchild) (hmap.bind hlength hbound) fun x hx => hbinds x (hx.of_child hchild)

/-! ## The values of replacements -/

/-- Whether the names that are replaced are listed with the values of their replacements. -/
def HaveValues (tensors : Tensors) (env : Env) : List (String × Expr) → List (String × Value) → Prop :=
  List.Forall₂ fun entry value => entry.1 = value.1 ∧ entry.2.eval tensors env = .ok value.2

theorem HaveValues.realizes {values : List (String × Value)} (h : HaveValues tensors env map values) :
    Env.Realizes tensors map env (values ++ env) := by
  have hlookup (x : String) : (∀ r, map.lookup x = some r → ∃ a, r.eval tensors env = .ok a ∧ values.lookup x = some a) ∧
      (map.lookup x = none → values.lookup x = none) := by
    induction h with
    | nil => exact ⟨nofun, fun _ => rfl⟩
    | @cons entry value map values hvalue _ ih =>
      obtain ⟨hname, heval⟩ := hvalue
      by_cases hx : x = entry.1
      · subst hx
        rw [hname, List.lookup_cons_self, ← hname, List.lookup_cons_self]
        refine ⟨fun r hr => ?_, nofun⟩
        cases hr
        exact ⟨value.2, heval, rfl⟩
      · rw [List.lookup_cons, List.lookup_cons, ← hname, beq_false_of_ne hx]
        exact ih
  refine ⟨fun x r hr => ?_, fun x hr => ?_⟩
  · obtain ⟨a, ha, hx⟩ := (hlookup x).1 r hr
    exact ⟨a, ha, by rw [List.lookup_append, hx, Option.some_or]⟩
  · rw [List.lookup_append, (hlookup x).2 hr, Option.none_or]

/-- Substitution evaluates to what the expression evaluates to with each replaced name bound to the value that its
replacement has outside: if the extents of reductions are literals, and no variable that a binding or a reduction binds in
the expression is replaced or occurs free in a replacement. -/
theorem eval_substitute_eq_ok_iff {values : List (String × Value)} (hextents : e.HasConstExtents)
    (hvalues : HaveValues tensors env map values)
    (hbinds : ∀ x, e.Binds x → x ∉ map.map Prod.fst ∧ ∀ r ∈ map.map Prod.snd, ¬ r.OccursFree x) (v : Value) :
    (e.substitute map).eval tensors env = .ok v ↔ e.eval tensors (values ++ env) = .ok v := by
  refine eval_substitute_of_realizes hextents hvalues.realizes fun x hx => ?_
  obtain ⟨hnew, hfree⟩ := hbinds x hx
  refine ⟨?_, fun y r hr => hfree r ?_⟩
  · refine List.lookup_eq_none_iff.mpr fun entry hentry => ?_
    rw [bne_iff_ne]
    rintro rfl
    exact hnew (List.mem_map_of_mem hentry)
  · obtain ⟨before, after, rfl, -⟩ := List.lookup_eq_some_iff.mp hr
    simp

end

/-- The sum over `j < 2` of `t * y + j`, where `t` is `x + 1`. -/
def shiftedSum : Expr :=
  letIn (.int "t") (.var (.int "x") + .int 1)
    (.reduce .sum [.int 2] [.int "j"] (.var (.int "t") * .var (.int "y") + .var (.int "j")))

/-- With `y * z` in the place of `x` and `x` in the place of `y`, both at once, the sum is that of `x = 15` and `y = 2`. -/
theorem eval_substitute_shiftedSum :
    (shiftedSum.substitute [("x", .var (.int "y") * .var (.int "z")), ("y", .var (.int "x"))]).eval []
      [("x", .int 2), ("y", .int 3), ("z", .int 5)] = .ok (.int 65) := by
  have hvalues : HaveValues [] [("x", .int 2), ("y", .int 3), ("z", .int 5)]
      [("x", .var (.int "y") * .var (.int "z")), ("y", .var (.int "x"))] [("x", .int 15), ("y", .int 2)] :=
    .cons ⟨rfl, rfl⟩ (.cons ⟨rfl, rfl⟩ .nil)
  refine (eval_substitute_eq_ok_iff ?_ hvalues (fun x hx => ?_) (.int 65)).mpr rfl
  · intro kind shape axes value hmem
    have hsum : reduce kind shape axes value =
        .reduce .sum [.int 2] [.int "j"] (.var (.int "t") * .var (.int "y") + .var (.int "j")) := by
      simpa [shiftedSum, preorder, preorderAll, HAdd.hAdd, Add.add, HMul.hMul, Mul.mul, Expr.int] using hmem
    cases hsum
    rfl
  · obtain ⟨node, hnode, hx⟩ := hx
    have hbound : x ∈ shiftedSum.preorder.flatMap fun node => node.binders.map Var.name :=
      List.mem_flatMap.mpr ⟨node, hnode, hx⟩
    change x ∈ ["t", "j"] at hbound
    refine ⟨by rcases List.mem_pair.mp hbound with rfl | rfl <;> decide, fun r hr hfree => ?_⟩
    have hshaped : r.IsShaped := by
      intro kind shape axes value hmem
      rcases List.mem_pair.mp hr with rfl | rfl <;> simp [preorder] at hmem
    obtain ⟨w, hw, rfl⟩ := hfree.mem_freeVars hshaped
    have hfree := List.mem_flatMap.mpr ⟨r, hr, hw⟩
    change w ∈ [Var.int "y", Var.int "z", Var.int "x"] at hfree
    simp only [List.mem_cons, List.not_mem_nil, or_false] at hfree
    rcases hfree with rfl | rfl | rfl <;> simp [Var.int] at hbound

end Expr

end TensorCompiler
