import TensorCompiler.Proofs.Task.RenamedMatch
import TensorCompiler.Task.Pattern

/-! # Tasks that match alike

Two tasks that differ in the names of bound variables only match a pattern alike if the renaming keeps what matching
compares. It compares structurally and knows a variable of the pattern for the whole match, not for a scope, so this asks
for more than that no variable is captured: the free variables of the pattern stand for themselves, and a name that is
compared across scopes has one partner.
-/

namespace TensorCompiler

/-- Whether two tasks differ in the names of bound variables only. -/
structure Task.Renamed (ρ : String → String → Prop) (t t' : Task) : Prop where
  worker : t.worker = t'.worker
  computation : Expr.Renamed ρ [] t.computation.toExpr t'.computation.toExpr
  params : List.Forall₂ (Expr.Renamed ρ []) t.params t'.params
  paramTypes : List.Forall₂ (Ty.Renamed ρ []) t.paramTypes t'.paramTypes

/-- The placeholders of a pattern, those of its definition before those of its templates. -/
def TaskPattern.placeholders (pattern : TaskPattern) : List Placeholder :=
  pattern.computation.placeholders ++ pattern.requiredTypes.flatMap Ty.placeholders

/-- Whether the variables that occur free in a pattern are of a kind. -/
structure TaskPattern.FreeIn (free : String → Prop) (pattern : TaskPattern) : Prop where
  computation : pattern.computation.Scoped (.orFree free) []
  requiredTypes : ∀ type ∈ pattern.requiredTypes, type.Scoped (.orFree free) []

/-- Whether matching compares no names of different scopes: the pattern has no placeholder twice, its free variables are not
bound in it, no variable of the tasks shadows another, and the definition is the only parameter with variables. -/
structure Separates (free : String → Prop) (pattern : TaskPattern) (t t' : Task) : Prop where
  distinct : pattern.placeholders.Nodup
  apart : ∀ name, free name → .var name ∉ pattern.placeholders
  unshadowed : t.Unshadowed
  unshadowed' : t'.Unshadowed
  params : List.Forall₂ (fun e e' => e = t.computation.toExpr ∧ e' = t'.computation.toExpr ∨
    Expr.Renamed (fun _ _ => False) [] e e') t.params t'.params

/-! ## Positions of parameters -/

section

variable {ρ : String → String → Prop} {free : String → Prop} {pattern : TaskPattern} {t t' : Task} {n n' : Expr}

theorem Task.Renamed.paramIndex?_eq (h : t.Renamed ρ t') (hρ : OneToOne ρ) (hn : n.RenamedSomewhere ρ n') :
    t.paramIndex? n = t'.paramIndex? n' := by
  obtain ⟨scope, hn⟩ := hn
  exact findIdx?_eq_of_forall₂ (h.params.imp fun e e' he => Expr.same_eq_of_renamed hρ e he hn)

/-- A parameter without variables is equal to both of two renamed nodes, or to none. -/
theorem Separates.paramIndex?_eq (h : Separates free pattern t t') (hn : n.RenamedSomewhere ρ n')
    (hsame : t.computation.toExpr.same n = t'.computation.toExpr.same n') : t.paramIndex? n = t'.paramIndex? n' := by
  obtain ⟨scope, hn⟩ := hn
  refine findIdx?_eq_of_forall₂ (h.params.imp fun e e' he => ?_)
  rcases he with ⟨rfl, rfl⟩ | he
  · exact hsame
  · exact Expr.same_eq_of_renamed (fun _ _ _ _ hfalse => hfalse.elim) e he hn

/-- The definition is not equal to a node inside of it. -/
theorem Expr.same_eq_false_of_weight_lt {e : Expr} (h : n.weight < e.weight) : e.same n = false := by
  by_contra hsame
  exact absurd (Expr.weight_eq_of_same.1 e n (by simpa using hsame)) (Nat.ne_of_gt h)

/-- Whether renamed nodes stand at the same position among the parameters, if they are what a node of the definition of the
pattern is bound to. -/
def SamePosition (pattern : TaskPattern) (t t' : Task) (name : String) (n n' : Expr) : Prop :=
  .node name ∈ pattern.computation.placeholders → t.paramIndex? n = t'.paramIndex? n'

theorem found_computation (h : t.Renamed ρ t') (hnames : OneToOne ρ ∨ Separates free pattern t t') :
    Found ρ (SamePosition pattern t t') pattern.computation.placeholders t.computation.toExpr t'.computation.toExpr := by
  rcases hnames with hρ | hsep
  · exact ⟨fun _ _ _ => h.paramIndex?_eq hρ ⟨[], h.computation⟩, fun _ _ _ _ hn _ _ => h.paramIndex?_eq hρ hn⟩
  · refine ⟨fun _ _ _ => hsep.paramIndex?_eq ⟨[], h.computation⟩ h.computation.same_self, fun _ _ n n' hn hlt _ => ?_⟩
    have hlt' : n'.weight < t'.computation.toExpr.weight := by
      rw [← h.computation.weight_eq, ← hn.choose_spec.weight_eq]
      exact hlt
    exact hsep.paramIndex?_eq hn
      ((Expr.same_eq_false_of_weight_lt hlt).trans (Expr.same_eq_false_of_weight_lt hlt').symm)

/-- The nodes of a template are not nodes of the definition, if the pattern has no placeholder twice. -/
theorem below_template (h : t.Renamed ρ t') (hnames : OneToOne ρ ∨ Separates free pattern t t') {template : Ty}
    (htemplate : template ∈ pattern.requiredTypes) (weight : Nat) :
    Below ρ (SamePosition pattern t t') template.placeholders weight := by
  intro name hname n n' hn _ hmem
  rcases hnames with hρ | hsep
  · exact h.paramIndex?_eq hρ hn
  · have hdisjoint := (List.nodup_append.mp hsep.distinct).2.2
    exact absurd rfl (hdisjoint _ hmem _ (List.mem_flatMap.mpr ⟨template, htemplate, hname⟩))

open MatchM

variable {N : String → Expr → Expr → Prop} {b b' : Binding}

/-! ## Required parameters -/

theorem Expr.allPlaceholders_eq (es : List Expr) : Expr.allPlaceholders es = es.flatMap Expr.placeholders := by
  induction es with
  | nil => rfl
  | cons e es ih => rw [Expr.allPlaceholders, ih, List.flatMap_cons]

theorem Expr.placeholders_subset_of_child {c e : Expr} (hc : c ∈ e.children) : c.placeholders ⊆ e.placeholders := by
  intro k hk
  cases e with
  | tensorInput name dtype shape =>
    cases shape with
    | none => simp [Expr.children] at hc
    | some shape =>
      simp only [Expr.placeholders, Expr.shapePlaceholders, Expr.allPlaceholders_eq, List.mem_append, List.mem_flatMap]
      exact Or.inl ⟨c, hc, hk⟩
  | element base indices =>
    simp only [Expr.placeholders, Expr.allPlaceholders_eq, List.mem_append, List.mem_flatMap]
    rcases List.mem_cons.mp hc with rfl | hc
    · exact Or.inl hk
    · exact Or.inr ⟨c, hc, hk⟩
  | compute name shape axes value | reduce kind shape axes value =>
    simp only [Expr.placeholders, Expr.allPlaceholders_eq, List.mem_append, List.mem_flatMap]
    rcases List.mem_append.mp hc with hc | hc
    · exact Or.inl ⟨c, hc, hk⟩
    · rw [List.mem_singleton.mp hc] at hk
      simp [hk]
  | call func args =>
    simp only [Expr.placeholders, Expr.allPlaceholders_eq, List.mem_flatMap]
    exact ⟨c, hc, hk⟩
  | var | const | scalarInput | any | anyCompute | anyReduce => cases hc
  | _ =>
    simp only [Expr.children, List.mem_cons, List.not_mem_nil, or_false] at hc
    rcases hc with rfl | rfl | rfl <;> simp [Expr.placeholders, hk]

theorem Expr.node_mem_placeholders {name : String} {e : Expr} (hname : e.nodeName? = some name) :
    .node name ∈ e.placeholders := by
  cases e <;> cases hname <;> simp [Expr.placeholders]

theorem Expr.node_mem_placeholders_of_mem_preorder {name : String} {e : Expr} (hn : n ∈ e.preorder)
    (hname : n.nodeName? = some name) : .node name ∈ e.placeholders := by
  induction e using Expr.induct with
  | node e ih =>
    by_cases hne : n = e
    · exact Expr.node_mem_placeholders (hne ▸ hname)
    · obtain ⟨c, hc, hn⟩ := Expr.exists_child_of_mem_preorder hn hne
      exact Expr.placeholders_subset_of_child hc (ih c hc hn)

theorem TaskPattern.declared_of_paramFault? {declared : List String} {index : Nat} {params : List Expr}
    (h : TaskPattern.paramFault? declared index params = none) {param : Expr} (hparam : param ∈ params) {name : String}
    (hname : param.nodeName? = some name) : name ∈ declared := by
  induction params generalizing index with
  | nil => cases hparam
  | cons first params ih =>
    unfold TaskPattern.paramFault? at h
    split at h
    · cases h
    · rename_i other hother
      split_ifs at h with hdeclared
      rcases List.mem_cons.mp hparam with rfl | hparam
      · rw [hname] at hother
        cases hother
        simpa using hdeclared
      · exact ih h hparam

theorem TaskPattern.length_requiredTypes (hvalid : pattern.fault? = none) :
    pattern.requiredTypes.length = pattern.requiredParams.length := by
  unfold TaskPattern.fault? at hvalid
  split_ifs at hvalid with hlength
  simpa using (Eq.symm (by simpa using hlength))

/-- The required parameters of a valid pattern are nodes of its definition. -/
theorem TaskPattern.node_mem_placeholders (hvalid : pattern.fault? = none) {param : Expr}
    (hparam : param ∈ pattern.requiredParams) {name : String} (hname : param.nodeName? = some name) :
    .node name ∈ pattern.computation.placeholders := by
  unfold TaskPattern.fault? at hvalid
  split_ifs at hvalid
  obtain ⟨n, hn, hname⟩ := List.mem_filterMap.mp (TaskPattern.declared_of_paramFault? hvalid hparam hname)
  exact Expr.node_mem_placeholders_of_mem_preorder hn hname

/-- Around a template nothing is bound. -/
theorem around_nil (b b' : Binding) : Around ρ [] [] b b' where
  bound := by simp
  aligned _ := .nil
  nodup _ := ⟨List.nodup_nil, List.nodup_nil⟩

/-- Adding one position to either binding. -/
theorem Adds.bindParam {K : List Placeholder} {c c' : Binding} (h : Adds ρ N K b b' c c') (index : Nat) :
    Adds ρ N K b b' { c with params := c.params ++ [index] } { c' with params := c'.params ++ [index] } where
  paired := ⟨{ h.paired.renamed with params := by rw [h.paired.renamed.params] }, h.paired.nodes⟩
  left := h.left.trans (c.extends_params _)
  right := h.right.trans (c'.extends_params _)
  has k hk := h.has k (by cases k <;> exact hk)

theorem run_matchParam (task : Task) (param : Expr) (template : Ty) (b : Binding) :
    (matchParam task param template).run b = (match param.nodeName?.bind b.node? with
      | none => throw .missingParam
      | some node =>
        match task.paramIndex? node with
        | none => throw .missingParam
        | some index =>
          match task.paramTypes[index]? with
          | none => throw .missingParam
          | some actual =>
            match (matchTy template actual).run b with
            | .error _ => throw .paramType
            | .ok (_, extended) => do
              set extended
              MatchM.bindParam index : MatchM Unit).run b := by
  unfold matchParam
  rewrite [StateT.run_bind, StateT.run_get, pure_bind]
  rfl

/-- The step for one required parameter. -/
theorem lockstep_matchParam (h : t.Renamed ρ t') (hnames : OneToOne ρ ∨ Separates free pattern t t')
    (hfixes : Fixes ρ free) (hfree : pattern.FreeIn free) {param : Expr} {template : Ty}
    (hparam : ∀ name, param.nodeName? = some name → .node name ∈ pattern.computation.placeholders)
    (htemplate : template ∈ pattern.requiredTypes) (hready : Ready ρ free template.placeholders b)
    (hb : Paired ρ (SamePosition pattern t t') b b') :
    (matchParam t param template).Lockstep (matchParam t' param template) b b'
      (Adds ρ (SamePosition pattern t t') template.placeholders b b') := by
  unfold Lockstep
  rw [run_matchParam, run_matchParam]
  cases hname : param.nodeName? with
  | none => exact .error _
  | some name =>
    have hnode := hb.renamed.nodes.lookup name
    have hposition := hb.nodes name
    simp only [Option.bind_some, Binding.node?]
    generalize b.nodes.lookup name = x at hnode hposition ⊢
    generalize b'.nodes.lookup name = y at hnode hposition ⊢
    cases hnode with
    | none => exact .error _
    | @some n n' _ =>
      have hindex := hposition n n' rfl rfl (hparam name hname)
      simp only [← hindex]
      cases t.paramIndex? n with
      | none => exact .error _
      | some index =>
        have htype := getElem?_rel_of_forall₂ h.paramTypes index
        have hunshadowed : ¬ OneToOne ρ → ∀ type type', t.paramTypes[index]? = some type →
            t'.paramTypes[index]? = some type' → type.Scoped .unshadowed [] ∧ type'.Scoped .unshadowed [] :=
          fun hρ type type' htype htype' => have hsep := hnames.resolve_left hρ
            ⟨hsep.unshadowed.paramTypes type (List.mem_of_getElem? htype),
              hsep.unshadowed'.paramTypes type' (List.mem_of_getElem? htype')⟩
        dsimp only
        generalize t.paramTypes[index]? = x at htype hunshadowed ⊢
        generalize t'.paramTypes[index]? = y at htype hunshadowed ⊢
        cases htype with
        | none => exact .error _
        | @some type type' htype =>
          have hmatch := lockstep_matchTy hfixes template (hfree.requiredTypes template htemplate) htype
            (fun hρ => hunshadowed hρ type type' rfl rfl) (below_template h hnames htemplate _) hready hb
            (around_nil b b')
          unfold Lockstep at hmatch
          dsimp only
          generalize (matchTy template type).run b = r at hmatch ⊢
          generalize (matchTy template type').run b' = r' at hmatch ⊢
          cases hmatch with
          | error => exact .error _
          | ok hadds => exact .ok (hadds.bindParam index)

/-- The steps for the required parameters. -/
theorem lockstep_matchParams (h : t.Renamed ρ t') (hnames : OneToOne ρ ∨ Separates free pattern t t')
    (hfixes : Fixes ρ free) (hfree : pattern.FreeIn free) {pairs : List (Expr × Ty)}
    (hparams : ∀ x ∈ pairs, ∀ name, x.1.nodeName? = some name → .node name ∈ pattern.computation.placeholders)
    (htemplates : ∀ x ∈ pairs, x.2 ∈ pattern.requiredTypes)
    (hready : Ready ρ free (pairs.flatMap fun x => x.2.placeholders) b) (hb : Paired ρ (SamePosition pattern t t') b b') :
    MatchM.Lockstep (pairs.forM fun x => matchParam t x.1 x.2) (pairs.forM fun x => matchParam t' x.1 x.2) b b'
      (Adds ρ (SamePosition pattern t t') (pairs.flatMap fun x => x.2.placeholders) b b') := by
  induction pairs generalizing b b' with
  | nil => exact lockstep_pure (.refl hb)
  | cons x pairs ih =>
    rw [List.flatMap_cons] at hready ⊢
    have hfirst := lockstep_matchParam h hnames hfixes hfree (hparams x List.mem_cons_self)
      (htemplates x List.mem_cons_self) hready.left hb
    exact lockstep_seq hfirst fun c c' hc => ih (fun y hy => hparams y (List.mem_cons_of_mem _ hy))
      (fun y hy => htemplates y (List.mem_cons_of_mem _ hy)) (hready.right hc) hc.paired

/-! ## Tasks -/

theorem Ty.Renamed.isTensorLike_eq {scope : Renaming} {type type' : Ty} (h : Ty.Renamed ρ scope type type') :
    type.isTensorLike = type'.isTensorLike := by
  cases h <;> rfl

theorem Task.Renamed.hasOtherTensors_eq (h : t.Renamed ρ t') (params : List Nat) :
    t.hasOtherTensors params = t'.hasOtherTensors params := by
  unfold Task.hasOtherTensors
  have hany {types types' : List Ty} (hall : List.Forall₂ (Ty.Renamed ρ []) types types') (k : Nat) :
      (types.zipIdx k).any (fun x => x.1.isTensorLike && !params.contains x.2) =
        (types'.zipIdx k).any (fun x => x.1.isTensorLike && !params.contains x.2) := by
    induction hall generalizing k with
    | nil => rfl
    | cons hty _ ih => rw [List.zipIdx_cons, List.zipIdx_cons, List.any_cons, List.any_cons, ih, hty.isTensorLike_eq]
  exact hany h.paramTypes 0

theorem paired_empty (N : String → Expr → Expr → Prop) : Paired ρ N {} {} where
  renamed := ⟨.nil, .nil, .nil, rfl, rfl, rfl, rfl⟩
  nodes _ _ _ hn := by cases hn

theorem not_has_empty (k : Placeholder) : ¬ Binding.Has {} k := by
  cases k <;> simp [Binding.Has]

/-- Matching does not depend on the names of bound variables: two tasks that differ in these only match a valid pattern
alike, with bindings that are equal up to the renaming, or neither does, for one reason. The renaming leaves the free
variables of the pattern alone and is one to one, unless no names of different scopes are compared. -/
theorem sameOutcome_matchTask (hvalid : pattern.fault? = none) (hfree : pattern.FreeIn free) (h : t.Renamed ρ t')
    (hfixes : Fixes ρ free) (hnames : OneToOne ρ ∨ Separates free pattern t t') :
    SameOutcome (Binding.Renamed ρ) (matchTask pattern t) (matchTask pattern t') := by
  have hzip : (pattern.requiredParams.zip pattern.requiredTypes).flatMap (fun x => x.2.placeholders) =
      pattern.requiredTypes.flatMap Ty.placeholders := by
    conv_rhs => rw [← List.map_snd_zip (Nat.le_of_eq (TaskPattern.length_requiredTypes hvalid)), List.flatMap_map]
  have hready : Ready ρ free (pattern.computation.placeholders ++
      (pattern.requiredParams.zip pattern.requiredTypes).flatMap fun x => x.2.placeholders) {} := by
    rw [hzip]
    exact ⟨fun hρ => (hnames.resolve_left hρ).distinct, fun _ k _ => not_has_empty k,
      fun hρ name hname => ⟨(hnames.resolve_left hρ).apart name hname, not_has_empty _⟩⟩
  have hcomputation := lockstep_matchExpr hfixes pattern.computation hfree.computation h.computation
    (fun hρ => have hsep := hnames.resolve_left hρ
      ⟨hsep.unshadowed.computation, hsep.unshadowed'.computation⟩)
    (found_computation h hnames) hready.left (paired_empty _) (around_nil {} {})
  have hsteps := lockstep_seq hcomputation fun c c' hc => lockstep_matchParams h hnames hfixes hfree
    (fun x hx _ => TaskPattern.node_mem_placeholders hvalid (List.of_mem_zip hx).1)
    (fun x hx => (List.of_mem_zip hx).2) (hready.right hc) hc.paired
  unfold matchTask
  rw [h.worker]
  split_ifs
  · exact .error _
  · refine SameOutcome.bind hsteps ?_
    rintro ⟨⟨⟩, c⟩ ⟨⟨⟩, c'⟩ hr
    dsimp only at hr ⊢
    rw [hr.paired.renamed.params, h.hasOtherTensors_eq]
    split_ifs
    · exact .error _
    · exact .ok hr.paired.renamed

end

/-! ## Names that matter -/

/-- A pattern of the tasks that compute a vector of values of a form. -/
def vectorPattern (value : Expr) : TaskPattern :=
  { computation := .compute "out" [.any 0] [.int "i"] value
    requiredParams := []
    requiredTypes := []
    allowExtraTensors := true
    worker := .anyGrid }

/-- The task that computes a vector of four values from other such vectors. -/
def vectorTask (inputs : List Expr) (axis : String) (value : Expr) : Task :=
  let output : TensorCompute := ⟨"t1", [.int 4], [.int axis], value⟩
  let params := inputs ++ [output.toExpr]
  { name := "vector"
    computation := output
    params
    paramTypes := params.map fun _ => .tensor ⟨.known .global, .known .float32, some [.int 4], none⟩
    worker := .grid (some 1) (some 256) }

/-- The sum of four values. -/
def sumOver (axis : String) (value : Expr) : Expr :=
  .reduce .sum [.int 4] [.int axis] value

/-- The element of a vector at the position that a variable has. -/
def elementAt (axis : String) : Expr :=
  .element (.tensorInput "t0" (.known .float32) (some [.int 4])) [.var (.int axis)]

section

variable {ρ : String → String → Prop} {scope : Renaming} {axis axis' : String} {value value' : Expr}

theorem renamed_sumOver (haxis : ρ axis axis') (h : Expr.Renamed ρ ((axis, axis') :: scope) value value') :
    Expr.Renamed ρ scope (sumOver axis value) (sumOver axis' value') :=
  .reduce (.cons .const .nil) (.cons ⟨haxis, rfl⟩ .nil) h

theorem renamed_elementAt (haxis : ρ axis axis') (h : scope.Links axis axis') :
    Expr.Renamed ρ scope (elementAt axis) (elementAt axis') :=
  .element (.tensorInput (.known (.cons .const .nil))) (.cons (.var haxis h rfl) .nil)

theorem renamed_vectorTask {inputs : List Expr} (hinputs : ∀ e ∈ inputs, Expr.Renamed ρ [] e e) (haxis : ρ axis axis')
    (h : Expr.Renamed ρ [(axis, axis')] value value') :
    (vectorTask inputs axis value).Renamed ρ (vectorTask inputs axis' value') where
  worker := rfl
  computation := .compute (.cons .const .nil) (.cons ⟨haxis, rfl⟩ .nil) h
  params := List.rel_append (List.forall₂_same.mpr hinputs)
    (.cons (.compute (.cons .const .nil) (.cons ⟨haxis, rfl⟩ .nil) h) .nil)
  paramTypes := by
    simp only [vectorTask, List.map_append, List.map_cons, List.map_nil]
    refine List.forall₂_same.mpr fun ty hty => ?_
    have hty : ty = .tensor ⟨.known .global, .known .float32, some [.int 4], none⟩ := by simp at hty; tauto
    subst hty
    exact .tensor (.mk (.known (.cons .const .nil)) .opened)

end

/-- A pattern of the sums of two sums. -/
def sumsPattern : TaskPattern :=
  vectorPattern (sumOver "j" (.element (.any 1) [.var (.int "j")]) + sumOver "m" (.element (.any 2) [.var (.int "m")]))

/-- The task that adds the sum of a vector to itself, with an axis of some name in the second sum. -/
def sumsTask (axis : String) : Task :=
  vectorTask [] "i" (sumOver "k" (elementAt "k") + sumOver axis (elementAt axis))

theorem unshadowed_sumsTask {axis : String} (h : axis ≠ "i") : (sumsTask axis).Unshadowed where
  computation := by
    simp [sumsTask, vectorTask, TensorCompute.toExpr, sumOver, elementAt, Expr.int, Expr.Scoped, Expr.AllScoped,
      Expr.ShapeScoped, ScopeRule.unshadowed, Var.int, h.symm]
  paramTypes := by
    simp [sumsTask, vectorTask, Ty.Scoped, TensorType.Scoped, Expr.ShapeScoped, Expr.AllScoped, Expr.Scoped, Expr.int]

/-- Renaming one of two axes of one name is not one to one, and a pattern without repeated placeholders does not see it. -/
theorem sameOutcome_sums : ¬ OneToOne (fun _ _ => True) ∧ (matchTask sumsPattern (sumsTask "k")).isOk = true ∧
    SameOutcome (Binding.Renamed fun _ _ => True) (matchTask sumsPattern (sumsTask "k"))
      (matchTask sumsPattern (sumsTask "l")) := by
  have hfree : sumsPattern.FreeIn fun _ => False := by
    refine ⟨?_, by simp [sumsPattern, vectorPattern]⟩
    simp [sumsPattern, vectorPattern, sumOver, Expr.int, Expr.Scoped, Expr.AllScoped, ScopeRule.orFree, Var.int]
  have hrenamed : (sumsTask "k").Renamed (fun _ _ => True) (sumsTask "l") :=
    renamed_vectorTask (by simp) trivial (.binary (renamed_sumOver trivial (renamed_elementAt trivial .here))
      (renamed_sumOver trivial (renamed_elementAt trivial .here)))
  refine ⟨fun h => ?_, ?_, ?_⟩
  · have hsame := (@h "k" "k" "k" "l" trivial trivial).mp rfl
    exact absurd hsame (by decide)
  · cbv
    repeat (rw [matchEach_nil]; cbv)
  · refine sameOutcome_matchTask (by decide) hfree hrenamed (fun _ hx => hx.elim)
      (.inr ⟨by decide, fun _ hx => hx.elim, unshadowed_sumsTask (by decide), unshadowed_sumsTask (by decide), ?_⟩)
    exact .cons (.inl ⟨rfl, rfl⟩) .nil

/-- Whether two tasks differ in the names of bound variables only, and one of them alone matches a valid pattern. -/
structure NamesMatter (pattern : TaskPattern) (t t' : Task) : Prop where
  valid : pattern.fault? = none
  renamed : t.Renamed (fun _ _ => True) t'
  accepts : (matchTask pattern t).isOk = true
  declines : (matchTask pattern t').isOk = false

/-- A free variable of the pattern stands for itself, which in a task may be an axis. -/
theorem namesMatter_free : NamesMatter (vectorPattern (.var (.int "z"))) (vectorTask [] "z" (.var (.int "z")))
    (vectorTask [] "y" (.var (.int "y"))) where
  valid := by decide
  renamed := renamed_vectorTask (by simp) trivial (.var trivial .here rfl)
  accepts := by
    cbv
    rw [matchEach_nil]
    cbv
  declines := by
    cbv
    rw [matchEach_nil]
    cbv

/-- A hole that occurs twice stands for equal expressions, not for ones that are equal up to names. -/
theorem namesMatter_twice : NamesMatter (vectorPattern (.any 1 + .any 1))
    (vectorTask [] "i" (sumOver "k" (elementAt "k") + sumOver "k" (elementAt "k")))
    (vectorTask [] "i" (sumOver "k" (elementAt "k") + sumOver "m" (elementAt "m"))) where
  valid := by decide
  renamed := renamed_vectorTask (by simp) trivial (.binary
    (renamed_sumOver trivial (renamed_elementAt trivial .here)) (renamed_sumOver trivial (renamed_elementAt trivial .here)))
  accepts := by
    cbv
    rw [matchEach_nil]
    cbv
  declines := by
    cbv
    rw [matchEach_nil]
    cbv

/-- A variable of the pattern is known for the whole match, also where the variable it is bound to is shadowed. -/
theorem namesMatter_shadowed : NamesMatter (vectorPattern (sumOver "j" (sumOver "m" (.element (.any 1) [.var (.int "j")]))))
    (vectorTask [] "i" (sumOver "k" (sumOver "k" (elementAt "k"))))
    (vectorTask [] "i" (sumOver "k" (sumOver "l" (elementAt "l")))) where
  valid := by decide
  renamed := renamed_vectorTask (by simp) trivial
    (renamed_sumOver trivial (renamed_sumOver trivial (renamed_elementAt trivial .here)))
  accepts := by
    cbv
    repeat (rw [matchEach_nil]; cbv)
  declines := by
    cbv
    repeat (rw [matchEach_nil]; cbv)

/-- A definition of another vector. -/
def copyOf (axis : String) : Expr :=
  .compute "t2" [.int 4] [.int axis] (elementAt axis)

/-- The pattern of the tasks that compute a vector from a definition of another one that they are given. -/
def readsPattern : TaskPattern :=
  let input := Expr.compute "in" [.any 1] [.int "j"] (.any 2)
  { vectorPattern (.element input [.var (.int "i")]) with
    requiredParams := [input]
    requiredTypes := [.tensor ⟨.hole 0, .hole 0, none, none⟩] }

/-- The task that computes a vector from a definition of another one, which is given with an axis of some name. -/
def readsTask (axis : String) : Task :=
  vectorTask [copyOf "k"] "i" (.element (copyOf axis) [.var (.int "i")])

/-- A parameter is found by equality with a node of the definition. -/
theorem namesMatter_param : NamesMatter readsPattern (readsTask "k") (readsTask "l") where
  valid := by decide
  renamed := by
    have hcopy {axis axis' : String} {scope : Renaming} : Expr.Renamed (fun _ _ => True) scope (copyOf axis) (copyOf axis') :=
      .compute (.cons .const .nil) (.cons ⟨trivial, rfl⟩ .nil) (renamed_elementAt trivial .here)
    refine renamed_vectorTask (fun e he => ?_) trivial (.element hcopy (.cons (.var trivial .here rfl) .nil))
    rw [List.mem_singleton.mp he]
    exact hcopy
  accepts := by
    cbv
    repeat (rw [matchEach_nil]; cbv)
  declines := by
    cbv
    repeat (rw [matchEach_nil]; cbv)

/-- That no variable is captured is not enough: names matter if a free variable of the pattern is the name of an axis, if the
pattern uses a hole twice, if a variable shadows another and if a parameter has variables that the definition renames. -/
theorem matchTask_depends_on_names :
    NamesMatter (vectorPattern (.var (.int "z"))) (vectorTask [] "z" (.var (.int "z")))
        (vectorTask [] "y" (.var (.int "y"))) ∧
      NamesMatter (vectorPattern (.any 1 + .any 1))
        (vectorTask [] "i" (sumOver "k" (elementAt "k") + sumOver "k" (elementAt "k")))
        (vectorTask [] "i" (sumOver "k" (elementAt "k") + sumOver "m" (elementAt "m"))) ∧
      NamesMatter (vectorPattern (sumOver "j" (sumOver "m" (.element (.any 1) [.var (.int "j")]))))
        (vectorTask [] "i" (sumOver "k" (sumOver "k" (elementAt "k"))))
        (vectorTask [] "i" (sumOver "k" (sumOver "l" (elementAt "l")))) ∧
      NamesMatter readsPattern (readsTask "k") (readsTask "l") :=
  ⟨namesMatter_free, namesMatter_twice, namesMatter_shadowed, namesMatter_param⟩

end TensorCompiler
