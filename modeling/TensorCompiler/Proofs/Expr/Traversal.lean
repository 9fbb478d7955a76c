import Mathlib.Data.List.Basic
import TensorCompiler.Expr.Traversal

/-! # Recursion over expressions

The walks over expressions said by way of `children`: a tree is induced over from its direct sub-expressions up,
its preorder is the node and the preorders of those, and a bottom-up rebuild is the replacement of the node whose
sub-expressions are rebuilt. `freeVars` lists the variables that occur outside the scope of a variable of their
name.
-/

namespace TensorCompiler.Expr

/-! ## Induction -/

theorem sizeOf_children {c e : Expr} (h : c ∈ e.children) : sizeOf c < sizeOf e := by
  have hlist {es : List Expr} (hmem : c ∈ es) : sizeOf c < sizeOf es := List.sizeOf_lt_of_mem hmem
  cases e <;> simp only [children, List.mem_cons, List.not_mem_nil, or_false, List.mem_append] at h
  case unary | cast =>
    subst h
    simp only [unary.sizeOf_spec, cast.sizeOf_spec]
    omega
  case deref | addr | ref =>
    subst h
    simp
  case binary | letIn =>
    rcases h with rfl | rfl <;> simp <;> omega
  case ite => rcases h with rfl | rfl | rfl <;> simp <;> omega
  case element =>
    rcases h with rfl | h
    · simp
      omega
    · have := hlist h
      simp
      omega
  case call =>
    have := hlist h
    simp
    omega
  case tensorInput name dtype shape =>
    cases shape with
    | none => cases h
    | some shape =>
      have : sizeOf c < sizeOf shape := hlist h
      simp
      omega
  case compute | reduce =>
    rcases h with h | rfl
    · have := hlist h
      simp only [compute.sizeOf_spec, reduce.sizeOf_spec]
      omega
    · simp only [compute.sizeOf_spec, reduce.sizeOf_spec]
      omega

/-- A property that passes from the direct sub-expressions to a node holds of every expression. -/
theorem induct {P : Expr → Prop} (node : ∀ e, (∀ c ∈ e.children, P c) → P e) (e : Expr) : P e :=
  node e fun c hc =>
    have := sizeOf_children hc
    induct node c
termination_by sizeOf e

/-! ## Preorder -/

theorem preorderAll_eq (es : List Expr) : preorderAll es = es.flatMap preorder := by
  induction es with
  | nil => rfl
  | cons e es ih => rw [preorderAll, ih, List.flatMap_cons]

theorem preorder_eq (e : Expr) : e.preorder = e :: e.children.flatMap preorder := by
  cases e
  case tensorInput name dtype shape => cases shape <;> simp [preorder, children, preorderAll_eq]
  all_goals simp [preorder, children, preorderAll_eq]

theorem mem_preorder_self (e : Expr) : e ∈ e.preorder := by
  rw [preorder_eq]
  exact List.mem_cons_self

theorem mem_preorder_of_child {c e s : Expr} (hc : c ∈ e.children) (hs : s ∈ c.preorder) : s ∈ e.preorder := by
  rw [preorder_eq]
  exact List.mem_cons_of_mem _ (List.mem_flatMap.mpr ⟨c, hc, hs⟩)

/-- A node of a tree other than its root is a node of a direct sub-expression. -/
theorem exists_child_of_mem_preorder {e s : Expr} (hs : s ∈ e.preorder) (hne : s ≠ e) :
    ∃ c ∈ e.children, s ∈ c.preorder := by
  rw [preorder_eq] at hs
  exact List.mem_flatMap.mp ((List.mem_cons.mp hs).resolve_left hne)

theorem mem_preorder_trans {e s t : Expr} (hs : s ∈ e.preorder) (ht : t ∈ s.preorder) : t ∈ e.preorder := by
  induction e using Expr.induct with
  | node e ih =>
    rw [preorder_eq] at hs
    rcases List.mem_cons.mp hs with rfl | hs
    · exact ht
    · obtain ⟨c, hc, hs⟩ := List.mem_flatMap.mp hs
      exact mem_preorder_of_child hc (ih c hc hs)

/-- A property that passes from all proper sub-expressions to a node holds of every expression. -/
theorem induct_proper {P : Expr → Prop} (node : ∀ e, (∀ s ∈ e.children.flatMap preorder, P s) → P e) (e : Expr) :
    P e := by
  have hall : ∀ s ∈ e.preorder, P s := by
    induction e using Expr.induct with
    | node e ih =>
      have hproper : ∀ s ∈ e.children.flatMap preorder, P s := by
        intro s hs
        obtain ⟨c, hc, hsc⟩ := List.mem_flatMap.mp hs
        exact ih c hc s hsc
      intro s hs
      rw [preorder_eq] at hs
      rcases List.mem_cons.mp hs with rfl | hs
      · exact node s hproper
      · exact hproper s hs
  exact hall e (mem_preorder_self e)

/-! ## Rebuilds -/

theorem mapChildren_id (e : Expr) : e.mapChildren id = e := by
  cases e
  case tensorInput name dtype shape => cases shape <;> simp [mapChildren]
  all_goals simp [mapChildren]

theorem mapChildren_eq_self {e : Expr} {f : Expr → Expr} (h : ∀ c ∈ e.children, f c = c) : e.mapChildren f = e := by
  have hmap {es : List Expr} (hes : ∀ c ∈ es, f c = c) : es.map f = es :=
    (List.map_congr_left hes).trans (List.map_id es)
  cases e
  case tensorInput name dtype shape =>
    cases shape with
    | none => rfl
    | some shape => exact congrArg (fun es => tensorInput name dtype (some es)) (hmap h)
  all_goals simp_all [mapChildren, children]

/-- The node with other expressions as its direct sub-expressions. -/
def withChildren : Expr → List Expr → Expr
  | unary op _, [arg] => unary op arg
  | cast target _, [arg] => cast target arg
  | deref _, [arg] => deref arg
  | addr _, [arg] => addr arg
  | ref _, [arg] => ref arg
  | binary op _ _, [lhs, rhs] => binary op lhs rhs
  | letIn v _ _, [value, body] => letIn v value body
  | ite _ _ _, [cond, thenE, elseE] => ite cond thenE elseE
  | element _ _, base :: indices => element base indices
  | call func _, args => call func args
  | tensorInput name dtype (some _), shape => tensorInput name dtype (some shape)
  | compute name _ axes value, parts => compute name parts.dropLast axes (parts.getLastD value)
  | reduce kind _ axes value, parts => reduce kind parts.dropLast axes (parts.getLastD value)
  | e, _ => e

/-- What a node is given as its parts it has as its parts. -/
theorem children_withChildren {e : Expr} {parts : List Expr} (hlength : parts.length = e.children.length) :
    (e.withChildren parts).children = parts := by
  have hlast {shape : List Expr} {value : Expr} (h : parts.length = (shape ++ [value]).length) :
      parts.dropLast ++ [parts.getLastD value] = parts := by
    rcases List.eq_nil_or_concat' parts with rfl | ⟨shape', value', rfl⟩
    · simp at h
    · simp
  cases e with
  | call func args => rfl
  | tensorInput name dtype shape =>
    cases shape with
    | none => exact (List.length_eq_zero_iff.mp hlength).symm
    | some shape => rfl
  | compute | reduce => exact hlast hlength
  | element base indices =>
    obtain ⟨base, indices, rfl⟩ := List.exists_cons_of_length_eq_add_one hlength
    rfl
  | var | const | scalarInput | any | anyCompute | anyReduce => exact (List.length_eq_zero_iff.mp hlength).symm
  | unary | cast | deref | addr | ref =>
    obtain ⟨arg, rfl⟩ := List.length_eq_one_iff.mp hlength
    rfl
  | binary | letIn =>
    obtain ⟨first, second, rfl⟩ := List.length_eq_two.mp hlength
    rfl
  | ite =>
    obtain ⟨cond, thenE, elseE, rfl⟩ := List.length_eq_three.mp hlength
    rfl

/-- Put back in their places, the direct sub-expressions of a node make it up again. -/
theorem withChildren_restore {e : Expr} {parts : List Expr} (hlength : parts.length = e.children.length) :
    (e.withChildren parts).withChildren e.children = e := by
  cases e with
  | unary | cast | deref | addr | ref =>
    obtain ⟨arg, rfl⟩ := List.length_eq_one_iff.mp hlength
    rfl
  | binary | letIn =>
    obtain ⟨first, second, rfl⟩ := List.length_eq_two.mp hlength
    rfl
  | ite =>
    obtain ⟨cond, thenE, elseE, rfl⟩ := List.length_eq_three.mp hlength
    rfl
  | element base indices =>
    obtain ⟨base, indices, rfl⟩ := List.exists_cons_of_length_eq_add_one hlength
    rfl
  | tensorInput name dtype shape => cases shape <;> rfl
  | compute | reduce => simp [children, withChildren]
  | _ => rfl

section

variable (f : Expr → Expr)

theorem mapChildren_eq (e : Expr) : e.mapChildren f = e.withChildren (e.children.map f) := by
  cases e
  case tensorInput name dtype shape => cases shape <;> rfl
  case compute | reduce => simp [mapChildren, children, withChildren]
  all_goals rfl

/-- A node with its own parts is the node itself. -/
theorem withChildren_children (e : Expr) : e.withChildren e.children = e := by
  rw [← List.map_id e.children, ← mapChildren_eq, mapChildren_id]

theorem children_mapChildren (e : Expr) : (e.mapChildren f).children = e.children.map f := by
  cases e
  case tensorInput name dtype shape => cases shape <;> rfl
  case compute | reduce => simp [mapChildren, children]
  all_goals rfl

theorem mapBottomUpAllM_eq (es : List Expr) :
    Id.run (mapBottomUpAllM (fun node => pure (f node)) es) = es.map (mapBottomUp f) := by
  induction es with
  | nil => rfl
  | cons e es ih =>
    rw [List.map_cons, ← ih]
    rfl

/-- A bottom-up rebuild replaces a node after its direct sub-expressions. -/
theorem mapBottomUp_eq (e : Expr) : e.mapBottomUp f = f (e.mapChildren (mapBottomUp f)) := by
  have hall := mapBottomUpAllM_eq f
  cases e
  case tensorInput name dtype shape =>
    cases shape with
    | none => rfl
    | some shape => exact congrArg (fun es => f (tensorInput name dtype (some es))) (hall shape)
  case element base indices => exact congrArg (fun es => f (element (base.mapBottomUp f) es)) (hall indices)
  case call func args => exact congrArg (fun es => f (call func es)) (hall args)
  case compute name shape axes value =>
    exact congrArg (fun es => f (compute name es axes (value.mapBottomUp f))) (hall shape)
  case reduce kind shape axes value =>
    exact congrArg (fun es => f (reduce kind es axes (value.mapBottomUp f))) (hall shape)
  all_goals rfl

end

/-! ## Resolution -/

theorem allResolved_iff {es : List Expr} : allResolved es = true ↔ ∀ e ∈ es, e.isResolved = true := by
  induction es with
  | nil => simp [allResolved]
  | cons e es ih => simp [allResolved, ih]

theorem isResolved_of_child {c e : Expr} (h : e.isResolved) (hc : c ∈ e.children) : c.isResolved := by
  cases e with
  | tensorInput name dtype shape =>
    cases shape with
    | none => cases hc
    | some shape =>
      simp only [isResolved, Bool.and_eq_true, allResolved_iff] at h
      exact h.2 c hc
  | var | const | scalarInput | any | anyCompute | anyReduce => cases hc
  | _ =>
    simp only [children, isResolved, Bool.and_eq_true, allResolved_iff, List.mem_cons, List.mem_append, List.not_mem_nil,
      or_false] at h hc
    grind

/-- Parts of a resolved node may be replaced by resolved parts. -/
theorem isResolved_mapChildren {e : Expr} {f : Expr → Expr} (h : e.isResolved)
    (hf : ∀ c ∈ e.children, (f c).isResolved) : (e.mapChildren f).isResolved := by
  cases e with
  | var | const | scalarInput | any | anyCompute | anyReduce => exact h
  | tensorInput name dtype shape =>
    cases shape with
    | none => cases h
    | some shape =>
      simp only [isResolved, Bool.and_eq_true] at h
      simp only [mapChildren, Option.map_some, isResolved, Bool.and_eq_true, allResolved_iff, List.forall_mem_map]
      exact ⟨h.1, hf⟩
  | _ =>
    simp only [children, isResolved, Bool.and_eq_true, List.mem_cons, List.mem_append, List.not_mem_nil, or_false]
      at h hf
    simp only [mapChildren, isResolved, Bool.and_eq_true, allResolved_iff, List.forall_mem_map]
    grind

/-! ## Tensors that are read -/

/-- Whether a tree reads the tensor of a name. -/
def ReadsName (e : Expr) (name : String) : Prop :=
  ∃ dtype shape, tensorInput name dtype shape ∈ e.preorder

variable {e : Expr} {name : String}

theorem readsName_tensorInput (name : String) (dtype : ScalarType) (shape : Option (List Expr)) :
    (tensorInput name dtype shape).ReadsName name :=
  ⟨dtype, shape, mem_preorder_self _⟩

theorem readsName_iff :
    e.ReadsName name ↔ (∃ dtype shape, e = tensorInput name dtype shape) ∨ ∃ c ∈ e.children, c.ReadsName name := by
  constructor
  · rintro ⟨dtype, shape, h⟩
    by_cases heq : e = tensorInput name dtype shape
    · exact Or.inl ⟨dtype, shape, heq⟩
    · obtain ⟨c, hc, hmem⟩ := exists_child_of_mem_preorder h (Ne.symm heq)
      exact Or.inr ⟨c, hc, dtype, shape, hmem⟩
  · rintro (⟨dtype, shape, rfl⟩ | ⟨c, hc, dtype, shape, hmem⟩)
    · exact readsName_tensorInput name dtype shape
    · exact ⟨dtype, shape, mem_preorder_of_child hc hmem⟩

/-- A node other than a tensor reads what its direct sub-expressions read. -/
theorem ReadsName.exists_child (h : e.ReadsName name) (he : ∀ n d s, e ≠ tensorInput n d s) :
    ∃ c ∈ e.children, c.ReadsName name :=
  (readsName_iff.mp h).resolve_left fun ⟨_, _, heq⟩ => he _ _ _ heq

theorem ReadsName.of_child {c : Expr} (hc : c ∈ e.children) (h : c.ReadsName name) : e.ReadsName name :=
  readsName_iff.mpr (Or.inr ⟨c, hc, h⟩)

/-- A rebuild that keeps what each node reads keeps what the tree reads. -/
theorem ReadsName.mapBottomUp {f : Expr → Expr} (hf : ∀ node : Expr, node.ReadsName name → (f node).ReadsName name)
    (h : e.ReadsName name) : (e.mapBottomUp f).ReadsName name := by
  induction e using Expr.induct with
  | node e ih =>
    rw [mapBottomUp_eq]
    apply hf
    rcases readsName_iff.mp h with ⟨dtype, shape, rfl⟩ | ⟨c, hc, hread⟩
    · exact readsName_tensorInput _ _ _
    · refine .of_child (c := c.mapBottomUp f) ?_ (ih c hc hread)
      rw [children_mapChildren]
      exact List.mem_map_of_mem hc

/-- Putting expressions in the place of variables leaves what is read. -/
theorem ReadsName.substitute (h : e.ReadsName name) (map : List (String × Expr)) : (e.substitute map).ReadsName name := by
  refine h.mapBottomUp fun node hnode => ?_
  cases node with
  | var v =>
    obtain ⟨dtype, shape, hmem⟩ := hnode
    cases List.mem_singleton.mp hmem
  | _ => exact hnode

/-! ## Free variables -/

mutual

/-- The free occurrences of variables, each with its type. -/
def freeVars : Expr → List Var
  | var v => [v]
  | unary _ arg | cast _ arg | deref arg | addr arg | ref arg => freeVars arg
  | binary _ lhs rhs => freeVars lhs ++ freeVars rhs
  | letIn v value body => freeVars value ++ (freeVars body).filter (·.name != v.name)
  | ite cond thenE elseE => freeVars cond ++ (freeVars thenE ++ freeVars elseE)
  | element base indices => freeVars base ++ freeVarsAll indices
  | call _ args => freeVarsAll args
  | tensorInput _ _ (some shape) => freeVarsAll shape
  | compute _ shape axes value | reduce _ shape axes value =>
    freeVarsAll shape ++ (freeVars value).filter fun w => !(axes.map Var.name).contains w.name
  | const .. | scalarInput .. | tensorInput _ _ none | any _ | anyCompute .. | anyReduce _ => []

/-- The free occurrences of variables in several expressions. -/
def freeVarsAll : List Expr → List Var
  | [] => []
  | e :: es => freeVars e ++ freeVarsAll es

end

theorem freeVarsAll_eq (es : List Expr) : freeVarsAll es = es.flatMap freeVars := by
  induction es with
  | nil => rfl
  | cons e es ih => rw [freeVarsAll, ih, List.flatMap_cons]

end TensorCompiler.Expr

namespace TensorCompiler

theorem mem_firstOccurrences {α : Type} [BEq α] [LawfulBEq α] {items : List α} {x : α} :
    x ∈ firstOccurrences items ↔ x ∈ items := by
  have hseen : ∀ seen : List α,
      x ∈ items.foldl (fun seen item => if seen.contains item then seen else seen ++ [item]) seen ↔
        x ∈ seen ∨ x ∈ items := by
    induction items with
    | nil => simp
    | cons item items ih =>
      intro seen
      rw [List.foldl_cons, ih, List.mem_cons, ← or_assoc]
      refine or_congr_left ?_
      by_cases hmem : seen.contains item
      · rw [if_pos hmem]
        refine ⟨Or.inl, fun h => h.elim id ?_⟩
        rintro rfl
        exact List.contains_iff_mem.mp hmem
      · rw [if_neg hmem, List.mem_append, List.mem_singleton]
  rw [firstOccurrences, hseen]
  simp

theorem TensorCompute.mem_inputNames {c : TensorCompute} {name : String} :
    name ∈ c.inputNames ↔ c.value.ReadsName name := by
  rw [inputNames, mem_firstOccurrences, List.mem_filterMap]
  constructor
  · rintro ⟨node, hnode, hname⟩
    split at hname
    · cases hname
      exact ⟨_, _, hnode⟩
    · cases hname
  · rintro ⟨dtype, shape, hmem⟩
    exact ⟨_, hmem, rfl⟩

end TensorCompiler
