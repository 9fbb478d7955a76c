import TensorCompiler.Proofs.Expr.Substitution
import TensorCompiler.Proofs.Graph.Element

/-! # Coordinates in the place of axes

Substituting coordinates for the axes of a definition gives a value of the same form, and it evaluates to what the
definition evaluates to at the point that the coordinates give. Substitution does not look out for capture: no axis of
a reduction is replaced, and none occurs in the coordinates that are put under a reduction.
-/

namespace TensorCompiler.Expr

/-! ## Rebuilding -/

theorem mapBottomUp_ofShape {f : Expr → Expr} (hf : ∀ v d, f (const v d) = const v d) (shape : List Int64) :
    (ofShape shape).map (mapBottomUp f) = ofShape shape := by
  rw [ofShape, List.map_map]
  refine List.map_congr_left fun n _ => ?_
  exact (mapBottomUp_eq f _).trans (hf _ _)

variable {map : List (String × Expr)}

theorem substitute_elementAt (name : String) (d : DType) (shape : List Int64) (indices : List Expr) :
    ((TensorInput.ofShape name d shape).elementAt indices).substitute map =
      (TensorInput.ofShape name d shape).elementAt (indices.map (substitute map)) := by
  have hshape : (ofShape shape).map (substitute map) = ofShape shape := mapBottomUp_ofShape (fun _ _ => rfl) shape
  have hbase : (tensorInput name (.known d) (some (ofShape shape))).substitute map =
      tensorInput name (.known d) (some ((ofShape shape).map (substitute map))) := substitute_eq (by simp)
  have helement : (element (tensorInput name (.known d) (some (ofShape shape))) indices).substitute map =
      element ((tensorInput name (.known d) (some (ofShape shape))).substitute map) (indices.map (substitute map)) :=
    substitute_eq (by simp)
  rw [hbase, hshape] at helement
  exact helement

theorem substitute_reduce (kind : ReduceKind) (extents : List Int64) (axes : List Var) (value : Expr) :
    (reduce kind (ofShape extents) axes value).substitute map =
      reduce kind (ofShape extents) axes (value.substitute map) := by
  have hshape : (ofShape extents).map (substitute map) = ofShape extents := mapBottomUp_ofShape (fun _ _ => rfl) extents
  have hreduce : (reduce kind (ofShape extents) axes value).substitute map =
      reduce kind ((ofShape extents).map (substitute map)) axes (value.substitute map) := substitute_eq (by simp)
  rwa [hshape] at hreduce

theorem substitute_call (func : String) (args : List Expr) :
    (call func args).substitute map = call func (args.map (substitute map)) :=
  substitute_eq (by simp)

/-! ## Form -/

variable {k : ElementKind} {reads : DType → String → List Int64 → Prop} {d : DType} {l : Level}
  {scope scope' : List String} {e : Expr}

/-- Whether coordinates stand in the place of the axes of a scope. -/
def MapsToCoordinates (map : List (String × Expr)) (scope scope' : List String) : Prop :=
  ∀ v : Var, v.ty = .ofDType .int32 → v.name ∈ scope → IsCoordinate scope' .int32 ((map.lookup v.name).getD (.var v))

theorem IsCoordinate.substitute (h : IsCoordinate scope d e) (hmap : MapsToCoordinates map scope scope') :
    IsCoordinate scope' d (e.substitute map) := by
  induction h with
  | @var v hv hty => exact hmap v hty hv
  | const v d => exact .const v d
  | binary op _ _ ihl ihr => exact .binary op ihl ihr

/-- Coordinates for the axes of an outer scope do as well under a reduction. -/
theorem MapsToCoordinates.under {axes : List Var} (hmap : MapsToCoordinates map scope scope')
    (haxes : ∀ v ∈ axes, map.lookup v.name = none) :
    MapsToCoordinates map (axes.map Var.name ++ scope) (axes.map Var.name ++ scope') := by
  intro v hty hv
  by_cases hbound : v.name ∈ axes.map Var.name
  · obtain ⟨w, hw, hname⟩ := List.mem_map.mp hbound
    rw [← hname, haxes w hw, Option.getD_none]
    exact .var (List.mem_append_left _ hbound) hty
  · have hscope := (List.mem_append.mp hv).resolve_left hbound
    exact (hmap v hty hscope).mono fun x hx => List.mem_append_right _ hx

/-- A value keeps its form when coordinates are put in the place of its axes. -/
theorem IsElement.substitute (h : IsElement k reads d l scope e)
    (hkeys : ∀ name, IsReductionAxis name → map.lookup name = none)
    (hmap : MapsToCoordinates map scope scope') :
    IsElement k reads d l scope' (e.substitute map) := by
  induction h generalizing scope' with
  | @read _ _ _ name shape indices hreads hlength hindices =>
    rw [substitute_elementAt]
    refine .read hreads ((List.length_map _).trans hlength) fun i hi => ?_
    obtain ⟨j, hj, rfl⟩ := List.mem_map.mp hi
    exact (hindices j hj).substitute hmap
  | const hv => exact .const hv
  | neg _ ih => exact .neg (ih hmap)
  | binary hc hl _ _ ihl ihr => exact .binary hc hl (ihl hmap) (ihr hmap)
  | call hfunc _ ih =>
    rw [substitute_call]
    exact .call hfunc (ih hmap)
  | callPair hfunc hd' _ _ ihl ihr =>
    rw [substitute_call]
    exact .callPair hfunc hd' (ihl hmap) (ihr hmap)
  | ite hcond _ _ iht ihe => exact .ite (hcond.substitute hmap) (iht hmap) (ihe hmap)
  | @reduce _ _ kind extents axes value hextents haxes htypes hlength _ ih =>
    rw [substitute_reduce]
    exact .reduce kind hextents haxes htypes hlength (ih (hmap.under fun v hv => hkeys v.name (haxes v hv)))

/-! ## Reads -/

theorem IsCoordinate.not_readsName (h : IsCoordinate scope d e) (name : String) : ¬ e.ReadsName name := by
  induction h with
  | var | const =>
    rintro ⟨dtype, shape, hmem⟩
    cases List.mem_singleton.mp hmem
  | binary op _ _ ihl ihr =>
    intro hread
    obtain ⟨c, hc, hchild⟩ := hread.exists_child (by simp)
    rcases List.mem_pair.mp hc with rfl | rfl
    · exact ihl hchild
    · exact ihr hchild

theorem not_readsName_const (v : Value) (d : DType) (name : String) : ¬ (const v d).ReadsName name := by
  have hcoordinate : IsCoordinate [] d (const v d) := .const v d
  exact hcoordinate.not_readsName name

theorem not_readsName_of_mem_ofShape {shape : List Int64} {i : Expr} (hi : i ∈ ofShape shape) (name : String) :
    ¬ i.ReadsName name := by
  obtain ⟨n, -, rfl⟩ := List.mem_map.mp hi
  exact not_readsName_const _ _ name

theorem readsName_elementAt (name : String) (d : DType) (shape : List Int64) (indices : List Expr) :
    ((TensorInput.ofShape name d shape).elementAt indices).ReadsName name :=
  .of_child List.mem_cons_self (readsName_tensorInput _ _ _)

/-- A read of a tensor at coordinates reads no other tensor. -/
theorem eq_of_readsName_elementAt {name name' : String} {shape : List Int64} {indices : List Expr}
    (hindices : ∀ i ∈ indices, IsCoordinate scope .int32 i)
    (h : ((TensorInput.ofShape name d shape).elementAt indices).ReadsName name') : name' = name := by
  obtain ⟨c, hc, hread⟩ := h.exists_child (by simp [TensorInput.elementAt])
  rcases List.mem_cons.mp hc with rfl | hc
  · rcases readsName_iff.mp hread with ⟨_, _, heq⟩ | ⟨i, hi, hread⟩
    · cases heq
      rfl
    · exact absurd hread (not_readsName_of_mem_ofShape hi name')
  · exact absurd hread ((hindices c hc).not_readsName name')

/-- A rebuild that leaves all nodes but reads, and has `name'` read where `name` was, has it read in the whole value. -/
theorem IsElement.readsName_mapBottomUp {f : Expr → Expr} {name name' : String} (h : IsElement k reads d l scope e)
    (hf : ∀ e : Expr, (∀ n d s, e ≠ tensorInput n d s) → (∀ b i, e ≠ element b i) → f e = e)
    (hread : ∀ d shape indices scope, reads d name shape → indices.length = shape.length →
      (∀ i ∈ indices, IsCoordinate scope .int32 i) →
      (((TensorInput.ofShape name d shape).elementAt indices).mapBottomUp f).ReadsName name')
    (hreads : e.ReadsName name) : (e.mapBottomUp f).ReadsName name' := by
  -- a node that is left as it is reads what a rebuilt child of it reads
  have hnode {e c : Expr} (hc : c ∈ e.children) (hleaf : ∀ n d s, e.mapChildren (mapBottomUp f) ≠ tensorInput n d s)
      (helement : ∀ b i, e.mapChildren (mapBottomUp f) ≠ element b i) (hchild : (c.mapBottomUp f).ReadsName name') :
      (e.mapBottomUp f).ReadsName name' := by
    rw [mapBottomUp_eq, hf _ hleaf helement]
    refine .of_child ?_ hchild
    rw [children_mapChildren]
    exact List.mem_map_of_mem hc
  induction h with
  | @read d l scope other shape indices hr hlength hindices =>
    obtain rfl := eq_of_readsName_elementAt hindices hreads
    exact hread d shape indices scope hr hlength hindices
  | const => exact absurd hreads (not_readsName_const _ _ name)
  | neg _ ih | call _ _ ih =>
    obtain ⟨c, hc, hchild⟩ := hreads.exists_child (by simp)
    obtain rfl := List.mem_singleton.mp hc
    exact hnode hc (by simp [mapChildren]) (by simp [mapChildren]) (ih hchild)
  | binary _ _ _ _ ihl ihr | callPair _ _ _ _ ihl ihr =>
    obtain ⟨c, hc, hchild⟩ := hreads.exists_child (by simp)
    refine hnode hc (by simp [mapChildren]) (by simp [mapChildren]) ?_
    rcases List.mem_pair.mp hc with rfl | rfl
    · exact ihl hchild
    · exact ihr hchild
  | ite hcond _ _ iht ihe =>
    obtain ⟨c, hc, hchild⟩ := hreads.exists_child (by simp)
    refine hnode hc (by simp [mapChildren]) (by simp [mapChildren]) ?_
    rcases List.mem_cons.mp hc with rfl | hc
    · exact absurd hchild (hcond.not_readsName name)
    · rcases List.mem_pair.mp hc with rfl | rfl
      · exact iht hchild
      · exact ihe hchild
  | reduce _ _ _ _ _ _ ih =>
    obtain ⟨c, hc, hchild⟩ := hreads.exists_child (by simp)
    refine hnode hc (by simp [mapChildren]) (by simp [mapChildren]) ?_
    rcases List.mem_append.mp hc with hc | hc
    · exact absurd hchild (not_readsName_of_mem_ofShape hc name)
    · obtain rfl := List.mem_singleton.mp hc
      exact ih hchild

/-! ## Values -/

variable [FloatOps] {tensors : Tensors} {env env' : Env} {v : Value}

/-- What the axes of a scope stand for once coordinates are in their place. -/
def Replaces (map : List (String × Expr)) (tensors : Tensors) (env env' : Env) (scope : List String) : Prop :=
  ∀ v : Var, v.ty = .ofDType .int32 → v.name ∈ scope → ∃ a, env'.lookup v.name = some a ∧
    ((map.lookup v.name).getD (.var v)).eval tensors env = .ok a

theorem IsCoordinate.eval_substitute (h : IsCoordinate scope d e) (hreplaces : Replaces map tensors env env' scope)
    (heval : e.eval tensors env' = .ok v) : (e.substitute map).eval tensors env = .ok v := by
  induction h generalizing v with
  | @var w hw hty =>
    obtain ⟨a, ha, hreplaced⟩ := hreplaces w hty hw
    rw [eval_var_eq_ok_iff, ha] at heval
    cases heval
    exact hreplaced
  | const w d => exact heval
  | binary op _ _ ihl ihr =>
    obtain ⟨a, b, ha, hb, hv⟩ := eval_binary_eq_ok_iff.mp heval
    exact eval_binary_eq_ok_iff.mpr ⟨a, b, ihl ha, ihr hb, hv⟩

end TensorCompiler.Expr

namespace TensorCompiler.Env

/-- A bound variable has a value that does not depend on what is bound outside. -/
theorem exists_lookup_bind {name : String} {axes : List Var} {values : List Value} (h : name ∈ axes.map Var.name)
    (hlength : axes.length = values.length) (env env' : Env) :
    ∃ a ∈ values, (env.bind axes values).lookup name = some a ∧ (env'.bind axes values).lookup name = some a := by
  induction axes generalizing env env' values with
  | nil => cases h
  | cons v axes ih =>
    cases values with
    | nil => cases hlength
    | cons x values =>
      by_cases hrest : name ∈ axes.map Var.name
      · obtain ⟨a, ha, hboth⟩ := ih hrest (Nat.succ.inj hlength) _ _
        exact ⟨a, List.mem_cons_of_mem _ ha, hboth⟩
      · obtain rfl : name = v.name := (List.mem_cons.mp h).resolve_right hrest
        refine ⟨x, List.mem_cons_self, ?_, ?_⟩
        · rw [bind, lookup_bind_of_not_mem hrest, List.lookup_cons_self]
        · rw [bind, lookup_bind_of_not_mem hrest, List.lookup_cons_self]

end TensorCompiler.Env

namespace TensorCompiler.Expr

variable [FloatOps] {map : List (String × Expr)} {k : ElementKind} {reads : DType → String → List Int64 → Prop} {d : DType}
  {l : Level} {scope scope' : List String} {e : Expr} {tensors : Tensors} {env env' : Env} {v : Value}

/-- Coordinates that stand for the axes of an outer scope still do so under a reduction of other axes. -/
theorem Replaces.under {axes : List Var} {values : List Value} (h : Replaces map tensors env env' scope)
    (hmap : MapsToCoordinates map scope scope')
    (hkeys : ∀ v ∈ axes, map.lookup v.name = none) (hscope : ∀ x ∈ scope', x ∉ axes.map Var.name)
    (hlength : axes.length = values.length) :
    Replaces map tensors (env.bind axes values) (env'.bind axes values) (axes.map Var.name ++ scope) := by
  intro w hty hw
  by_cases hbound : w.name ∈ axes.map Var.name
  · obtain ⟨a, -, hinner, houter⟩ := Env.exists_lookup_bind hbound hlength env env'
    obtain ⟨u, hu, hname⟩ := List.mem_map.mp hbound
    refine ⟨a, houter, ?_⟩
    rw [← hname, hkeys u hu, Option.getD_none]
    exact eval_var_eq_ok_iff.mpr hinner
  · have hw' := (List.mem_append.mp hw).resolve_left hbound
    obtain ⟨a, ha, hreplaced⟩ := h w hty hw'
    refine ⟨a, by rw [Env.lookup_bind_of_not_mem hbound]; exact ha, ?_⟩
    rw [← hreplaced]
    exact (hmap w hty hw').eval_congr fun x hx => Env.lookup_bind_of_not_mem (hscope x hx) env values

/-- A value with coordinates in the place of its axes has the value that it has at the point they give. -/
theorem IsElement.eval_substitute (h : IsElement k reads d l scope e)
    (hkeys : ∀ name, IsReductionAxis name → map.lookup name = none)
    (hmap : MapsToCoordinates map scope scope')
    (hscope : l = .anchor → ∀ x ∈ scope', ¬ IsReductionAxis x) (hreplaces : Replaces map tensors env env' scope)
    (heval : e.eval tensors env' = .ok v) : (e.substitute map).eval tensors env = .ok v := by
  induction h generalizing scope' env env' v with
  | @read _ _ _ name shape indices hreads hlength hindices =>
    rw [substitute_elementAt]
    obtain ⟨a, ns, x, ha, hns, hx, rfl⟩ := eval_element_eq_ok_iff.mp heval
    refine eval_element_eq_ok_iff.mpr ⟨a, ns, x, ha, ?_, hx, rfl⟩
    rw [List.forall₂_map_left_iff]
    exact forall₂_imp_of_mem hns fun i hi n hn => ⟨(hindices i hi).eval_substitute hreplaces hn.1, hn.2⟩
  | const hv => exact heval
  | neg _ ih =>
    obtain ⟨a, ha, hv⟩ := eval_unary_eq_ok_iff.mp heval
    exact eval_unary_eq_ok_iff.mpr ⟨a, ih hmap hscope hreplaces ha, hv⟩
  | binary hc hl _ _ ihl ihr =>
    obtain ⟨a, b, ha, hb, hv⟩ := eval_binary_eq_ok_iff.mp heval
    exact eval_binary_eq_ok_iff.mpr ⟨a, b, ihl hmap hscope hreplaces ha, ihr hmap hscope hreplaces hb, hv⟩
  | call _ _ ih =>
    rw [substitute_call]
    obtain ⟨a, ha, hv⟩ := eval_call_one_eq_ok_iff.mp heval
    exact eval_call_one_eq_ok_iff.mpr ⟨a, ih hmap hscope hreplaces ha, hv⟩
  | callPair _ _ _ _ ihl ihr =>
    rw [substitute_call]
    obtain ⟨a, b, ha, hb, hv⟩ := eval_call_pair_eq_ok_iff.mp heval
    exact eval_call_pair_eq_ok_iff.mpr ⟨a, b, ihl hmap hscope hreplaces ha, ihr hmap hscope hreplaces hb, hv⟩
  | ite hcond _ _ iht ihe =>
    obtain ⟨c, hc, hbranch⟩ := eval_ite_eq_ok_iff.mp heval
    refine eval_ite_eq_ok_iff.mpr ⟨c, hcond.eval_substitute hreplaces hc, ?_⟩
    split_ifs at hbranch ⊢
    · exact iht hmap hscope hreplaces hbranch
    · exact ihe hmap hscope hreplaces hbranch
  | @reduce _ _ kind extents axes value hextents haxes _ hlength _ ih =>
    rw [substitute_reduce]
    obtain ⟨_, vs, acc, hshape, hvs, hacc, hv⟩ := eval_reduce_eq_ok_iff.mp heval
    refine eval_reduce_eq_ok_iff.mpr ⟨_, vs, acc, hshape, ?_, hacc, hv⟩
    cases (constShape?_ofShape extents).symm.trans hshape
    have haxisKeys : ∀ v ∈ axes, map.lookup v.name = none := fun v hv => hkeys v.name (haxes v hv)
    have hdisjoint : ∀ x ∈ scope', x ∉ axes.map Var.name := by
      intro x hx hmem
      obtain ⟨u, hu, rfl⟩ := List.mem_map.mp hmem
      exact hscope rfl u.name hx (haxes u hu)
    refine forall₂_imp_of_mem hvs fun point hpoint w hw => ?_
    have hvalues : axes.length = (point.map Value.int).length := by
      rw [List.length_map, length_of_mem_points hpoint]
      exact hlength
    exact ih (hmap.under haxisKeys) (by simp)
      (hreplaces.under hmap haxisKeys hdisjoint hvalues) hw

end TensorCompiler.Expr
