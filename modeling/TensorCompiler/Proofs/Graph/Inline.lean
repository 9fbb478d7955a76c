import TensorCompiler.Graph.Fusion
import TensorCompiler.Proofs.Graph.Substitution

/-! # Inlining a definition

Where a definition reads an element of another one, the other's value at the coordinates of the element may stand
instead. Over floats, storing a value in a tensor and reading it back does not change it, so the definition computes
what it computed before.
-/

namespace TensorCompiler

/-! ## Bindings side by side -/

theorem Env.bind_eq (env : Env) (axes : List Var) (values : List Value) :
    env.bind axes values = ((axes.map Var.name).zip values).reverse ++ env := by
  induction axes generalizing env values with
  | nil => cases values <;> rfl
  | cons v axes ih =>
    cases values with
    | nil => rfl
    | cons x values =>
      rw [bind, ih]
      simp

/-- Bound axes of different names hold the values at their places. -/
theorem Env.forall₂_lookup_bind {axes : List Var} {values : List Value} (hnodup : (axes.map Var.name).Nodup)
    (hlength : axes.length = values.length) (env : Env) :
    List.Forall₂ (fun v value => (env.bind axes values).lookup v.name = some value) axes values := by
  induction axes generalizing env values with
  | nil =>
    obtain rfl := List.length_eq_zero_iff.mp hlength.symm
    exact .nil
  | cons v axes ih =>
    obtain ⟨value, values, rfl⟩ := List.exists_cons_of_length_eq_add_one hlength.symm
    obtain ⟨hnot, hrest⟩ := List.nodup_cons.mp hnodup
    refine .cons ?_ (ih hrest (Nat.succ.inj hlength) _)
    rw [bind, lookup_bind_of_not_mem hnot, List.lookup_cons_self]

/-- Lists of bindings with the same names in the same order have bindings for a name at the same place. -/
theorem lookup_of_forall₂ {α β : Type} {R : α → β → Prop} {ps : List (String × α)} {qs : List (String × β)}
    (h : List.Forall₂ (fun p q => q.1 = p.1 ∧ R p.2 q.2) ps qs) {x : String} (hx : x ∈ ps.map Prod.fst) :
    ∃ a b, ps.lookup x = some a ∧ qs.lookup x = some b ∧ R a b := by
  induction h with
  | nil => cases hx
  | @cons p q ps qs hpq _ ih =>
    rw [List.lookup_cons, List.lookup_cons, hpq.1]
    cases hname : x == p.1 with
    | true => exact ⟨p.2, q.2, rfl, rfl, hpq.2⟩
    | false =>
      refine ih ((List.mem_cons.mp hx).resolve_left ?_)
      rintro rfl
      simp at hname

theorem forall₂_zip {α β γ : Type} {R : β → γ → Prop} {bs : List β} {cs : List γ} (h : List.Forall₂ R bs cs)
    (names : List α) :
    List.Forall₂ (fun p q => q.1 = p.1 ∧ R p.2 q.2) (names.zip bs) (names.zip cs) := by
  induction h generalizing names with
  | nil => cases names <;> exact List.Forall₂.nil
  | cons hbc _ ih =>
    cases names with
    | nil => exact List.Forall₂.nil
    | cons name names => exact List.Forall₂.cons ⟨rfl, hbc⟩ (ih names)

namespace Expr

/-- The coordinates of an element in the place of the axes of a definition. -/
def axisMap (axes : List Var) (indices : List Expr) : List (String × Expr) :=
  ((axes.map Var.name).zip indices).reverse

variable {axes : List Var} {indices : List Expr}

theorem mem_keys_axisMap (hlength : indices.length = axes.length) {x : String} :
    x ∈ (axisMap axes indices).map Prod.fst ↔ x ∈ axes.map Var.name := by
  have hle : (axes.map Var.name).length ≤ indices.length := Nat.le_of_eq ((List.length_map _).trans hlength.symm)
  rw [axisMap, List.map_reverse, List.mem_reverse, List.map_fst_zip hle]

theorem lookup_axisMap_eq_none {x : String} (hx : x ∉ axes.map Var.name) : (axisMap axes indices).lookup x = none := by
  rw [List.lookup_eq_none_iff]
  rintro ⟨name, i⟩ hmem
  have hname := (List.of_mem_zip (List.mem_reverse.mp hmem)).1
  have hne : x ≠ name := by
    rintro rfl
    exact hx hname
  exact bne_iff_ne.mpr hne

theorem mapsToCoordinates_axisMap {scope : List String} (hlength : indices.length = axes.length)
    (hindices : ∀ i ∈ indices, IsCoordinate scope .int32 i) :
    MapsToCoordinates (axisMap axes indices) (axes.map Var.name) scope := by
  intro v _ hv
  have hkey := (mem_keys_axisMap hlength).mpr hv
  cases hlookup : (axisMap axes indices).lookup v.name with
  | none =>
    obtain ⟨⟨name, i⟩, hmem, hname⟩ := List.mem_map.mp hkey
    have hne := List.lookup_eq_none_iff.mp hlookup _ hmem
    exact absurd hname.symm (by simpa using hne)
  | some i =>
    obtain ⟨before, after, heq, -⟩ := List.lookup_eq_some_iff.mp hlookup
    have hmem : (v.name, i) ∈ axisMap axes indices := by simp [heq]
    exact hindices i (List.of_mem_zip (List.mem_reverse.mp hmem)).2

/-- Coordinates that are the numbers of a point stand for the axes at that point. -/
theorem replaces_axisMap [FloatOps] {tensors : Tensors} {env : Env} {values : List Value}
    (hlength : indices.length = axes.length)
    (hvalues : List.Forall₂ (fun i a => i.eval tensors env = .ok a) indices values) :
    Replaces (axisMap axes indices) tensors env (Env.bind [] axes values) (axes.map Var.name) := by
  intro v _ hv
  have hkey := (mem_keys_axisMap hlength).mpr hv
  have hzip := List.rel_reverse (forall₂_zip hvalues (axes.map Var.name))
  obtain ⟨i, a, hi, ha, hia⟩ := lookup_of_forall₂ (R := fun (i : Expr) a => i.eval tensors env = .ok a) hzip hkey
  refine ⟨a, ?_, ?_⟩
  · rw [Env.bind_eq, List.append_nil]
    exact ha
  · rw [axisMap, hi]
    exact hia

/-! ## Form -/

/-- A node with the read of an element of `source` replaced by the definition of that element. -/
def inlineNode (source : TensorCompute) : Expr → Expr
  | .element (.tensorInput name dtype shape) indices =>
    if name = source.name then source.value.substitute (axisMap source.axes indices)
    else .element (.tensorInput name dtype shape) indices
  | other => other

variable {source : TensorCompute}

theorem value_inline (c : TensorCompute) : (c.inline source).value = c.value.mapBottomUp (inlineNode source) := rfl

theorem IsCoordinate.inline {scope : List String} {d : DType} {e : Expr} (h : IsCoordinate scope d e) :
    e.mapBottomUp (inlineNode source) = e := by
  induction h with
  | var | const => rfl
  | binary op _ _ ihl ihr =>
    rw [mapBottomUp_eq, Expr.mapChildren, ihl, ihr]
    rfl

theorem inline_elementAt {scope : List String} (name : String) (d : DType) (shape : List Int64)
    (h : ∀ i ∈ indices, IsCoordinate scope .int32 i) :
    ((TensorInput.ofShape name d shape).elementAt indices).mapBottomUp (inlineNode source) =
      if name = source.name then source.value.substitute (axisMap source.axes indices)
      else (TensorInput.ofShape name d shape).elementAt indices := by
  have hshape : (ofShape shape).map (mapBottomUp (inlineNode source)) = ofShape shape :=
    mapBottomUp_ofShape (fun _ _ => rfl) shape
  have hbase : (tensorInput name (.known d) (some (ofShape shape))).mapBottomUp (inlineNode source) =
      tensorInput name (.known d) (some ((ofShape shape).map (mapBottomUp (inlineNode source)))) := mapBottomUp_eq _ _
  have hindices : indices.map (mapBottomUp (inlineNode source)) = indices := by
    rw [List.map_congr_left fun i hi => (h i hi).inline, List.map_id']
  have helement : (element (tensorInput name (.known d) (some (ofShape shape))) indices).mapBottomUp (inlineNode source) =
      inlineNode source (element ((tensorInput name (.known d) (some (ofShape shape))).mapBottomUp (inlineNode source))
        (indices.map (mapBottomUp (inlineNode source)))) := mapBottomUp_eq _ _
  rw [hbase, hshape, hindices] at helement
  exact helement

theorem inline_call (func : String) (args : List Expr) :
    (call func args).mapBottomUp (inlineNode source) = call func (args.map (mapBottomUp (inlineNode source))) :=
  mapBottomUp_eq _ _

theorem inline_reduce (kind : ReduceKind) (extents : List Int64) (axes : List Var) (value : Expr) :
    (reduce kind (ofShape extents) axes value).mapBottomUp (inlineNode source) =
      reduce kind (ofShape extents) axes (value.mapBottomUp (inlineNode source)) := by
  have hshape : (ofShape extents).map (mapBottomUp (inlineNode source)) = ofShape extents :=
    mapBottomUp_ofShape (fun _ _ => rfl) extents
  have hreduce : (reduce kind (ofShape extents) axes value).mapBottomUp (inlineNode source) =
      reduce kind ((ofShape extents).map (mapBottomUp (inlineNode source))) axes
        (value.mapBottomUp (inlineNode source)) := mapBottomUp_eq _ _
  rwa [hshape] at hreduce

variable {k : ElementKind} {reads reads' merged : DType → String → List Int64 → Prop} {d : DType} {l p q : Level}
  {scope : List String} {e : Expr}

theorem lookup_axisMap_of_isReductionAxis (haxes : ∀ v ∈ source.axes, IsResultAxis v.name) {name : String}
    (hname : IsReductionAxis name) : (axisMap source.axes indices).lookup name = none := by
  refine lookup_axisMap_eq_none fun hmem => ?_
  obtain ⟨v, hv, rfl⟩ := List.mem_map.mp hmem
  exact (haxes v hv).not_isReductionAxis hname

/-- An elementwise definition may be inlined anywhere and leaves the form of the value; an anchor may be inlined into
an elementwise value, which becomes the value of an anchor. -/
theorem IsElement.inline (h : IsElement k reads d l scope e)
    (hsource : ∀ d shape, reads d source.name shape → shape.length = source.axes.length ∧
      IsElement k reads' d p (source.axes.map Var.name) source.value)
    (haxes : ∀ v ∈ source.axes, IsResultAxis v.name)
    (hkept : ∀ d name shape, reads d name shape → name ≠ source.name → merged d name shape)
    (hnew : ∀ d name shape, reads' d name shape → merged d name shape)
    (hlevel : (q = l ∧ p = .elementwise) ∨ (l = .elementwise ∧ q = p)) :
    IsElement k merged d q scope (e.mapBottomUp (inlineNode source)) := by
  induction h generalizing q with
  | @read d l _ name shape indices hreads hlength hindices =>
    rw [inline_elementAt name d shape hindices]
    split_ifs with hname
    · obtain ⟨hrank, hvalue⟩ := hsource d shape (hname ▸ hreads)
      have hlength' := hlength.trans hrank
      have hvalue : IsElement k merged d p _ (source.value.substitute (axisMap source.axes indices)) :=
        (hvalue.mono hnew).substitute (fun _ => lookup_axisMap_of_isReductionAxis haxes)
          (mapsToCoordinates_axisMap hlength' hindices)
      rcases hlevel with ⟨rfl, rfl⟩ | ⟨-, rfl⟩
      · exact hvalue.of_elementwise _
      · exact hvalue
    · exact .read (hkept d name shape hreads hname) hlength hindices
  | const hv => exact .const hv
  | neg _ ih => exact .neg (ih hlevel)
  | binary hc hl _ _ ihl ihr => exact .binary hc hl (ihl hlevel) (ihr hlevel)
  | call hfunc _ ih =>
    rw [inline_call]
    exact .call hfunc (ih hlevel)
  | callPair hfunc hd' _ _ ihl ihr =>
    rw [inline_call]
    exact .callPair hfunc hd' (ihl hlevel) (ihr hlevel)
  | @ite d scope cond thenE elseE hcond _ _ iht ihe =>
    obtain ⟨rfl, rfl⟩ : q = .body ∧ p = .elementwise := hlevel.resolve_right (by simp)
    have hchoice : (Expr.ite cond thenE elseE).mapBottomUp (inlineNode source) =
        .ite (cond.mapBottomUp (inlineNode source)) (thenE.mapBottomUp (inlineNode source))
          (elseE.mapBottomUp (inlineNode source)) := mapBottomUp_eq _ _
    rw [hchoice, hcond.inline]
    exact .ite hcond (iht (Or.inl ⟨rfl, rfl⟩)) (ihe (Or.inl ⟨rfl, rfl⟩))
  | reduce kind hextents hreduction htypes hlength _ ih =>
    obtain ⟨rfl, rfl⟩ : q = .anchor ∧ p = .elementwise := hlevel.resolve_right (by simp)
    rw [inline_reduce]
    exact .reduce kind hextents hreduction htypes hlength (ih (Or.inl ⟨rfl, rfl⟩))

/-! ### Reads -/

theorem inlineNode_eq (hleaf : ∀ n d s, e ≠ tensorInput n d s) (helement : ∀ b i, e ≠ element b i) :
    inlineNode source e = e := by
  cases e with
  | element base indices => exact absurd rfl (helement base indices)
  | _ => rfl

/-- A tensor other than the inlined one is read as before. -/
theorem IsElement.readsName_inline (h : IsElement k reads d l scope e) {name : String} (hread : e.ReadsName name)
    (hne : name ≠ source.name) : (e.mapBottomUp (inlineNode source)).ReadsName name := by
  refine h.readsName_mapBottomUp (fun _ => inlineNode_eq) (fun d shape indices scope _ _ hindices => ?_) hread
  rw [inline_elementAt name d shape hindices, if_neg hne]
  exact readsName_elementAt name d shape indices

/-- Where the inlined tensor was read, its definition reads what it reads. -/
theorem IsElement.readsName_inline_source (h : IsElement k reads d l scope e) {name : String}
    (hread : e.ReadsName source.name) (hsource : source.value.ReadsName name) :
    (e.mapBottomUp (inlineNode source)).ReadsName name := by
  refine h.readsName_mapBottomUp (fun _ => inlineNode_eq) (fun d shape indices scope _ _ hindices => ?_) hread
  rw [inline_elementAt source.name d shape hindices, if_pos rfl]
  exact hsource.substitute _

/-! ## Values -/

variable [FloatOps] {tensors : Tensors} {env : Env} {v : Value} {a : NDArray}

/-- What was stored of a float and read back is the value at the point that was read. -/
theorem eval_source (hd : d.isFloat)
    (hsource : IsElement .real reads' d p (source.axes.map Var.name) source.value)
    (haxes : ∀ v ∈ source.axes, IsResultAxis v.name) (hlength : indices.length = source.axes.length)
    (hindices : ∀ i ∈ indices, IsCoordinate scope .int32 i) (hscope : p = .anchor → ∀ x ∈ scope, ¬ IsReductionAxis x)
    (heval : source.evaluate tensors = .ok a) {ns : List Nat} {x : Float}
    (hns : List.Forall₂ (fun e n => e.eval tensors env = .ok (.int (Int64.ofNat n)) ∧ n < 2 ^ 63) indices ns)
    (hx : a.get? ns = some x) :
    (source.value.substitute (axisMap source.axes indices)).eval tensors env = .ok ((Value.float x).cast d) := by
  obtain ⟨shape, -, hshape, -⟩ := TensorCompute.evaluate_eq_ok_iff.mp heval
  obtain ⟨-, w, hw, rfl⟩ := TensorCompute.exists_value_of_get? heval hshape hx
  have htype : w.HasType d := hsource.hasType_eval hd hw
  obtain ⟨y, rfl⟩ := htype.exists_float hd
  have hcast : (Value.float (Value.float y).toFloat).cast d = .float y := htype.cast_eq
  rw [hcast]
  have hvalues : List.Forall₂ (fun i b => i.eval tensors env = .ok b) indices
      ((ns.map Int64.ofNat).map Value.int) := by
    rw [List.map_map, List.forall₂_map_right_iff]
    exact hns.imp fun _ _ hn => hn.1
  exact hsource.eval_substitute (fun _ => lookup_axisMap_of_isReductionAxis haxes)
    (mapsToCoordinates_axisMap hlength hindices) hscope (replaces_axisMap hlength hvalues) hw

/-- A value evaluates to what it evaluated to before a definition was inlined. -/
theorem IsElement.eval_inline (hd : d.isFloat) (h : IsElement .real reads d l scope e)
    (hsource : ∀ d shape, reads d source.name shape → shape.length = source.axes.length ∧
      IsElement .real reads' d p (source.axes.map Var.name) source.value)
    (haxes : ∀ v ∈ source.axes, IsResultAxis v.name)
    (hlevel : p = .elementwise ∨ (l = .elementwise ∧ ∀ x ∈ scope, ¬ IsReductionAxis x))
    (hlookup : tensors.lookup source.name = some a) (hsourceEval : source.evaluate tensors = .ok a)
    (heval : e.eval tensors env = .ok v) : (e.mapBottomUp (inlineNode source)).eval tensors env = .ok v := by
  induction h generalizing env v with
  | @read d l scope name shape indices hreads hlength hindices =>
    rw [inline_elementAt name d shape hindices]
    split_ifs with hname
    · obtain ⟨b, ns, x, hb, hns, hx, rfl⟩ := eval_element_eq_ok_iff.mp heval
      subst hname
      cases hlookup.symm.trans hb
      obtain ⟨hrank, hvalue⟩ := hsource d shape hreads
      refine eval_source hd hvalue haxes (hlength.trans hrank) hindices ?_ hsourceEval hns hx
      rintro rfl
      exact (hlevel.resolve_left (by simp)).2
    · exact heval
  | const hv => exact heval
  | neg _ ih =>
    obtain ⟨b, hb, hv⟩ := eval_unary_eq_ok_iff.mp heval
    exact eval_unary_eq_ok_iff.mpr ⟨b, ih hd hlevel hb, hv⟩
  | binary hc hl _ _ ihl ihr =>
    obtain ⟨b, c, hb, hc', hv⟩ := eval_binary_eq_ok_iff.mp heval
    exact eval_binary_eq_ok_iff.mpr ⟨b, c, ihl hd hlevel hb, ihr hd hlevel hc', hv⟩
  | call _ _ ih =>
    rw [inline_call]
    obtain ⟨b, hb, hv⟩ := eval_call_one_eq_ok_iff.mp heval
    exact eval_call_one_eq_ok_iff.mpr ⟨b, ih hd hlevel hb, hv⟩
  | callPair _ hd' _ _ ihl ihr =>
    rw [inline_call]
    obtain ⟨b, c, hb, hc, hv⟩ := eval_call_pair_eq_ok_iff.mp heval
    exact eval_call_pair_eq_ok_iff.mpr ⟨b, c, ihl hd hlevel hb, ihr hd' hlevel hc, hv⟩
  | @ite d scope cond thenE elseE hcond _ _ iht ihe =>
    obtain rfl : p = .elementwise := hlevel.resolve_right (by simp)
    have hchoice : (Expr.ite cond thenE elseE).mapBottomUp (inlineNode source) =
        .ite (cond.mapBottomUp (inlineNode source)) (thenE.mapBottomUp (inlineNode source))
          (elseE.mapBottomUp (inlineNode source)) := mapBottomUp_eq _ _
    rw [hchoice, hcond.inline]
    obtain ⟨c, hc, hbranch⟩ := eval_ite_eq_ok_iff.mp heval
    refine eval_ite_eq_ok_iff.mpr ⟨c, hc, ?_⟩
    split_ifs at hbranch ⊢
    · exact iht hd (Or.inl rfl) hbranch
    · exact ihe hd (Or.inl rfl) hbranch
  | @reduce d scope kind extents axes value _ _ _ _ _ ih =>
    obtain rfl : p = .elementwise := hlevel.resolve_right (by simp)
    rw [inline_reduce]
    obtain ⟨extents', vs, acc, hshape, hvs, hacc, hv⟩ := eval_reduce_eq_ok_iff.mp heval
    refine eval_reduce_eq_ok_iff.mpr ⟨extents', vs, acc, hshape, ?_, hacc, hv⟩
    exact hvs.imp fun point w hw => ih hd (Or.inl rfl) hw

end Expr

end TensorCompiler
