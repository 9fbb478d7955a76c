import TensorCompiler.Proofs.Codegen.Value
import TensorCompiler.Proofs.Program.WellTyped
import TensorCompiler.Proofs.Stmt.Builder

/-! # Lowered values are well typed

Where the axes of a definition, the tensors that it reads and its accumulators are in scope, the lowered value has the
element type of the definition, and the statements in front of it are well typed. Bindings and loops around them bring
axes into scope, which hide neither the tensors nor the accumulators: the names of axes are those of no tensor, and the
names of accumulators are not numbered at all.
-/

namespace TensorCompiler

variable {reads : DType → String → List Int64 → Prop} {scope scope' : List String} {accs accs' vars : List Var}

/-- Later accumulators have names of their own. -/
theorem FunctionBuilder.Allows.nodup {b : FunctionBuilder} (h' : (b.withLocals accs).Allows accs')
    (hnodup : (accs.map Var.name).Nodup) (hnodup' : (accs'.map Var.name).Nodup) :
    ((accs ++ accs').map Var.name).Nodup := by
  rw [List.map_append]
  exact hnodup.append hnodup' fun x hx hx' => h'.ne hx' hx

/-! ## Scopes of definitions -/

/-- Whether the variables in scope are what a definition is lowered to: its axes, the parameters that stand for its
tensors, and its accumulators. Tensors in scope have the names that graphs give them. -/
structure Scoped (reads : DType → String → List Int64 → Prop) (scope : List String) (accs vars : List Var) : Prop where
  axes : ∀ v : Var, v.name ∈ scope → v.ty = .ofDType .int32 → v.IsBound vars
  params : ∀ d name shape, reads d name shape →
    Var.IsBound vars ⟨name, (TensorInput.ofShape name d shape).globalType⟩
  accs : ∀ v ∈ accs, v.IsBound vars
  tensors : ∀ v ∈ vars, v.ty.isTensor → ∃ id : TensorId, v.name = id.name

namespace Scoped

variable {v : Var}

theorem mono (h : Scoped reads scope accs vars) (hscope : ∀ x ∈ scope', x ∈ scope) (haccs : ∀ w ∈ accs', w ∈ accs) :
    Scoped reads scope' accs' vars :=
  ⟨fun v hv => h.axes v (hscope v.name hv), h.params, fun w hw => h.accs w (haccs w hw), h.tensors⟩

/-- The variables of one part of a value are in scope where those of all its parts are. -/
theorem left (h : Scoped reads scope (accs ++ accs') vars) : Scoped reads scope accs vars :=
  h.mono (fun _ hx => hx) fun _ => List.mem_append_left _

theorem right (h : Scoped reads scope (accs ++ accs') vars) : Scoped reads scope accs' vars :=
  h.mono (fun _ hx => hx) fun _ => List.mem_append_right _

theorem hidesNoTensor (h : Scoped reads scope accs vars) (hv : ∀ id : TensorId, v.name ≠ id.name) :
    v.HidesNoTensor vars := by
  intro w hw hname
  rw [Bool.eq_false_iff]
  intro htensor
  obtain ⟨id, hid⟩ := h.tensors w hw htensor
  exact hv id (hname.symm.trans hid)

/-- Bringing an axis into scope hides nothing but an axis of the same name. -/
theorem bind (h : Scoped reads scope accs vars) (hnamed : Named reads scope) (haccs : ∀ w ∈ accs, ¬ IsNumbered w.name)
    (hv : IsAxis v.name) (hty : v.ty = .ofDType .int32) : Scoped reads (v.name :: scope) accs (v :: vars) where
  axes w hw hwty := by
    by_cases hname : v.name = w.name
    · obtain rfl : v = w := Var.ext hname (hty.trans hwty.symm)
      exact Var.isBound_cons_self v vars
    · exact (h.axes w ((List.mem_cons.mp hw).resolve_left (Ne.symm hname)) hwty).cons hname
  params d name shape hreads := by
    obtain ⟨id, rfl⟩ := hnamed.tensors d name shape hreads
    exact (h.params d _ shape hreads).cons (hv.ne_tensorName id)
  accs w hw := (h.accs w hw).cons fun hname => haccs w hw (hname ▸ hv.isNumbered)
  tensors w hw htensor := by
    rcases List.mem_cons.mp hw with rfl | hw
    · rw [hty] at htensor
      cases htensor
    · exact h.tensors w hw htensor

/-- A kernel's own variable hides neither axes nor tensors. -/
theorem bindOwn (h : Scoped reads scope accs vars) (hnamed : Named reads scope) {d : DType} (hv : ¬ IsNumbered v.name)
    (hty : v.ty = .ofDType d) (hfresh : ∀ w ∈ accs, v.name ≠ w.name) : Scoped reads scope (v :: accs) (v :: vars) where
  axes w hw hwty := by
    refine (h.axes w hw hwty).cons fun hname => hv ?_
    rw [hname]
    exact (hnamed.axes w.name hw).isNumbered
  params d name shape hreads := by
    obtain ⟨id, rfl⟩ := hnamed.tensors d name shape hreads
    refine (h.params d _ shape hreads).cons fun hname => hv ?_
    rw [hname]
    exact isNumbered_tensorName id
  accs w hw := by
    rcases List.mem_cons.mp hw with rfl | hw
    · exact Var.isBound_cons_self w vars
    · exact (h.accs w hw).cons (hfresh w hw)
  tensors w hw htensor := by
    rcases List.mem_cons.mp hw with rfl | hw
    · rw [hty] at htensor
      cases htensor
    · exact h.tensors w hw htensor

end Scoped

/-- A nest of bindings or loops over axes is well typed, if what stands inside of it is wherever the axes are in scope. -/
theorem Stmt.wellTyped_nest (wrap : Var → Expr → Stmt → Stmt) {axes : List Var} {values : List Expr} {body : Stmt}
    (hwrap : ∀ {vars : List Var} {v : Var} {value : Expr} {inner : Stmt}, v.ty = .ofDType .int32 →
      v.HidesNoTensor vars → value.IsIndex vars → inner.WellTyped (v :: vars) → (wrap v value inner).WellTyped vars)
    (hnamed : Named reads scope) (haccs : ∀ w ∈ accs, ¬ IsNumbered w.name) (hlength : axes.length = values.length)
    (haxes : ∀ v ∈ axes, IsAxis v.name) (htypes : ∀ v ∈ axes, v.ty = .ofDType .int32)
    (hvalues : ∀ e ∈ values, ∀ vars : List Var, (∀ w ∈ accs, w.IsBound vars) → e.IsIndex vars)
    (hbody : ∀ vars, Scoped reads (axes.map Var.name ++ scope) accs vars → body.WellTyped vars)
    (h : Scoped reads scope accs vars) :
    ((axes.zip values).foldr (fun entry inner => wrap entry.1 entry.2 inner) body).WellTyped vars := by
  induction axes generalizing values scope vars with
  | nil => exact hbody vars h
  | cons v axes ih =>
    obtain ⟨value, values, rfl⟩ := List.exists_cons_of_length_eq_add_one hlength.symm
    have hv := haxes v List.mem_cons_self
    have hty := htypes v List.mem_cons_self
    have hnamed' : Named reads (v.name :: scope) := hnamed.append (List.forall_mem_singleton.mpr hv)
    refine hwrap hty (h.hidesNoTensor hv.ne_tensorName) (hvalues value List.mem_cons_self vars h.accs) ?_
    refine ih hnamed' (Nat.succ.inj hlength) (fun w hw => haxes w (List.mem_cons_of_mem _ hw))
      (fun w hw => htypes w (List.mem_cons_of_mem _ hw)) (fun e he => hvalues e (List.mem_cons_of_mem _ he))
      (fun vars hvars => hbody vars (hvars.mono (fun x hx => ?_) fun _ hw => hw)) (h.bind hnamed haccs hv hty)
    simp only [List.map_cons, List.cons_append, List.mem_cons, List.mem_append] at hx ⊢
    tauto

/-! ## Reductions -/

namespace ReduceKind

variable {a b : Expr} {d : DType}

/-- What is collected and the next value combine to a value of their type. -/
theorem wellTyped_combine (kind : ReduceKind) (ha : a.WellTyped vars) (hb : b.WellTyped vars) (hda : a.HasDType d)
    (hdb : b.HasDType d) : (kind.combine a b).WellTyped vars ∧ (kind.combine a b).HasDType d := by
  have hargs : ∀ e ∈ [a, b], e.WellTyped vars := List.forall_mem_cons.mpr ⟨ha, List.forall_mem_singleton.mpr hb⟩
  cases kind with
  | sum | avg => exact ⟨.binary .add ha hb hda hdb, hda.binary .add hdb⟩
  | max | min =>
    refine ⟨.call _ hargs, ?_⟩
    rw [combine, Expr.HasDType, Expr.inferType_call_eq (by decide)]
    exact hda

end ReduceKind

namespace Reduction

variable {kind : ReduceKind} {d : DType} {acc : Var} {extents : List Int64} {axes : List Var} {value : Expr}
  {divide : List Stmt}

theorem wellTyped_of_mem_divide (hdivide : Reduction.divide kind d acc (Expr.ofShape extents) = .ok divide)
    (hacc : acc.IsBound vars) (hty : acc.ty = .ofDType d) : ∀ s ∈ divide, s.WellTyped vars := by
  have hd : (Expr.var acc).HasDType d := (Expr.inferType_var acc).trans (congrArg Except.ok hty)
  cases kind with
  | avg =>
    obtain ⟨count, -, hdivide⟩ := bind_eq_ok_iff.mp hdivide
    cases hdivide
    have hcount : (Expr.literal (.int count) d).HasDType d := Expr.hasDType_const.mpr rfl
    exact List.forall_mem_singleton.mpr
      (.assign hacc hty (.binary .div (.var hacc) (.const _ _) hd hcount) (hd.binary .div hcount))
  | sum | max | min =>
    cases hdivide
    simp

/-- The statement of a reduction is well typed, if the value inside its loops is. -/
theorem wellTyped_toStmt (hnamed : Named reads scope) (haxes : ∀ v ∈ axes, IsAxis v.name)
    (htypes : ∀ v ∈ axes, v.ty = .ofDType .int32) (hlength : axes.length = extents.length) (hty : acc.ty = .ofDType d)
    (hnumbered : ¬ IsNumbered acc.name)
    (hvalue : ∀ vars, Scoped reads (axes.map Var.name ++ scope) [] vars → value.WellTyped vars ∧ value.HasDType d)
    (hdivide : Reduction.divide kind d acc (Expr.ofShape extents) = .ok divide) (h : Scoped reads scope [acc] vars) :
    (toStmt kind d acc (Expr.ofShape extents) axes ⟨[], value⟩ divide).WellTyped vars := by
  have hd : (Expr.var acc).HasDType d := (Expr.inferType_var acc).trans (congrArg Except.ok hty)
  have hacc : acc.IsBound vars := h.accs acc (List.mem_singleton_self acc)
  have hlength' : axes.length = (Expr.ofShape extents).length := hlength.trans (List.length_map _).symm
  rw [toStmt_eq]
  refine .block (List.forall_mem_cons.mpr ⟨?_, List.forall_mem_cons.mpr ⟨?_, ?_⟩⟩)
  · exact .assign hacc hty (.const _ _) (Expr.hasDType_const.mpr rfl)
  · refine Stmt.wellTyped_nest (fun v extent inner => .forRange v extent none inner)
      (fun hv hhides hextent hinner => .forRange none hv hhides hextent.wellTyped hextent.hasDType hinner)
      hnamed (List.forall_mem_singleton.mpr hnumbered) hlength' haxes htypes ?_ (fun vars hvars => ?_) h
    · exact List.forall_mem_map.mpr fun n _ vars _ => Expr.isIndex_int n
    · have hbound : acc.IsBound vars := hvars.accs acc (List.mem_singleton_self acc)
      obtain ⟨hwell, hdtype⟩ := hvalue vars (hvars.mono (fun _ hx => hx) (by simp))
      obtain ⟨hcombined, hcombinedType⟩ := kind.wellTyped_combine (.var hbound) hwell hd hdtype
      exact .assign hbound hty hcombined hcombinedType
  · exact wellTyped_of_mem_divide hdivide hacc hty

end Reduction

/-! ## Values -/

namespace Expr

variable {d d' : DType} {e : Expr} {lhs rhs arg : Lowered Expr}

/-- Coordinates are well typed where their axes are in scope. -/
theorem IsCoordinate.wellTyped (h : IsCoordinate scope d e)
    (hscope : ∀ v : Var, v.name ∈ scope → v.ty = .ofDType .int32 → v.IsBound vars) : e.WellTyped vars := by
  induction h with
  | var hv hty => exact .var (hscope _ hv hty)
  | const v d => exact .const v d
  | binary op hl hr ihl ihr => exact .binary op ihl ihr hl.hasDType hr.hasDType

/-- Whether a lowered value has an element type, and it and the statements in front of it are well typed, with the given
variables in scope. -/
structure IsTyped (vars : List Var) (d : DType) (lowered : Lowered Expr) : Prop where
  prelude : ∀ s ∈ lowered.prelude, s.WellTyped vars
  wellTyped : lowered.value.WellTyped vars
  hasDType : lowered.value.HasDType d

theorem isTyped_const (v : Value) (d : DType) : IsTyped vars d ⟨[], .const v d⟩ :=
  ⟨by simp, .const v d, hasDType_const.mpr rfl⟩

theorem IsTyped.neg (h : IsTyped vars d arg) : IsTyped vars d ⟨arg.prelude, .unary .neg arg.value⟩ :=
  ⟨h.prelude, .unary .neg h.wellTyped h.hasDType, h.hasDType.unary .neg⟩

theorem IsTyped.binary {op : BinaryOp} (hop : op.typeOn d = d) (hl : IsTyped vars d lhs) (hr : IsTyped vars d rhs) :
    IsTyped vars d ⟨lhs.prelude ++ rhs.prelude, .binary op lhs.value rhs.value⟩ where
  prelude := List.forall_mem_append.mpr ⟨hl.prelude, hr.prelude⟩
  wellTyped := .binary op hl.wellTyped hr.wellTyped hl.hasDType hr.hasDType
  hasDType := by
    have htype := hl.hasDType.binary op hr.hasDType
    rwa [hop] at htype

theorem IsTyped.call {func : String} (hfunc : func ∈ Intrinsic.names) (h : IsTyped vars d arg) :
    IsTyped vars d ⟨arg.prelude ++ [], .call func [arg.value]⟩ where
  prelude := by
    rw [List.append_nil]
    exact h.prelude
  wellTyped := .call func (List.forall_mem_singleton.mpr h.wellTyped)
  hasDType := by
    rw [HasDType, inferType_call_eq hfunc]
    exact h.hasDType

theorem IsTyped.callPair {func : String} (hfunc : func ∈ Intrinsic.names) (hl : IsTyped vars d lhs)
    (hr : IsTyped vars d' rhs) :
    IsTyped vars d ⟨lhs.prelude ++ (rhs.prelude ++ []), .call func [lhs.value, rhs.value]⟩ where
  prelude := by
    rw [List.append_nil]
    exact List.forall_mem_append.mpr ⟨hl.prelude, hr.prelude⟩
  wellTyped := .call func (List.forall_mem_cons.mpr ⟨hl.wellTyped, List.forall_mem_singleton.mpr hr.wellTyped⟩)
  hasDType := by
    rw [HasDType, inferType_call_eq hfunc]
    exact hl.hasDType

/-- A read is an access at one index for each dimension of the parameter. -/
theorem isTyped_read {name : String} {shape : List Int64} {indices : List Expr} (hreads : reads d name shape)
    (hlength : indices.length = shape.length) (hindices : ∀ i ∈ indices, IsCoordinate scope .int32 i)
    (h : Scoped reads scope accs vars) :
    IsTyped vars d ⟨[], element (.var ⟨name, (TensorInput.ofShape name d shape).globalType⟩) indices⟩ where
  prelude := by simp
  wellTyped := by
    refine .element (h.params d name shape hreads) ?_ (fun i hi => (hindices i hi).wellTyped h.axes)
      fun i hi => (hindices i hi).hasDType
    rw [hlength]
    exact congrArg some (List.length_map _)
  hasDType := rfl

theorem isTyped_ite {cond thenV elseV : Expr} (hcond : IsCoordinate scope .bool cond)
    (hscope : ∀ v : Var, v.name ∈ scope → v.ty = .ofDType .int32 → v.IsBound vars) (ht : IsTyped vars d ⟨[], thenV⟩)
    (he : IsTyped vars d ⟨[], elseV⟩) : IsTyped vars d ⟨[], .ite cond thenV elseV⟩ where
  prelude := by simp
  wellTyped := .ite (hcond.wellTyped hscope) ht.wellTyped he.wellTyped hcond.hasDType ht.hasDType he.hasDType
  hasDType := ht.hasDType.ite he.hasDType

/-- The value of a definition can be lowered, and the lowered value is well typed wherever the axes, the tensors and the
accumulators are in scope. -/
theorem IsElement.exists_isTyped {k : ElementKind} {params : ParamMap} {l : Level}
    (h : IsElement k reads d l scope e) (hnamed : Named reads scope) (hparams : params.Covers reads) (b : FunctionBuilder) :
    ∃ lowered accs, e.lower params b = .ok (lowered, b.withLocals accs) ∧ b.Allows accs ∧ (accs.map Var.name).Nodup ∧
      (∀ v ∈ accs, ∃ d, v.ty = .ofDType d) ∧ (∀ vars, Scoped reads scope accs vars → IsTyped vars d lowered) ∧
        (l ≠ .anchor → lowered.prelude = [] ∧ accs = []) := by
  induction h generalizing b with
  | @read d l scope name shape indices hreads hlength hindices =>
    refine ⟨_, [], ?_, by simp [FunctionBuilder.Allows], List.nodup_nil, by simp,
      fun vars hvars => isTyped_read hreads hlength hindices hvars, by simp⟩
    rw [FunctionBuilder.withLocals_nil]
    exact lower_elementAt (hparams d name shape hreads) hindices b
  | @const d l scope v hv =>
    refine ⟨_, [], ?_, by simp [FunctionBuilder.Allows], List.nodup_nil, by simp, fun vars _ => isTyped_const v d, by simp⟩
    rw [FunctionBuilder.withLocals_nil]
    exact lower_const v d b
  | neg _ ih =>
    obtain ⟨arg, accs, harg, haccs, hnodup, hscalar, htyped, hlevel⟩ := ih hnamed b
    exact ⟨_, accs, lower_unary .neg harg, haccs, hnodup, hscalar, fun vars hvars => (htyped vars hvars).neg, hlevel⟩
  | @binary d l scope op _ _ hc hlogical _ _ ihl ihr =>
    have hop : op.typeOn d = d := by simp [BinaryOp.typeOn, hc, hlogical]
    obtain ⟨lhs, accs, hlhs, haccs, hnodup, hscalar, htyped, hlevel⟩ := ihl hnamed b
    obtain ⟨rhs, accs', hrhs, haccs', hnodup', hscalar', htyped', hlevel'⟩ := ihr hnamed (b.withLocals accs)
    rw [FunctionBuilder.withLocals_append] at hrhs
    refine ⟨_, accs ++ accs', lower_binary op hlhs hrhs, haccs.append haccs', haccs'.nodup hnodup hnodup',
      List.forall_mem_append.mpr ⟨hscalar, hscalar'⟩,
      fun vars hvars => (htyped vars hvars.left).binary hop (htyped' vars hvars.right), fun hne => ?_⟩
    obtain ⟨hprelude, rfl⟩ := hlevel hne
    obtain ⟨hprelude', rfl⟩ := hlevel' hne
    exact ⟨by rw [hprelude, hprelude', List.append_nil], rfl⟩
  | call hfunc _ ih =>
    obtain ⟨arg, accs, harg, haccs, hnodup, hscalar, htyped, hlevel⟩ := ih hnamed b
    refine ⟨_, accs, lower_call _ (lowerAll_cons harg (lowerAll_nil _)), haccs, hnodup, hscalar,
      fun vars hvars => (htyped vars hvars).call (ElementKind.mem_names_of_hasFunction hfunc), fun hne => ?_⟩
    obtain ⟨hprelude, rfl⟩ := hlevel hne
    exact ⟨by rw [hprelude, List.append_nil], rfl⟩
  | callPair hfunc _ _ _ ihl ihr =>
    obtain ⟨lhs, accs, hlhs, haccs, hnodup, hscalar, htyped, hlevel⟩ := ihl hnamed b
    obtain ⟨rhs, accs', hrhs, haccs', hnodup', hscalar', htyped', hlevel'⟩ := ihr hnamed (b.withLocals accs)
    rw [FunctionBuilder.withLocals_append] at hrhs
    refine ⟨_, accs ++ accs', lower_call _ (lowerAll_cons hlhs (lowerAll_cons hrhs (lowerAll_nil _))), haccs.append haccs',
      haccs'.nodup hnodup hnodup', List.forall_mem_append.mpr ⟨hscalar, hscalar'⟩, fun vars hvars =>
        (htyped vars hvars.left).callPair (ElementKind.mem_names_of_hasFunction hfunc) (htyped' vars hvars.right),
      fun hne => ?_⟩
    obtain ⟨hprelude, rfl⟩ := hlevel hne
    obtain ⟨hprelude', rfl⟩ := hlevel' hne
    exact ⟨by rw [hprelude, hprelude', List.append_nil, List.append_nil], rfl⟩
  | ite hcond _ _ iht ihe =>
    obtain ⟨⟨prelude, thenV⟩, accs, hthen, -, -, -, htyped, hlevel⟩ := iht hnamed b
    obtain ⟨rfl, rfl⟩ := hlevel (by decide)
    rw [FunctionBuilder.withLocals_nil] at hthen
    obtain ⟨⟨prelude, elseV⟩, accs, helse, -, -, -, htyped', hlevel'⟩ := ihe hnamed b
    obtain ⟨rfl, rfl⟩ := hlevel' (by decide)
    exact ⟨_, [], lower_ite (hcond.lower b) hthen helse, by simp [FunctionBuilder.Allows], List.nodup_nil, by simp,
      fun vars hvars => isTyped_ite hcond hvars.axes (htyped vars hvars) (htyped' vars hvars), fun _ => ⟨rfl, rfl⟩⟩
  | @reduce d scope kind extents axes value _ haxes htypes hlength hvalue ih =>
    let acc : Var := ⟨freshName b.taken "acc", .ofDType d⟩
    have hacc : CodegenM.build (FunctionBuilder.declareLocal "acc" (.ofDType d)) b = .ok (acc, b.withLocals [acc]) := rfl
    have hnumbered : ¬ IsNumbered acc.name := not_isNumbered_freshName (Or.inr rfl) b.taken
    have haxes' : ∀ v ∈ axes, IsAxis v.name := fun v hv => Or.inr (haxes v hv)
    obtain ⟨⟨prelude, valueV⟩, accs, hlower, -, -, -, htyped, hlevel⟩ := ih (hnamed.append haxes') (b.withLocals [acc])
    obtain ⟨rfl, rfl⟩ := hlevel (by decide)
    rw [FunctionBuilder.withLocals_nil] at hlower
    obtain ⟨divide, hdivide⟩ := exists_divide kind d acc (constShape?_ofShape extents)
    refine ⟨_, [acc], lower_reduce (scalarDType_eq_ok hvalue.hasDType) hacc hlower hdivide, ?_, List.nodup_singleton _,
      List.forall_mem_singleton.mpr ⟨d, rfl⟩, fun vars hvars => ⟨?_, ?_, ?_⟩, fun hne => absurd rfl hne⟩
    · exact List.forall_mem_singleton.mpr ⟨freshName_not_mem b.taken "acc", hnumbered⟩
    · exact List.forall_mem_singleton.mpr (Reduction.wellTyped_toStmt hnamed haxes' htypes hlength rfl hnumbered
        (fun vars hvars => ⟨(htyped vars hvars).wellTyped, (htyped vars hvars).hasDType⟩) hdivide hvars)
    · exact .var (hvars.accs acc (List.mem_singleton_self acc))
    · exact inferType_var acc

end Expr

end TensorCompiler
