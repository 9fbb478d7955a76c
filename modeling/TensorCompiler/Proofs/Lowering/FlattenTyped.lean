import TensorCompiler.Proofs.Lowering.Flatten
import TensorCompiler.Proofs.Program.WellTyped

/-! # Flat programs are well typed

A tensor that becomes a buffer has its new type at its declaration and at each of its occurrences, since no binding hides
it. An access at one index for each dimension becomes an access at one index, to an element of the same type. So a
well-typed function stays so when its tensors become buffers, and has no tensor of several dimensions then.
-/

namespace TensorCompiler

variable {vars : List Var}

/-! ## Types of buffers -/

namespace TensorType

/-- The strides of literal extents are literals, one for each dimension. -/
theorem exists_rowMajorStrides (shape : List Int64) :
    ∃ strides, rowMajorStrides (Expr.ofShape shape) = Expr.ofShape strides ∧ strides.length = shape.length := by
  induction shape with
  | nil => exact ⟨[], rfl, rfl⟩
  | cons n shape ih =>
    cases shape with
    | nil => exact ⟨[1], rfl, rfl⟩
    | cons m shape =>
      obtain ⟨strides, hstrides, hlength⟩ := ih
      obtain ⟨s, rest, rfl⟩ := List.exists_cons_of_length_eq_add_one hlength
      refine ⟨s * m :: s :: rest, ?_, congrArg (· + 1) hlength⟩
      change scaledStride ((rowMajorStrides (Expr.ofShape (m :: shape))).headD (.int 1)) (.int m) ::
        rowMajorStrides (Expr.ofShape (m :: shape)) = _
      rw [hstrides]
      rfl

variable [FloatOps]

/-- A product of literals folds to a literal. -/
theorem exists_fold_foldl_mul (extents : List Int64) {e : Expr} {n : Int64} (he : e.fold = .int n) :
    ∃ m, ((Expr.ofShape extents).foldl (· * ·) e).fold = .int m := by
  induction extents generalizing e n with
  | nil => exact ⟨n, he⟩
  | cons k extents ih =>
    refine ih (n := n * k) ?_
    change (Expr.binary .mul e (.int k)).fold = _
    rw [Expr.fold_binary, he]
    rfl

/-- The buffer of a tensor of literal extents has a literal extent. -/
theorem exists_flatExtent (scope : MemoryScope) (d : DType) (shape : List Int64) (strides : List Expr) :
    ∃ n, (ofShape scope d shape).flatExtent (Expr.ofShape shape) strides = .int n := by
  cases shape with
  | nil => exact ⟨1, rfl⟩
  | cons n shape => exact exists_fold_foldl_mul shape (e := .int n) rfl

end TensorType

section

variable [FloatOps] {v : Var}

/-- A tensor of literal extents becomes a buffer of the same elements and a literal extent; its strides are literals. -/
theorem Var.exists_of_flatten? {flat : FlatBuffer} (hv : v.ty.IsStatic) (h : v.flatten? = some flat) :
    ∃ scope d shape n strides, v.ty = .tensor (.ofShape scope d shape) ∧ strides.length = shape.length ∧
      flat = ⟨⟨v.name, .tensor (.ofShape scope d [n])⟩, Expr.ofShape strides⟩ := by
  obtain ⟨type, es, ss, hty, hes, -, hss, rfl⟩ := flatten?_eq_some_iff.mp h
  rw [hty] at hv
  obtain ⟨scope, d, shape, rfl⟩ := hv
  cases hes
  obtain ⟨strides, hstrides, hlength⟩ := TensorType.exists_rowMajorStrides shape
  obtain ⟨n, hn⟩ := TensorType.exists_flatExtent scope d shape ss
  have hsame : ss = Expr.ofShape strides := (Option.some.inj hss).symm.trans hstrides
  refine ⟨scope, d, shape, n, strides, hty, hlength, ?_⟩
  rw [hn, hsame]
  rfl

/-- A tensor of literal extents that is not turned into a buffer has one dimension at most. -/
theorem Var.isFlat_of_flatten?_eq_none (hv : v.ty.IsStatic) (h : v.flatten? = none) : v.ty.IsFlat := by
  intro type hty
  rw [hty] at hv
  obtain ⟨scope, d, shape, rfl⟩ := hv
  refine ⟨shape.length, Nat.le_of_not_lt fun hlarge => ?_, congrArg some (List.length_map _)⟩
  have hflat := flatten?_eq_some_iff.mpr
    ⟨_, Expr.ofShape shape, _, hty, rfl, Or.inl (hlarge.trans_eq (List.length_map _).symm), rfl, rfl⟩
  rw [h] at hflat
  cases hflat

namespace Function

theorem flatVar_of_flatten?_eq_none (h : v.flatten? = none) : flatVar v = v := by
  rw [flatVar, h]
  rfl

/-- Only tensors become buffers. -/
theorem flatVar_eq_self (h : v.ty.isTensor = false) : flatVar v = v := by
  refine flatVar_of_flatten?_eq_none (Option.eq_none_iff_forall_ne_some.mpr fun flat hflat => ?_)
  obtain ⟨type, -, -, hty, -⟩ := Var.flatten?_eq_some_iff.mp hflat
  rw [hty] at h
  cases h

theorem flatVar_eq_self_of_scalar {d : DType} (h : v.ty = .ofDType d) : flatVar v = v :=
  flatVar_eq_self (by rw [h]; rfl)

theorem name_flatVar (v : Var) : (flatVar v).name = v.name := by
  cases hflat : v.flatten? with
  | none => rw [flatVar_of_flatten?_eq_none hflat]
  | some flat =>
    obtain ⟨type, es, ss, -, -, -, -, rfl⟩ := Var.flatten?_eq_some_iff.mp hflat
    rw [flatVar, hflat]
    rfl

/-- A buffer has a literal extent, and one dimension at most. -/
theorem isStatic_isFlat_flatVar (hv : v.ty.IsStatic) : (flatVar v).ty.IsStatic ∧ (flatVar v).ty.IsFlat := by
  cases hflat : v.flatten? with
  | none =>
    rw [flatVar_of_flatten?_eq_none hflat]
    exact ⟨hv, Var.isFlat_of_flatten?_eq_none hv hflat⟩
  | some flat =>
    obtain ⟨scope, d, shape, n, strides, -, -, rfl⟩ := Var.exists_of_flatten? hv hflat
    rw [flatVar, hflat]
    refine ⟨⟨scope, d, [n], rfl⟩, ?_⟩
    rintro _ ⟨⟩
    exact ⟨1, Nat.le_refl 1, rfl⟩

end Function

end

/-! ## Accesses -/

namespace Expr

/-- The linear index of indices is an index. -/
theorem isIndex_linearIndex {indices : List Expr} (hindices : ∀ i ∈ indices, i.IsIndex vars) (strides : List Int64) :
    (linearIndex indices (ofShape strides)).IsIndex vars := by
  have hsum (rest : List Expr) {first : Expr} (hfirst : first.IsIndex vars) (hrest : ∀ i ∈ rest, i.IsIndex vars) :
      (rest.foldl (· + ·) first).IsIndex vars := by
    induction rest generalizing first with
    | nil => exact hfirst
    | cons i rest ih =>
      exact ih (hfirst.add (hrest i List.mem_cons_self)) fun j hj => hrest j (List.mem_cons_of_mem _ hj)
  have hterms : ∀ t ∈ indices.zipWith (fun index stride => if stride.int? = some 1 then index else index * stride)
      (ofShape strides), t.IsIndex vars := by
    intro t ht
    rw [← List.map_uncurry_zip_eq_zipWith] at ht
    obtain ⟨⟨index, stride⟩, hmem, rfl⟩ := List.mem_map.mp ht
    obtain ⟨hindex, hstride⟩ := List.of_mem_zip hmem
    obtain ⟨n, -, rfl⟩ := List.mem_map.mp hstride
    change (if (int n).int? = some 1 then index else index * int n).IsIndex vars
    split_ifs
    · exact hindices index hindex
    · exact (hindices index hindex).mul (isIndex_int n)
  unfold linearIndex
  dsimp only
  split
  · exact isIndex_int 0
  · rename_i first rest heq
    rw [heq] at hterms
    exact hsum rest (hterms first List.mem_cons_self) fun i hi => hterms i (List.mem_cons_of_mem _ hi)

end Expr

namespace FlatBuffers

variable {B : FlatBuffers} {v w : Var} {e : Expr} {indices : List Expr}

/-- Whether buffers are those of the tensors in scope. -/
structure Agrees [FloatOps] (B : FlatBuffers) (vars : List Var) : Prop where
  lookup : ∀ v : Var, v.IsBound vars → B.lookup v.name = v.flatten?
  static : ∀ v ∈ vars, v.ty.IsStatic
  tensors : ∀ name flat, B.lookup name = some flat → ∃ v ∈ vars, v.name = name ∧ v.ty.isTensor

variable [FloatOps]

/-- Buffers agree inside a binding that hides no tensor. -/
theorem Agrees.cons (h : B.Agrees vars) {d : DType} (hty : w.ty = .ofDType d) (hhides : w.HidesNoTensor vars) :
    B.Agrees (w :: vars) where
  lookup v hv := by
    rcases hv.cases with rfl | ⟨-, hv⟩
    · have hnone : v.flatten? = none := by
        cases hflat : v.flatten? with
        | none => rfl
        | some flat =>
          obtain ⟨type, -, -, htensor, -⟩ := Var.flatten?_eq_some_iff.mp hflat
          rw [hty] at htensor
          cases htensor
      rw [hnone, Option.eq_none_iff_forall_ne_some]
      intro flat hlookup
      obtain ⟨u, hu, hname, htensor⟩ := h.tensors _ _ hlookup
      rw [hhides u hu hname] at htensor
      cases htensor
    · exact h.lookup v hv
  static v hv := by
    rcases List.mem_cons.mp hv with rfl | hv
    · rw [hty]
      rfl
    · exact h.static v hv
  tensors name flat hlookup := by
    obtain ⟨u, hu, hname, htensor⟩ := h.tensors name flat hlookup
    exact ⟨u, List.mem_cons_of_mem _ hu, hname, htensor⟩

theorem Agrees.linearizeExpr_var (h : B.Agrees vars) (hv : v.IsBound vars) :
    B.linearizeExpr (.var v) = .var (Function.flatVar v) := by
  rw [FlatBuffers.linearizeExpr_var, h.lookup v hv, Function.flatVar]

theorem Agrees.indices_eq (h : B.Agrees vars) (hv : v.IsBound vars) (indices : List Expr) :
    B.indices (.var (Function.flatVar v)) indices = match v.flatten? with
      | some flat => if indices.length = flat.strides.length then [linearIndex indices flat.strides] else indices
      | none => indices := by
  rewrite [FlatBuffers.indices, Expr.var?, Option.bind_some, Function.name_flatVar, h.lookup v hv]
  cases v.flatten? <;> rfl

/-- An access to a tensor becomes an access of the rank of its buffer, to an element of the same type. -/
theorem Agrees.access (h : B.Agrees vars) (hv : v.IsBound vars) (hrank : v.ty.rank? = some indices.length)
    (hindices : ∀ i ∈ indices, i.IsIndex (vars.map Function.flatVar)) :
    (Function.flatVar v).ty.rank? = some (B.indices (.var (Function.flatVar v)) indices).length ∧
      (Function.flatVar v).ty.elementType = v.ty.elementType ∧
      ∀ i ∈ B.indices (.var (Function.flatVar v)) indices, i.IsIndex (vars.map Function.flatVar) := by
  rw [h.indices_eq hv]
  cases hflat : v.flatten? with
  | none =>
    rw [Function.flatVar_of_flatten?_eq_none hflat]
    exact ⟨hrank, rfl, hindices⟩
  | some flat =>
    obtain ⟨scope, d, shape, n, strides, hty, hlength, rfl⟩ := Var.exists_of_flatten? (h.static v hv.mem) hflat
    have hcount : indices.length = (Expr.ofShape strides).length := by
      rw [hty] at hrank
      have hshape : (Expr.ofShape shape).length = indices.length := Option.some.inj hrank
      rw [← hshape, Expr.ofShape, Expr.ofShape, List.length_map, List.length_map, hlength]
    dsimp only
    rw [if_pos hcount, Function.flatVar, hflat, hty]
    refine ⟨rfl, rfl, fun i hi => ?_⟩
    rw [List.mem_singleton.mp hi]
    exact Expr.isIndex_linearIndex hindices strides

end FlatBuffers

/-! ## Code -/

/-- What points to something is no tensor. -/
theorem Ty.isTensor_of_pointee {pointer ty : Ty} (h : pointer.pointee = .ok ty) : pointer.isTensor = false := by
  cases pointer <;> first | rfl | cases h

namespace Expr

variable {B : FlatBuffers} {e : Expr} {ty : Ty}

/-- The type of a call depends on the type of the first argument at most. -/
theorem inferType_call_map {f : Expr → Expr} {func : String} {args : List Expr}
    (hargs : ∀ a ∈ args, a.inferType = .ok ty → (f a).inferType = .ok ty) (h : (call func args).inferType = .ok ty) :
    (call func (args.map f)).inferType = .ok ty := by
  simp only [inferType] at h ⊢
  split_ifs at h ⊢
  · exact h
  · cases args with
    | nil => exact h
    | cons first rest => exact hargs first List.mem_cons_self h
  · exact h

variable [FloatOps]

/-- An expression with accesses to buffers is well typed, and has the type of the expression unless that is a tensor. -/
theorem WellTyped.linearizeExpr (h : e.WellTyped vars) (hB : B.Agrees vars) :
    (B.linearizeExpr e).WellTyped (vars.map Function.flatVar) ∧
      ∀ ty, ty.isTensor = false → e.inferType = .ok ty → (B.linearizeExpr e).inferType = .ok ty := by
  have hscalar {e : Expr} {d : DType} (hd : e.HasDType d)
      (htype : ∀ ty, ty.isTensor = false → e.inferType = .ok ty → (B.linearizeExpr e).inferType = .ok ty) :
      (B.linearizeExpr e).HasDType d := htype _ rfl hd
  induction h with
  | @var v hv =>
    rw [hB.linearizeExpr_var hv]
    refine ⟨.var (hv.map Function.name_flatVar), fun ty hty htype => ?_⟩
    obtain rfl : v.ty = ty := Except.ok.inj ((inferType_var v).symm.trans htype)
    rw [Function.flatVar_eq_self hty, inferType_var]
  | const value d => exact ⟨.const value d, fun _ _ htype => htype⟩
  | unary op _ htype ih =>
    rw [FlatBuffers.linearizeExpr_eq B (by simp) (by simp), Expr.mapChildren]
    have harg := hscalar htype ih.2
    exact ⟨.unary op ih.1 harg, fun ty _ h => (harg.unary op).trans ((htype.unary op).symm.trans h)⟩
  | binary op _ _ htypeL htypeR ihl ihr =>
    rw [FlatBuffers.linearizeExpr_eq B (by simp) (by simp), Expr.mapChildren]
    have hl := hscalar htypeL ihl.2
    have hr := hscalar htypeR ihr.2
    exact ⟨.binary op ihl.1 ihr.1 hl hr, fun ty _ h => (hl.binary op hr).trans ((htypeL.binary op htypeR).symm.trans h)⟩
  | ite _ _ _ hbool htypeT htypeE ihc iht ihe =>
    rw [FlatBuffers.linearizeExpr_eq B (by simp) (by simp), Expr.mapChildren]
    have ht := hscalar htypeT iht.2
    have he := hscalar htypeE ihe.2
    exact ⟨.ite ihc.1 iht.1 ihe.1 (hscalar hbool ihc.2) ht he,
      fun ty _ h => (ht.ite he).trans ((htypeT.ite htypeE).symm.trans h)⟩
  | @element v indices hv hrank _ htypes ih =>
    have hindices : ∀ i ∈ indices.map B.linearizeExpr, i.IsIndex (vars.map Function.flatVar) :=
      List.forall_mem_map.mpr fun i hi => ⟨(ih i hi).1, hscalar (htypes i hi) (ih i hi).2⟩
    obtain ⟨hrank', helement, hall⟩ := hB.access hv (hrank.trans (congrArg some (List.length_map _).symm)) hindices
    rw [FlatBuffers.linearizeExpr_element, hB.linearizeExpr_var hv]
    refine ⟨.element (hv.map Function.name_flatVar) hrank' (fun i hi => (hall i hi).wellTyped)
      fun i hi => (hall i hi).hasDType, fun ty _ htype => ?_⟩
    rw [inferType_element] at htype ⊢
    rw [helement, htype]
  | call func _ ih =>
    rw [FlatBuffers.linearizeExpr_eq B (by simp) (by simp), Expr.mapChildren]
    exact ⟨.call func (List.forall_mem_map.mpr fun a ha => (ih a ha).1),
      fun ty hty htype => inferType_call_map (fun a ha => (ih a ha).2 ty hty) htype⟩
  | cast htarget _ ih =>
    rw [FlatBuffers.linearizeExpr_eq B (by simp) (by simp), Expr.mapChildren]
    exact ⟨.cast htarget ih.1, fun _ _ htype => htype⟩
  | deref _ ih =>
    rw [FlatBuffers.linearizeExpr_eq B (by simp) (by simp), Expr.mapChildren]
    refine ⟨.deref ih.1, fun ty _ htype => ?_⟩
    obtain ⟨pointer, hpointer, hpointee⟩ := bind_eq_ok_iff.mp htype
    exact bind_eq_ok_iff.mpr ⟨pointer, ih.2 pointer (Ty.isTensor_of_pointee hpointee) hpointer, hpointee⟩

end Expr

section

variable [FloatOps] {B : FlatBuffers}

theorem Var.HidesNoTensor.map_flatVar {v : Var} (h : v.HidesNoTensor vars) :
    v.HidesNoTensor (vars.map Function.flatVar) := by
  intro w hw hname
  obtain ⟨u, hu, rfl⟩ := List.mem_map.mp hw
  rw [Function.name_flatVar] at hname
  have hscalar := h u hu hname
  rw [Function.flatVar_eq_self hscalar]
  exact hscalar

/-- A statement with accesses to buffers is well typed. -/
theorem Stmt.WellTyped.linearize {s : Stmt} (h : s.WellTyped vars) (hB : B.Agrees vars) :
    (s.map B.linearizeStore B.linearizeExpr).WellTyped (vars.map Function.flatVar) := by
  have hexpr {vars : List Var} {e : Expr} {d : DType} (hB : B.Agrees vars) (he : e.WellTyped vars) (hd : e.HasDType d) :
      (B.linearizeExpr e).HasDType d := (he.linearizeExpr hB).2 _ rfl hd
  induction h with
  | eval he => exact .eval (he.linearizeExpr hB).1
  | assign hv hty hvalue htype =>
    have hbound := hv.map Function.name_flatVar
    rw [Function.flatVar_eq_self_of_scalar hty] at hbound
    exact .assign hbound hty (hvalue.linearizeExpr hB).1 (hexpr hB hvalue htype)
  | @store vars v indices value d hv helement hrank hindices htypes hvalue htype =>
    have hall : ∀ i ∈ indices.map B.linearizeExpr, i.IsIndex (vars.map Function.flatVar) :=
      List.forall_mem_map.mpr fun i hi =>
        ⟨((hindices i hi).linearizeExpr hB).1, hexpr hB (hindices i hi) (htypes i hi)⟩
    obtain ⟨hrank', helement', hall'⟩ := hB.access hv (hrank.trans (congrArg some (List.length_map _).symm)) hall
    change (Stmt.store (B.linearizeExpr (.var v)) (B.indices (B.linearizeExpr (.var v)) (indices.map B.linearizeExpr))
      (B.linearizeExpr value)).WellTyped _
    rw [hB.linearizeExpr_var hv]
    exact .store (hv.map Function.name_flatVar) (helement'.trans helement) hrank' (fun i hi => (hall' i hi).wellTyped)
      (fun i hi => (hall' i hi).hasDType) (hvalue.linearizeExpr hB).1 (hexpr hB hvalue htype)
  | letIn hty hhides hvalue htype _ ih =>
    have hbody := ih (hB.cons hty hhides)
    rw [List.map_cons, Function.flatVar_eq_self_of_scalar hty] at hbody
    exact .letIn hty hhides.map_flatVar (hvalue.linearizeExpr hB).1 (hexpr hB hvalue htype) hbody
  | forRange unroll hty hhides hextent htype _ ih =>
    have hbody := ih (hB.cons hty hhides)
    rw [List.map_cons, Function.flatVar_eq_self_of_scalar hty] at hbody
    exact .forRange unroll hty hhides.map_flatVar (hextent.linearizeExpr hB).1 (hexpr hB hextent htype) hbody
  | ifThen hcond hbool _ iht => exact .ifThen (hcond.linearizeExpr hB).1 (hexpr hB hcond hbool) (iht hB)
  | ifElse hcond hbool _ _ iht ihe =>
    exact .ifElse (hcond.linearizeExpr hB).1 (hexpr hB hcond hbool) (iht hB) (ihe hB)
  | assert message hcond hbool => exact .assert message (hcond.linearizeExpr hB).1 (hexpr hB hcond hbool)
  | @seq vars stmts _ ih =>
    have hall : (Stmt.seq (stmts.map (Stmt.map B.linearizeStore B.linearizeExpr))).WellTyped (vars.map Function.flatVar) :=
      .seq (List.forall_mem_map.mpr fun s hs => ih s hs hB)
    rw [Stmt.map, Stmt.mapAll_eq]
    exact hall

namespace Function

variable {f : Function}

/-- The buffers of a well-typed function are those of its tensors. -/
theorem WellTyped.agrees (h : f.WellTyped) : (FlatBuffers.ofVars (f.params ++ f.locals)).Agrees (f.params ++ f.locals) where
  lookup v hv := by
    cases hlookup : (FlatBuffers.ofVars (f.params ++ f.locals)).lookup v.name with
    | some flat =>
      obtain ⟨w, hw, hname, hflat⟩ := FlatBuffers.exists_of_lookup_ofVars hlookup
      rw [← hflat, (h.names w hw).eq_of_name_eq hv hname]
    | none =>
      refine (Option.eq_none_iff_forall_ne_some.mpr fun flat hflat => ?_).symm
      have hmem : (v.name, flat) ∈ FlatBuffers.ofVars (f.params ++ f.locals) := by
        rw [FlatBuffers.ofVars, List.mem_reverse, List.mem_filterMap]
        exact ⟨v, hv.mem, by rw [hflat]; rfl⟩
      have hne := List.lookup_eq_none_iff.mp hlookup _ hmem
      simp at hne
  static := h.types
  tensors name flat hlookup := by
    obtain ⟨v, hv, hname, hflat⟩ := FlatBuffers.exists_of_lookup_ofVars hlookup
    obtain ⟨type, -, -, hty, -⟩ := Var.flatten?_eq_some_iff.mp hflat
    exact ⟨v, hv, hname, by rw [hty]; rfl⟩

/-- A well-typed function stays so when its tensors become buffers, and is flat then. -/
theorem WellTyped.flattenTensors (h : f.WellTyped) : f.flattenTensors.WellTyped ∧ f.flattenTensors.IsFlat := by
  rw [Function.flattenTensors]
  dsimp only
  split_ifs with hempty
  · refine ⟨h, fun v hv => ?_⟩
    have hnone : v.flatten? = none := by
      rw [← h.agrees.lookup v (h.names v hv), List.isEmpty_iff.mp hempty]
      rfl
    exact Var.isFlat_of_flatten?_eq_none (h.types v hv) hnone
  · have hvars : f.params.map flatVar ++ f.locals.map flatVar = (f.params ++ f.locals).map flatVar := List.map_append.symm
    have hboth : ∀ v ∈ f.params.map flatVar ++ f.locals.map flatVar, v.ty.IsStatic ∧ v.ty.IsFlat := by
      rw [hvars]
      exact List.forall_mem_map.mpr fun v hv => isStatic_isFlat_flatVar (h.types v hv)
    refine ⟨⟨fun v hv => (hboth v hv).1, ?_, ?_⟩, fun v hv => (hboth v hv).2⟩
    · change ∀ v ∈ f.params.map flatVar ++ f.locals.map flatVar, v.IsBound (f.params.map flatVar ++ f.locals.map flatVar)
      rw [hvars]
      exact List.forall_mem_map.mpr fun v hv => (h.names v hv).map name_flatVar
    · change Stmt.WellTyped (f.params.map flatVar ++ f.locals.map flatVar) _
      rw [hvars]
      exact h.body.linearize h.agrees

end Function

end

end TensorCompiler
