import TensorCompiler.Proofs.Lowering.FlattenTyped
import TensorCompiler.Proofs.Lowering.Packed
import TensorCompiler.Proofs.Lowering.SimplifyTyped

/-! # Lowering keeps modules well typed

A wrapper reads the count, the type codes and the addresses that it is called with, and unpacks each argument at the
type of its parameter. With what simplification and buffers keep, every transform makes a well-typed module of a
well-typed module, and lowering as a whole one without tensors of several dimensions.
-/

namespace TensorCompiler

/-! ## Nodes -/

section

variable {vars : List Var}

theorem Expr.WellTyped.of_mem_preorder {e node : Expr} (h : e.WellTyped vars) (hnode : node ∈ e.preorder) :
    node.WellTyped vars := by
  induction e using Expr.induct with
  | node e ih =>
    rw [Expr.preorder_eq] at hnode
    rcases List.mem_cons.mp hnode with rfl | hnode
    · exact h
    · obtain ⟨c, hc, hnode⟩ := List.mem_flatMap.mp hnode
      exact ih c hc (h.child hc) hnode

namespace Stmt

variable {s t : Stmt} {e : Expr}

theorem WellTyped.child (h : s.WellTyped vars) (ht : t ∈ s.children) : ∃ inner, t.WellTyped inner := by
  cases h with
  | letIn _ _ _ _ hbody | forRange _ _ _ _ _ hbody =>
    rw [List.mem_singleton.mp ht]
    exact ⟨_, hbody⟩
  | ifThen _ _ hthen =>
    rw [List.mem_singleton.mp ht]
    exact ⟨_, hthen⟩
  | ifElse _ _ hthen helse =>
    rcases List.mem_pair.mp ht with rfl | rfl
    · exact ⟨_, hthen⟩
    · exact ⟨_, helse⟩
  | seq h => exact ⟨_, h t ht⟩
  | eval | assign | store | assert => cases ht

theorem WellTyped.of_mem_preorder (h : s.WellTyped vars) (ht : t ∈ s.preorder) : ∃ inner, t.WellTyped inner := by
  induction s using Stmt.induct generalizing vars with
  | node s ih =>
    rw [preorder_eq] at ht
    rcases List.mem_cons.mp ht with rfl | ht
    · exact ⟨vars, h⟩
    · obtain ⟨c, hc, ht⟩ := List.mem_flatMap.mp ht
      obtain ⟨inner, hinner⟩ := h.child hc
      exact ih c hc hinner ht

/-- The expressions of a statement are well typed in its scope. -/
theorem WellTyped.of_mem_exprs (h : s.WellTyped vars) (he : e ∈ s.exprs) : e.WellTyped vars := by
  cases h with
  | eval h | letIn _ _ h | forRange _ _ _ h | ifThen h | ifElse h | assert _ h | assign _ _ h =>
    rw [List.mem_singleton.mp he]
    exact h
  | store hv _ _ hindices _ hvalue =>
    rcases List.mem_cons.mp he with rfl | he
    · exact .var hv
    · rcases List.mem_append.mp he with he | he
      · exact hindices e he
      · rw [List.mem_singleton.mp he]
        exact hvalue
  | seq => cases he

/-- Nothing of definitions or patterns occurs in a well-typed statement. -/
theorem WellTyped.isComputeNode_eq_false (h : s.WellTyped vars) : ∀ node ∈ s.exprNodes, node.isComputeNode = false := by
  intro node hnode
  obtain ⟨t, ht, hnode⟩ := List.mem_flatMap.mp hnode
  obtain ⟨e, he, hnode⟩ := List.mem_flatMap.mp hnode
  obtain ⟨inner, hinner⟩ := h.of_mem_preorder ht
  exact ((hinner.of_mem_exprs he).of_mem_preorder hnode).isComputeNode

end Stmt

end

/-! ## Wrappers -/

namespace PackedCall

/-- The variables in scope in a wrapper. -/
def scope : List Var := [numArgs, argTypes, args]

theorem isBound_numArgs : numArgs.IsBound scope := rfl

theorem isBound_argTypes : argTypes.IsBound scope := rfl

theorem isBound_args : args.IsBound scope := rfl

theorem forall_mem_position {P : Expr → Prop} {index : Nat} (h : P (Expr.int (Int64.ofNat index))) :
    ∀ i ∈ [Expr.int (Int64.ofNat index)], P i :=
  List.forall_mem_singleton.mpr h

/-- An argument is unpacked from an address. -/
theorem wellTyped_unpack (index : Nat) {ty : Ty} (hty : ty.IsStatic) : (unpack index ty).WellTyped scope := by
  have hraw : (Expr.element (.var args) [Expr.int (Int64.ofNat index)]).WellTyped scope :=
    .element isBound_args rfl (forall_mem_position (.const _ _)) (forall_mem_position rfl)
  cases ty with
  | tensor type | tensorPointer type =>
    obtain ⟨scope, d, shape, rfl⟩ := hty
    exact .cast rfl hraw
  | pointer base => exact .cast hty hraw
  | scalar | reference | void => exact .deref (.cast hty hraw)

/-- A comparison of a number with a literal is a condition. -/
theorem wellTyped_assert_equals {e : Expr} (n : Int64) (message : String) (he : e.WellTyped scope)
    (htype : e.HasDType .int32) : (Stmt.assert (e.equals (.int n)) message).WellTyped scope := by
  have hn : (Expr.int n).HasDType .int32 := rfl
  exact .assert message (.binary .eq he (.const _ _) htype hn) (htype.binary .eq hn)

theorem wellTyped_of_mem_codeChecks {entry : String} {index : Nat} {params : List Var} {checks : List Stmt}
    (h : codeChecks entry index params = .ok checks) : ∀ s ∈ checks, s.WellTyped scope := by
  induction params generalizing index checks with
  | nil =>
    cases h
    simp
  | cons param params ih =>
    rw [codeChecks] at h
    split at h
    · cases h
    · obtain ⟨rest, hrest, hchecks⟩ := bind_eq_ok_iff.mp h
      cases hchecks
      refine List.forall_mem_cons.mpr ⟨wellTyped_assert_equals _ _ ?_ rfl, ih hrest⟩
      exact .element isBound_argTypes rfl (forall_mem_position (.const _ _)) (forall_mem_position rfl)

/-- The wrapper of an entry is well typed, whatever the entry does. -/
theorem wellTyped_wrapper {entry w : Function} (h : wrapper entry = .ok w) (hentry : ∀ v ∈ entry.params, v.ty.IsStatic) :
    w.WellTyped := by
  obtain ⟨checks, hchecks, hw⟩ := bind_eq_ok_iff.mp h
  cases hw
  have htypes : ∀ v ∈ scope, v.ty.IsStatic := by
    simp only [scope, List.forall_mem_cons, List.not_mem_nil, false_imp_iff, implies_true, and_true]
    exact ⟨rfl, rfl, trivial⟩
  have hnames : ∀ v ∈ scope, v.IsBound scope :=
    List.forall_mem_cons.mpr ⟨isBound_numArgs, List.forall_mem_cons.mpr ⟨isBound_argTypes,
      List.forall_mem_singleton.mpr isBound_args⟩⟩
  refine ⟨htypes, hnames, .block fun s hs => ?_⟩
  rcases List.mem_append.mp hs with hs | hs
  · rcases List.mem_cons.mp hs with rfl | hs
    · exact wellTyped_assert_equals _ _ (.var isBound_numArgs) rfl
    · exact wellTyped_of_mem_codeChecks hchecks s hs
  · rw [List.mem_singleton.mp hs]
    refine .eval (.call _ (List.forall_mem_map.mpr ?_))
    rintro ⟨param, index⟩ hparam
    exact wellTyped_unpack index (hentry param (List.fst_mem_of_mem_zipIdx hparam))

end PackedCall

/-! ## Transforms -/

variable {m m' : Module}

theorem Module.WellTyped.map (h : m.WellTyped) {F : Function → Function} (hF : ∀ f : Function, f.WellTyped → (F f).WellTyped) :
    (m.map F).WellTyped :=
  List.forall_mem_map.mpr fun f hf => hF f (h f hf)

theorem Module.WellTyped.dropUnreachable (h : m.WellTyped) : m.dropUnreachable.WellTyped := by
  rw [Module.dropUnreachable]
  split_ifs
  · exact h
  · exact fun f hf => h f (List.mem_of_mem_filter hf)

theorem Module.WellTyped.addWrappers (h : m.WellTyped) (hadded : m.addWrappers = .ok m') : m'.WellTyped := by
  obtain ⟨wrappers, hwrappers, hmerged⟩ := bind_eq_ok_iff.mp hadded
  intro f hf
  rw [Module.functions_of_merge hmerged] at hf
  rcases List.mem_append.mp hf with hf | hf
  · exact h f hf
  · obtain ⟨entry, hentry, hwrapper⟩ := exists_mem_of_forall₂ (mapM_eq_ok_iff.mp hwrappers).flip hf
    have htypes := (h entry (List.mem_of_mem_filter hentry)).types
    exact PackedCall.wellTyped_wrapper hwrapper fun v hv => htypes v (List.mem_append_left _ hv)

variable [FloatOps]

/-- A transform makes a well-typed module of a well-typed module. -/
theorem Lowering.wellTyped_run {transform : Lowering} (hrun : transform.run m = .ok m') (h : m.WellTyped) : m'.WellTyped := by
  cases transform with
  | dropUnreachable =>
    cases hrun
    exact h.dropUnreachable
  | addWrappers => exact h.addWrappers hrun
  | flattenTensors =>
    cases hrun
    exact h.map fun f hf => hf.flattenTensors.1
  | foldConstants =>
    cases hrun
    exact h.map fun f hf => ⟨hf.types, hf.names, hf.body.fold⟩
  | simplifyBounds =>
    cases hrun
    exact h.map fun f hf => ⟨hf.types, hf.names, hf.body.simplifyBounds _⟩

/-- Transforms that run one after the other keep a module well typed. -/
theorem Lowerer.wellTyped_run {lowerer : Lowerer} (hrun : lowerer.run m = .ok m') (h : m.WellTyped) : m'.WellTyped :=
  foldlM_keeps (fun _ _ _ _ hacc hstep => Lowering.wellTyped_run hstep hacc) h hrun

/-- No tensor of several dimensions is left where all transforms have run: those behind the one that makes buffers change
bodies only. -/
theorem Lowerer.isFlat_run_canonical (hrun : Lowerer.canonical.run m = .ok m') (h : m.WellTyped) :
    ∀ f ∈ m'.functions, f.IsFlat := by
  obtain ⟨dropped, hdropped, hrest⟩ := bind_eq_ok_iff.mp hrun
  obtain ⟨wrapped, hwrapped, hrest⟩ := bind_eq_ok_iff.mp hrest
  cases hrest
  have hwell := Lowering.wellTyped_run hwrapped (Lowering.wellTyped_run hdropped h)
  refine List.forall_mem_map.mpr (List.forall_mem_map.mpr (List.forall_mem_map.mpr fun f hf => ?_))
  exact (hwell f hf).flattenTensors.2

end TensorCompiler
