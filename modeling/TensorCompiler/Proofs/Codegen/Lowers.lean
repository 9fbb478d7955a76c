import TensorCompiler.Proofs.Codegen.HoleFree
import TensorCompiler.Proofs.Program.FreshNames

/-! # Lowering as a relation

What values are lowered to, one rule for each kind of node: an input becomes its parameter, a reduction an accumulator of
its own with a loop in front, and every other node is rebuilt from its parts, behind the statements of all of these. The
relation goes through a list of values from left to right, so that a node is a list of its parts.
-/

namespace TensorCompiler

/-! ## Accumulators -/

namespace FunctionBuilder

/-- The function under construction with more local variables, whose names are taken. -/
def withLocals (b : FunctionBuilder) (vars : List Var) : FunctionBuilder where
  function := { b.function with locals := b.function.locals ++ vars }
  taken := (vars.map Var.name).reverse ++ b.taken

theorem withLocals_nil (b : FunctionBuilder) : b.withLocals [] = b := by
  obtain ⟨f, taken⟩ := b
  simp [withLocals]

theorem withLocals_append (b : FunctionBuilder) (vars vars' : List Var) :
    (b.withLocals vars).withLocals vars' = b.withLocals (vars ++ vars') := by
  simp [withLocals]

theorem mem_taken_withLocals {b : FunctionBuilder} {vars : List Var} {x : String} :
    x ∈ (b.withLocals vars).taken ↔ x ∈ vars.map Var.name ∨ x ∈ b.taken := by
  rw [withLocals, List.mem_append, List.mem_reverse]

end FunctionBuilder

/-! ## Parameters -/

namespace ParamMap

/-- Whether the parameters that stand for nodes are parameters of a function under construction, which has taken the names
of its parameters. -/
structure DeclaredIn (params : ParamMap) (b : FunctionBuilder) : Prop where
  mem : ∀ name v, params.lookup name = some v → v ∈ b.function.params
  taken : ∀ v ∈ b.function.params, v.name ∈ b.taken

/-- Declaring the parameters of a task makes them those of the function. -/
theorem declaredIn_of_declare {task : Task} {params : ParamMap} {b b' : FunctionBuilder}
    (hb : ∀ v ∈ b.function.params, v.name ∈ b.taken) (h : declare task b = .ok (params, b')) : params.DeclaredIn b' := by
  have hnone : DeclaredIn [] b := ⟨fun name v hlookup => (by cases hlookup), hb⟩
  refine CodegenM.foldlM_invariant (P := fun params b => DeclaredIn params b)
    (fun entry _ params params' b b' hbefore hstep => ?_) hnone h
  obtain ⟨name, b₁, hname, hrest⟩ := CodegenM.bind_eq_ok_iff.mp hstep
  obtain ⟨⟨⟩, b₂, hdeclare, hresult⟩ := CodegenM.bind_eq_ok_iff.mp hrest
  obtain ⟨-, rfl⟩ := CodegenM.ofOption_eq_ok_iff.mp hname
  cases hdeclare
  cases hresult
  constructor
  · intro name' v hlookup
    by_cases heq : name' = name
    · subst heq
      rw [List.lookup_cons_self] at hlookup
      cases hlookup
      exact List.mem_append_right _ (List.mem_singleton_self _)
    · rw [List.lookup_cons, beq_false_of_ne heq] at hlookup
      exact List.mem_append_left _ (hbefore.mem name' v hlookup)
  · refine List.forall_mem_append.mpr ⟨fun v hv => ?_, List.forall_mem_singleton.mpr ?_⟩
    · exact List.mem_append_right _ (hbefore.taken v hv)
    · exact List.mem_append_left _ (List.mem_singleton_self _)

/-- Handing out more names keeps the parameters. -/
theorem DeclaredIn.fresh {params : ParamMap} {b : FunctionBuilder} (h : params.DeclaredIn b) (hint : String) :
    params.DeclaredIn ((FunctionBuilder.fresh hint).run b).2 :=
  ⟨h.mem, fun v hv => List.mem_cons_of_mem _ (h.taken v hv)⟩

end ParamMap

namespace Expr

/-! ## Nodes -/

/-- The name of an input. -/
def inputName? : Expr → Option String
  | tensorInput name .. | scalarInput name _ => some name
  | _ => none

/-- Whether a node is rebuilt from its parts when it is lowered. -/
def isPlain : Expr → Bool
  | tensorInput .. | scalarInput .. | compute .. | reduce .. => false
  | _ => true

variable {params : ParamMap} {b b' : FunctionBuilder} {e value : Expr} {d : DType}

theorem scalarDType_eq_ok_iff : e.scalarDType = .ok d ↔ e.HasDType d := by
  rw [scalarDType, HasDType, bind_eq_ok_iff]
  constructor
  · rintro ⟨ty, hty, hd⟩
    split at hd
    · cases hd
      exact hty
    · cases hd
  · intro h
    exact ⟨_, h, rfl⟩

theorem lower_of_isPlain (h : e.isPlain) :
    e.lower params = (do
      let parts ← lowerAll params e.children
      pure ⟨parts.prelude, e.withChildren parts.value⟩) := by
  cases e with
  | tensorInput | scalarInput | compute | reduce => cases h
  | _ => simp [lower, lowerAll, children, withChildren, List.append_assoc]

theorem lower_eq_ok_of_isPlain (h : e.isPlain) {lowered : Lowered Expr} :
    e.lower params b = .ok (lowered, b') ↔
      ∃ parts, lowerAll params e.children b = .ok (parts, b') ∧
        lowered = ⟨parts.prelude, e.withChildren parts.value⟩ := by
  rw [lower_of_isPlain h, CodegenM.bind_eq_ok_iff]
  constructor
  · rintro ⟨parts, b₁, hparts, hresult⟩
    cases hresult
    exact ⟨parts, hparts, rfl⟩
  · rintro ⟨parts, hparts, rfl⟩
    exact ⟨parts, b', hparts, rfl⟩

theorem lower_input_eq_ok {name : String} (h : e.inputName? = some name) {lowered : Lowered Expr}
    (hlower : e.lower params b = .ok (lowered, b')) :
    ∃ v, params.lookup name = some v ∧ lowered = ⟨[], .var v⟩ ∧ b' = b := by
  have hread : ∃ e b₁, (liftM (params.read name) : CodegenM Expr) b = .ok (e, b₁) ∧
      (pure ⟨[], e⟩ : CodegenM (Lowered Expr)) b₁ = .ok (lowered, b') := by
    cases e with
    | tensorInput name' | scalarInput name' =>
      cases h
      rw [lower] at hlower
      exact CodegenM.bind_eq_ok_iff.mp hlower
    | _ => cases h
  obtain ⟨e, b₁, hlift, hresult⟩ := hread
  obtain ⟨hparam, rfl⟩ := CodegenM.lift_eq_ok_iff.mp hlift
  cases hresult
  rw [ParamMap.read] at hparam
  split at hparam
  · rename_i v hlookup
    cases hparam
    exact ⟨v, hlookup, rfl, rfl⟩
  · cases hparam

theorem lower_reduce_eq_ok {kind : ReduceKind} {shape : List Expr} {axes : List Var} {lowered : Lowered Expr}
    (hlower : (reduce kind shape axes value).lower params b = .ok (lowered, b')) :
    ∃ d acc combined divide, value.HasDType d ∧ acc = ⟨freshName b.taken "acc", .ofDType d⟩ ∧
      value.lower params (b.withLocals [acc]) = .ok (combined, b') ∧ Reduction.divide kind d acc shape = .ok divide ∧
        lowered = ⟨[Reduction.toStmt kind d acc shape axes combined divide], .var acc⟩ := by
  rw [lower] at hlower
  obtain ⟨d, b₁, hdtype, hrest⟩ := CodegenM.bind_eq_ok_iff.mp hlower
  obtain ⟨hd, rfl⟩ := CodegenM.lift_eq_ok_iff.mp hdtype
  obtain ⟨acc, b₂, hdeclare, hrest⟩ := CodegenM.bind_eq_ok_iff.mp hrest
  obtain ⟨combined, b₃, hvalue, hrest⟩ := CodegenM.bind_eq_ok_iff.mp hrest
  obtain ⟨divide, b₄, hlift, hresult⟩ := CodegenM.bind_eq_ok_iff.mp hrest
  obtain ⟨hdivide, rfl⟩ := CodegenM.lift_eq_ok_iff.mp hlift
  cases hresult
  cases hdeclare
  exact ⟨d, _, combined, divide, scalarDType_eq_ok_iff.mp hd, rfl, hvalue, hdivide, rfl⟩

end Expr

/-! ## The relation -/

/-- `Lowers params b es prelude values accs`: the function under construction `b` lowers the expressions `es` to the
`values` behind the statements `prelude`, which fill the new local variables `accs`. -/
inductive Lowers (params : ParamMap) :
    FunctionBuilder → List Expr → (prelude : List Stmt) → (values : List Expr) → (accs : List Var) → Prop
  | nil (b : FunctionBuilder) : Lowers params b [] [] [] []
  | input {b : FunctionBuilder} {e : Expr} {name : String} {v : Var} {es values : List Expr} {prelude : List Stmt}
      {accs : List Var} (hname : e.inputName? = some name) (hparam : params.lookup name = some v)
      (hrest : Lowers params b es prelude values accs) : Lowers params b (e :: es) prelude (.var v :: values) accs
  | node {b : FunctionBuilder} {e : Expr} {es values values' : List Expr} {prelude prelude' : List Stmt}
      {accs accs' : List Var} (hplain : e.isPlain) (hparts : Lowers params b e.children prelude values accs)
      (hrest : Lowers params (b.withLocals accs) es prelude' values' accs') :
      Lowers params b (e :: es) (prelude ++ prelude') (e.withChildren values :: values') (accs ++ accs')
  | reduce {b : FunctionBuilder} {kind : ReduceKind} {shape : List Expr} {axes : List Var} {value combined : Expr}
      {d : DType} {acc : Var} {divide : List Stmt} {es values' : List Expr} {prelude prelude' : List Stmt}
      {accs accs' : List Var} (hd : value.HasDType d) (hacc : acc = ⟨freshName b.taken "acc", .ofDType d⟩)
      (hvalue : Lowers params (b.withLocals [acc]) [value] prelude [combined] accs)
      (hdivide : Reduction.divide kind d acc shape = .ok divide)
      (hrest : Lowers params (b.withLocals (acc :: accs)) es prelude' values' accs') :
      Lowers params b (.reduce kind shape axes value :: es)
        (Reduction.toStmt kind d acc shape axes ⟨prelude, combined⟩ divide :: prelude') (.var acc :: values')
        (acc :: accs ++ accs')

namespace Lowers

variable {params : ParamMap} {b : FunctionBuilder} {es values : List Expr} {prelude : List Stmt} {accs : List Var}

/-- The local variables are new. -/
theorem not_mem_taken (h : Lowers params b es prelude values accs) : ∀ v ∈ accs, v.name ∉ b.taken := by
  induction h with
  | nil => exact nofun
  | input _ _ _ ih => exact ih
  | node _ _ _ ihparts ihrest =>
    intro v hv
    rcases List.mem_append.mp hv with hv | hv
    · exact ihparts v hv
    · exact fun hmem => ihrest v hv (FunctionBuilder.mem_taken_withLocals.mpr (.inr hmem))
  | reduce _ hacc _ _ _ ihvalue ihrest =>
    intro v hv
    rcases List.mem_append.mp hv with hv | hv
    · rcases List.mem_cons.mp hv with rfl | hv
      · rw [hacc]
        exact freshName_not_mem _ _
      · exact fun hmem => ihvalue v hv (FunctionBuilder.mem_taken_withLocals.mpr (.inr hmem))
    · exact fun hmem => ihrest v hv (FunctionBuilder.mem_taken_withLocals.mpr (.inr hmem))

/-- Those of later values are other ones. -/
theorem not_mem_of_rest {accs' : List Var} (hrest : Lowers params (b.withLocals accs') es prelude values accs)
    {x : String} (hx : x ∈ accs.map Var.name) : x ∉ accs'.map Var.name := by
  obtain ⟨v, hv, rfl⟩ := List.mem_map.mp hx
  exact fun hmem => hrest.not_mem_taken v hv (FunctionBuilder.mem_taken_withLocals.mpr (.inl hmem))

theorem nodup_names (h : Lowers params b es prelude values accs) : (accs.map Var.name).Nodup := by
  induction h with
  | nil => exact List.nodup_nil
  | input _ _ _ ih => exact ih
  | node _ _ hrest ihparts ihrest =>
    rw [List.map_append]
    exact List.nodup_append.mpr
      ⟨ihparts, ihrest, fun x hx y hy heq => hrest.not_mem_of_rest hy (heq ▸ hx)⟩
  | reduce _ _ hvalue _ hrest ihvalue ihrest =>
    rw [List.map_append, List.map_cons]
    have hfirst := List.nodup_cons.mpr ⟨fun hmem => hvalue.not_mem_of_rest hmem (List.mem_singleton_self _), ihvalue⟩
    exact List.nodup_append.mpr
      ⟨hfirst, ihrest, fun x hx y hy heq => hrest.not_mem_of_rest hy (heq ▸ hx)⟩

/-- They are called `acc`, or `acc` with a number behind it. -/
theorem name_cases (h : Lowers params b es prelude values accs) :
    ∀ v ∈ accs, v.name = "acc" ∨ ∃ k : Nat, v.name = "acc" ++ "_" ++ toString (k + 1) := by
  induction h with
  | nil => exact nofun
  | input _ _ _ ih => exact ih
  | node _ _ _ ihparts ihrest => exact List.forall_mem_append.mpr ⟨ihparts, ihrest⟩
  | reduce _ hacc _ _ _ ihvalue ihrest =>
    refine List.forall_mem_append.mpr ⟨List.forall_mem_cons.mpr ⟨?_, ihvalue⟩, ihrest⟩
    rw [hacc]
    exact (freshName_cases _ _).2

end Lowers

/-! ## What `lower` gives -/

namespace Expr

variable {params : ParamMap}

/-- Whether lowering an expression in front of others is related to what it gives. -/
def LowersInFront (params : ParamMap) (e : Expr) : Prop :=
  ∀ {b b' : FunctionBuilder} {lowered : Lowered Expr}, e.lower params b = .ok (lowered, b') →
    ∃ accs, b' = b.withLocals accs ∧
      ∀ {es values : List Expr} {prelude : List Stmt} {accs' : List Var},
        Lowers params (b.withLocals accs) es prelude values accs' →
          Lowers params b (e :: es) (lowered.prelude ++ prelude) (lowered.value :: values) (accs ++ accs')

theorem lowers_lowerAll {es : List Expr} (hes : ∀ e ∈ es, LowersInFront params e) {b b' : FunctionBuilder}
    {lowered : Lowered (List Expr)} (h : lowerAll params es b = .ok (lowered, b')) :
    ∃ accs, b' = b.withLocals accs ∧ Lowers params b es lowered.prelude lowered.value accs := by
  induction es generalizing b lowered with
  | nil =>
    rw [lowerAll] at h
    cases h
    exact ⟨[], (FunctionBuilder.withLocals_nil _).symm, .nil _⟩
  | cons e es ih =>
    rw [lowerAll] at h
    obtain ⟨first, b₁, hfirst, h⟩ := CodegenM.bind_eq_ok_iff.mp h
    obtain ⟨rest, b₂, hrest, hresult⟩ := CodegenM.bind_eq_ok_iff.mp h
    cases hresult
    obtain ⟨accs, rfl, hcons⟩ := hes e List.mem_cons_self hfirst
    obtain ⟨accs', rfl, hlowers⟩ := ih (fun e he => hes e (List.mem_cons_of_mem _ he)) hrest
    exact ⟨accs ++ accs', b.withLocals_append accs accs', hcons hlowers⟩

theorem lowersInFront (e : Expr) : LowersInFront params e := by
  induction e using Expr.induct with
  | node e ih =>
    intro b b' lowered h
    by_cases hplain : e.isPlain
    · obtain ⟨parts, hparts, rfl⟩ := (lower_eq_ok_of_isPlain hplain).mp h
      obtain ⟨accs, rfl, hlowers⟩ := lowers_lowerAll ih hparts
      exact ⟨accs, rfl, fun hrest => .node hplain hlowers hrest⟩
    · cases e with
      | tensorInput | scalarInput =>
        obtain ⟨v, hparam, rfl, rfl⟩ := lower_input_eq_ok rfl h
        refine ⟨[], b'.withLocals_nil.symm, fun hrest => ?_⟩
        rw [FunctionBuilder.withLocals_nil] at hrest
        exact .input rfl hparam hrest
      | compute =>
        rw [lower] at h
        cases h
      | reduce kind shape axes value =>
        obtain ⟨d, acc, combined, divide, hd, hacc, hvalue, hdivide, rfl⟩ := lower_reduce_eq_ok h
        obtain ⟨accs, rfl, hlowers⟩ := ih value (by simp [children]) hvalue
        have hcombined := hlowers (.nil _)
        rw [List.append_nil, List.append_nil] at hcombined
        refine ⟨acc :: accs, FunctionBuilder.withLocals_append b [acc] accs, fun hrest => ?_⟩
        exact .reduce hd hacc hcombined hdivide hrest
      | _ => exact absurd rfl hplain

/-- Lowering a value only adds local variables, and what it gives is related to the value. -/
theorem exists_lowers {e : Expr} {b b' : FunctionBuilder} {lowered : Lowered Expr}
    (h : e.lower params b = .ok (lowered, b')) :
    ∃ accs, b' = b.withLocals accs ∧ Lowers params b [e] lowered.prelude [lowered.value] accs := by
  obtain ⟨accs, hb', hcons⟩ := lowersInFront e h
  have hlowers := hcons (.nil _)
  rw [List.append_nil, List.append_nil] at hlowers
  exact ⟨accs, hb', hlowers⟩

end Expr

namespace GridKernel

/-- The steps that lead to a kernel. -/
theorem exists_of_kernel {task : Task} {f : Function} (h : kernel task = .ok f) :
    ∃ shape params b out thread lowered b', task.computation.constShape? = some shape ∧
      ParamMap.declare task ⟨{ name := task.name, worker := task.worker, label := some key }, []⟩ = .ok (params, b) ∧
        params.lookup task.computation.name = some out ∧ thread = ⟨freshName b.taken "tid", .ofDType .int32⟩ ∧
          task.computation.value.lower params { b with taken := thread.name :: b.taken } = .ok (lowered, b') ∧
            f = { b'.function with body := body task.worker task.computation shape out thread lowered } := by
  rw [kernel] at h
  split at h
  · cases h
  · rename_i shape hshape
    obtain ⟨⟨⟨⟩, built⟩, hemit, hresult⟩ := bind_eq_ok_iff.mp h
    cases hresult
    obtain ⟨⟨⟩, b₁, hlabel, hrest⟩ := CodegenM.bind_eq_ok_iff.mp hemit
    cases hlabel
    obtain ⟨params, b₂, hdeclare, hrest⟩ := CodegenM.bind_eq_ok_iff.mp hrest
    obtain ⟨out, b₃, hlookup, hrest⟩ := CodegenM.bind_eq_ok_iff.mp hrest
    obtain ⟨hout, rfl⟩ := CodegenM.ofOption_eq_ok_iff.mp hlookup
    obtain ⟨thread, b₄, hfresh, hrest⟩ := CodegenM.bind_eq_ok_iff.mp hrest
    cases hfresh
    obtain ⟨lowered, b₅, hlower, hbody⟩ := CodegenM.bind_eq_ok_iff.mp hrest
    cases hbody
    exact ⟨shape, params, b₂, out, _, lowered, b₅, hshape, hdeclare, hout, rfl, hlower, rfl⟩

end GridKernel

end TensorCompiler
