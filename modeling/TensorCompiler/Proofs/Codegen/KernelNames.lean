import TensorCompiler.Proofs.Codegen.Hoisting
import TensorCompiler.Proofs.Codegen.IndexArithmetic
import TensorCompiler.Proofs.Codegen.Selection

/-! # Names in kernels

A kernel for a grid brings names of its own next to those of its task: one for the number of the thread and one for each
accumulator. The function under construction hands them out, so they differ from each other and from the names of the
parameters. It does not know the axes, which are bound by the statements of the body alone; a task whose axes keep away
from the names that are handed out has a kernel in which every name means what it meant in the task.
-/

namespace TensorCompiler

namespace Expr

/-- The axes of the reductions in an expression. -/
def reductionAxes (e : Expr) : List Var :=
  e.preorder.flatMap fun node =>
    match node with
    | reduce _ _ axes _ => axes
    | _ => []

theorem mem_reductionAxes {e : Expr} {kind : ReduceKind} {shape : List Expr} {axes : List Var} {value : Expr} {v : Var}
    (h : reduce kind shape axes value ∈ e.preorder) (hv : v ∈ axes) : v ∈ e.reductionAxes :=
  List.mem_flatMap.mpr ⟨_, h, hv⟩

end Expr

/-- The names that the parameters of a task have. -/
def Task.paramNames (task : Task) : List String :=
  task.params.filterMap Expr.nodeName?

/-- Whether the parameters, the axes and the axes of the reductions of a task have different names. Several reductions may
be over one axis. -/
structure Task.HasDistinctNames (task : Task) : Prop where
  nodup : (task.paramNames ++ task.computation.axes.map Var.name).Nodup
  apart : ∀ v ∈ task.computation.value.reductionAxes, v.name ∉ task.paramNames ++ task.computation.axes.map Var.name
  injective : ∀ v ∈ task.computation.value.reductionAxes, ∀ w ∈ task.computation.value.reductionAxes,
    v.name = w.name → v = w

/-- A parameter has the name of no axis. -/
theorem Task.HasDistinctNames.not_mem_axes {task : Task} (h : task.HasDistinctNames) {x : String}
    (hx : x ∈ task.paramNames) :
    x ∉ task.computation.axes.map Var.name ∧ x ∉ task.computation.value.reductionAxes.map Var.name := by
  obtain ⟨-, -, hapart⟩ := List.nodup_append.mp h.nodup
  refine ⟨fun hmem => hapart x hx x hmem rfl, fun hmem => ?_⟩
  obtain ⟨v, hv, rfl⟩ := List.mem_map.mp hmem
  exact h.apart v hv (List.mem_append_left _ hx)

/-- Declaring parameters declares nothing else, and under the names of the nodes. -/
theorem ParamMap.declare_keeps {task : Task} {params : ParamMap} {b b' : FunctionBuilder}
    (h : declare task b = .ok (params, b')) :
    b'.function.locals = b.function.locals ∧
      ∀ v ∈ b'.function.params, v ∈ b.function.params ∨ v.name ∈ task.paramNames := by
  refine CodegenM.foldlM_invariant (P := fun _ b' => b'.function.locals = b.function.locals ∧
    ∀ v ∈ b'.function.params, v ∈ b.function.params ∨ v.name ∈ task.paramNames)
    (fun entry hentry params params' b₁ b₂ hbefore hstep => ?_) ⟨rfl, fun v hv => .inl hv⟩ h
  obtain ⟨name, b₃, hname, hrest⟩ := CodegenM.bind_eq_ok_iff.mp hstep
  obtain ⟨⟨⟩, b₄, hdeclare, hresult⟩ := CodegenM.bind_eq_ok_iff.mp hrest
  obtain ⟨hfound, rfl⟩ := CodegenM.ofOption_eq_ok_iff.mp hname
  cases hdeclare
  cases hresult
  refine ⟨hbefore.1, List.forall_mem_append.mpr ⟨hbefore.2, List.forall_mem_singleton.mpr (.inr ?_)⟩⟩
  exact List.mem_filterMap.mpr ⟨entry.1, (List.of_mem_zip hentry).1, hfound⟩

/-! ## Where a kernel uses names -/

namespace GridKernel

/-- The bindings of the axes to their coordinates, the innermost one first. -/
def axisScopes (axes : List Var) (thread : Var) (shape : List Int64) : List Scope :=
  ((axes.zip (unravel (.var thread) shape)).map fun entry => Scope.letIn entry.1 entry.2).reverse

/-- The number of a thread in its grid. -/
def threadNumber (worker : Worker) : Expr :=
  Primitive.blockIdx * blockDim worker + Primitive.threadIdx

theorem freeNames_threadNumber (worker : Worker) : (threadNumber worker).freeNames = [] := by
  unfold threadNumber blockDim
  split <;> rfl

theorem closedUnderArithmetic_freeNames (name : String) :
    Expr.ClosedUnderArithmetic fun e => ∀ x ∈ e.freeNames, x = name where
  int n x hx := by
    rw [Expr.int, Expr.freeNames, Expr.freeVars] at hx
    cases hx
  binary _ hl hr x hx := by
    rw [Expr.freeNames, Expr.freeVars, List.map_append] at hx
    exact (List.mem_append.mp hx).elim (hl x) (hr x)

variable {x : String} {scopes : List Scope}

/-- A use in the body of a kernel is one of the thread's number, or inside of the bindings of all the axes, and then in the
value or in the loops of its reductions. -/
theorem uses_body {worker : Worker} {c : TensorCompute} {shape : List Int64} {out thread : Var} {lowered : Lowered Expr}
    {params : ParamMap} {b : FunctionBuilder} {accs : List Var}
    (hlowers : Lowers params b [c.value] lowered.prelude [lowered.value] accs)
    (h : (body worker c shape out thread lowered).Uses x scopes) :
    ∃ inner outer, scopes = inner ++ outer ++ [.letIn thread (threadNumber worker)] ∧
      (inner = [] ∧ x = thread.name ∧ (∀ scope ∈ outer, scope ∈ axisScopes c.axes thread shape) ∨
        (∀ scope ∈ inner, scope.IsLoopOver c.value.reductionAxes) ∧ outer = axisScopes c.axes thread shape) := by
  rw [body_eq] at h
  rcases Stmt.uses_letIn_iff.mp h with ⟨rfl, hx⟩ | ⟨scopes, hguarded, rfl⟩
  · have hnone : x ∈ (threadNumber worker).freeNames := hx
    rw [freeNames_threadNumber] at hnone
    cases hnone
  rcases Stmt.uses_ifThen_iff.mp hguarded with ⟨rfl, hx⟩ | helement
  · -- the test that there is an element
    have hthread : x = thread.name := by
      simpa [Expr.lt, Expr.freeNames, Expr.freeVars, Expr.int] using hx
    exact ⟨[], [], rfl, .inl ⟨rfl, hthread, List.forall_mem_nil _⟩⟩
  obtain ⟨inner, outer, rfl, huse⟩ := Stmt.uses_lets helement
  refine ⟨inner, outer, rfl, ?_⟩
  rcases huse with ⟨rfl, ⟨e, he, hx⟩, houter⟩ | ⟨hinside, rfl⟩
  · have hflat : ∀ x ∈ (Expr.var thread).freeNames, x = thread.name := by
      rw [Expr.freeNames_var]
      exact List.forall_mem_singleton.mpr rfl
    have hthread := (closedUnderArithmetic_freeNames thread.name).unravelFrom hflat true _ shape e he x hx
    exact .inl ⟨rfl, hthread, fun scope hscope => List.mem_reverse.mpr (houter scope hscope)⟩
  · refine .inr ⟨fun scope hscope => ?_, rfl⟩
    obtain ⟨s, hs, huse⟩ := Stmt.uses_block_iff.mp hinside
    rcases List.mem_append.mp hs with hs | hs
    · obtain ⟨e, he, kind, shape', axes, value, hmem, v, hv, hloop⟩ := hlowers.isLoopOver_of_uses hs huse hscope
      rw [List.mem_singleton.mp he] at hmem
      exact ⟨v, Expr.mem_reductionAxes hmem hv, hloop⟩
    · -- the store is in no loop
      rw [List.mem_singleton.mp hs] at huse
      rcases Stmt.uses_iff.mp huse with ⟨rfl, -⟩ | ⟨_, hchild, -⟩
      · cases hscope
      · cases hchild

/-! ## What the names mean -/

/-- Whether a name is one of those that a kernel may get for its own variables. -/
def IsHandedOut (name : String) : Prop :=
  ∃ hint, (hint = "tid" ∨ hint = "acc") ∧ (name = hint ∨ ∃ k : Nat, name = hint ++ "_" ++ toString (k + 1))

theorem IsHandedOut.take_three {name : String} (h : IsHandedOut name) :
    name.toList.take 3 = ['t', 'i', 'd'] ∨ name.toList.take 3 = ['a', 'c', 'c'] := by
  obtain ⟨hint, rfl | rfl, rfl | ⟨k, rfl⟩⟩ := h <;> simp

section

variable {params : ParamMap} {b : FunctionBuilder} {thread : Var} {es values : List Expr} {prelude : List Stmt}
  {accs : List Var}

/-- The variables that a kernel gets for itself have the names for these, and none that were taken. -/
theorem isHandedOut_of_mem (hthread : thread.name = freshName b.taken "tid")
    (hlowers : Lowers params { b with taken := thread.name :: b.taken } es prelude values accs) :
    ∀ v ∈ thread :: accs, IsHandedOut v.name ∧ v.name ∉ b.taken := by
  refine List.forall_mem_cons.mpr ⟨?_, fun v hv => ⟨⟨"acc", .inr rfl, hlowers.name_cases v hv⟩, fun hmem => ?_⟩⟩
  · rw [hthread]
    exact ⟨⟨"tid", .inl rfl, (freshName_cases _ _).2⟩, freshName_not_mem _ _⟩
  · exact hlowers.not_mem_taken v hv (List.mem_cons_of_mem _ hmem)

theorem nodup_names (hlowers : Lowers params { b with taken := thread.name :: b.taken } es prelude values accs) :
    ((thread :: accs).map Var.name).Nodup := by
  rw [List.map_cons, List.nodup_cons]
  refine ⟨fun hmem => ?_, hlowers.nodup_names⟩
  obtain ⟨v, hv, heq⟩ := List.mem_map.mp hmem
  exact hlowers.not_mem_taken v hv (heq ▸ List.mem_cons_self)

end

/-- Whether the names in a kernel mean what they stand for. The kernel's own variables have names of their own. A use of
the thread's number is bound to that number, a use of an axis to the coordinate of the axis, and a use of the axis of a
reduction by a loop over it, if at all; what a parameter or a local variable is called is bound by nothing. -/
structure NamesResolve (task : Task) (f : Function) (shape : List Int64) (thread : Var) : Prop where
  body : ∃ inner, f.body = .letIn thread (threadNumber task.worker) inner
  distinct : ((thread :: f.locals).map Var.name).Nodup
  own : ∀ v ∈ thread :: f.locals,
    v.name ∉ (f.params ++ task.computation.axes ++ task.computation.value.reductionAxes).map Var.name
  number : ∀ scopes, f.body.Uses thread.name scopes →
    scopes.find? (Scope.binds thread.name) = some (.letIn thread (threadNumber task.worker))
  axes : ∀ entry ∈ task.computation.axes.zip (unravel (.var thread) shape), ∀ scopes, f.body.Uses entry.1.name scopes →
    scopes.find? (Scope.binds entry.1.name) = some (.letIn entry.1 entry.2)
  reductionAxes : ∀ v ∈ task.computation.value.reductionAxes, ∀ scopes, f.body.Uses v.name scopes →
    ∀ scope, scopes.find? (Scope.binds v.name) = some scope → ∃ extent, scope = .forRange v extent none
  declared : ∀ v ∈ f.params ++ f.locals, ∀ scopes, f.body.Uses v.name scopes →
    scopes.find? (Scope.binds v.name) = none

/-- Axes of different names are bound once. -/
theorem eq_of_mem_zip {axes : List Var} {values : List Expr} (hnodup : (axes.map Var.name).Nodup) {a b : Var × Expr}
    (ha : a ∈ axes.zip values) (hb : b ∈ axes.zip values) (hname : a.1.name = b.1.name) : a = b := by
  induction axes generalizing values with
  | nil => cases ha
  | cons v axes ih =>
    cases values with
    | nil => cases ha
    | cons value values =>
      rw [List.map_cons, List.nodup_cons] at hnodup
      have hother {c : Var × Expr} (hc : c ∈ axes.zip values) : c.1.name ≠ v.name := by
        intro heq
        exact hnodup.1 (heq ▸ List.mem_map_of_mem (List.of_mem_zip hc).1)
      rcases List.mem_cons.mp ha with rfl | ha
      · rcases List.mem_cons.mp hb with rfl | hb
        · rfl
        · exact absurd hname.symm (hother hb)
      · rcases List.mem_cons.mp hb with rfl | hb
        · exact absurd hname (hother ha)
        · exact ih hnodup.2 ha hb

section

variable {axes : List Var} {thread : Var} {shape : List Int64} {worker : Worker} {inner outer : List Scope}

theorem find?_loops (hinner : ∀ scope ∈ inner, scope.IsLoopOver axes) (hx : x ∉ axes.map Var.name) :
    inner.find? (Scope.binds x) = none := by
  refine List.find?_eq_none.mpr fun scope hscope hbinds => hx ?_
  obtain ⟨v, hv, extent, rfl⟩ := hinner scope hscope
  exact List.mem_map.mpr ⟨v, hv, eq_of_beq hbinds⟩

theorem find?_axisScopes_of_not_mem (houter : ∀ scope ∈ outer, scope ∈ axisScopes axes thread shape)
    (hx : x ∉ axes.map Var.name) : outer.find? (Scope.binds x) = none := by
  refine List.find?_eq_none.mpr fun scope hscope hbinds => hx ?_
  obtain ⟨entry, hentry, rfl⟩ := List.mem_map.mp (List.mem_reverse.mp (houter scope hscope))
  exact List.mem_map.mpr ⟨entry.1, (List.of_mem_zip hentry).1, eq_of_beq hbinds⟩

theorem find?_axisScopes (hnodup : (axes.map Var.name).Nodup) {entry : Var × Expr}
    (hentry : entry ∈ axes.zip (unravel (.var thread) shape)) :
    (axisScopes axes thread shape).find? (Scope.binds entry.1.name) = some (.letIn entry.1 entry.2) := by
  have hmem : Scope.letIn entry.1 entry.2 ∈ axisScopes axes thread shape :=
    List.mem_reverse.mpr (List.mem_map.mpr ⟨entry, hentry, rfl⟩)
  cases hfound : (axisScopes axes thread shape).find? (Scope.binds entry.1.name) with
  | none => exact absurd (beq_self_eq_true entry.1.name) (List.find?_eq_none.mp hfound _ hmem)
  | some scope =>
    obtain ⟨entry', hentry', rfl⟩ := List.mem_map.mp (List.mem_reverse.mp (List.mem_of_find?_eq_some hfound))
    have hbinds : Scope.binds entry.1.name (.letIn entry'.1 entry'.2) := List.find?_some hfound
    have hname : entry'.1.name = entry.1.name := eq_of_beq hbinds
    rw [eq_of_mem_zip hnodup hentry' hentry hname]

end

section

variable {c : TensorCompute} {out thread : Var} {lowered : Lowered Expr} {params : ParamMap} {b : FunctionBuilder}
  {accs : List Var} {worker : Worker} {shape : List Int64}

/-- The innermost scope of a use that binds the name: a loop of a reduction, else the binding of an axis, else that of the
thread's number. -/
theorem find?_of_uses_body (hlowers : Lowers params b [c.value] lowered.prelude [lowered.value] accs)
    (h : (body worker c shape out thread lowered).Uses x scopes) :
    ∃ inner outer : List Scope, (∀ scope ∈ inner, scope.IsLoopOver c.value.reductionAxes) ∧
      (∀ scope ∈ outer, scope ∈ axisScopes c.axes thread shape) ∧
        (x ≠ thread.name → outer = axisScopes c.axes thread shape) ∧
          scopes.find? (Scope.binds x) = ((inner.find? (Scope.binds x)).or (outer.find? (Scope.binds x))).or
            (if thread.name = x then some (.letIn thread (threadNumber worker)) else none) := by
  obtain ⟨inner, outer, rfl, hcase⟩ := uses_body hlowers h
  have hfound : (inner ++ outer ++ [Scope.letIn thread (threadNumber worker)]).find? (Scope.binds x) =
      ((inner.find? (Scope.binds x)).or (outer.find? (Scope.binds x))).or
        (if thread.name = x then some (.letIn thread (threadNumber worker)) else none) := by
    rw [List.find?_append, List.find?_append, List.find?_singleton]
    simp only [Scope.binds, beq_iff_eq]
  rcases hcase with ⟨rfl, hx, houter⟩ | ⟨hinner, rfl⟩
  · exact ⟨[], outer, List.forall_mem_nil _, houter, fun hne => absurd hx hne, hfound⟩
  · exact ⟨inner, _, hinner, fun _ hscope => hscope, fun _ => rfl, hfound⟩

/-- A name of neither kind of axes is bound as the thread's number or not at all. -/
theorem find?_own (hlowers : Lowers params b [c.value] lowered.prelude [lowered.value] accs)
    (h : (body worker c shape out thread lowered).Uses x scopes) (haxes : x ∉ c.axes.map Var.name)
    (hred : x ∉ c.value.reductionAxes.map Var.name) :
    scopes.find? (Scope.binds x) = if thread.name = x then some (.letIn thread (threadNumber worker)) else none := by
  obtain ⟨inner, outer, hinner, houter, -, hfound⟩ := find?_of_uses_body hlowers h
  rw [hfound, find?_loops hinner hred, find?_axisScopes_of_not_mem houter haxes, Option.none_or, Option.none_or]

/-- An axis is bound to its coordinate. -/
theorem find?_axis (hlowers : Lowers params b [c.value] lowered.prelude [lowered.value] accs) {entry : Var × Expr}
    (h : (body worker c shape out thread lowered).Uses entry.1.name scopes) (hnodup : (c.axes.map Var.name).Nodup)
    (hentry : entry ∈ c.axes.zip (unravel (.var thread) shape)) (hthread : entry.1.name ≠ thread.name)
    (hred : entry.1.name ∉ c.value.reductionAxes.map Var.name) :
    scopes.find? (Scope.binds entry.1.name) = some (.letIn entry.1 entry.2) := by
  obtain ⟨inner, outer, hinner, -, houter, hfound⟩ := find?_of_uses_body hlowers h
  rw [hfound, find?_loops hinner hred, houter hthread, find?_axisScopes hnodup hentry, Option.none_or, Option.some_or]

/-- The axis of a reduction is bound by a loop over it, or not at all. -/
theorem find?_reductionAxis (hlowers : Lowers params b [c.value] lowered.prelude [lowered.value] accs) {v : Var}
    (h : (body worker c shape out thread lowered).Uses v.name scopes)
    (hinjective : ∀ w ∈ c.value.reductionAxes, w.name = v.name → w = v)
    (haxes : v.name ∉ c.axes.map Var.name) (hthread : thread.name ≠ v.name) {scope : Scope}
    (hscope : scopes.find? (Scope.binds v.name) = some scope) : ∃ extent, scope = .forRange v extent none := by
  obtain ⟨inner, outer, hinner, houter, -, hfound⟩ := find?_of_uses_body hlowers h
  rw [hfound, find?_axisScopes_of_not_mem houter haxes, if_neg hthread, Option.or_none, Option.or_none] at hscope
  obtain ⟨w, hw, extent, rfl⟩ := hinner scope (List.mem_of_find?_eq_some hscope)
  have hbinds : Scope.binds v.name (.forRange w extent none) := List.find?_some hscope
  have hname : w.name = v.name := eq_of_beq hbinds
  exact ⟨extent, by rw [hinjective w hw hname]⟩

end

/-- **The names in a kernel mean what they stand for.** -/
theorem namesResolve_kernel {task : Task} {f : Function} (h : kernel task = .ok f)
    (hdistinct : task.HasDistinctNames)
    (hkept : ∀ v ∈ task.computation.axes ++ task.computation.value.reductionAxes, ¬ IsHandedOut v.name) :
    ∃ shape thread, task.computation.constShape? = some shape ∧ NamesResolve task f shape thread := by
  obtain ⟨shape, params, b, out, thread, lowered, b', hshape, hdeclare, -, hthread, hlower, rfl⟩ := exists_of_kernel h
  obtain ⟨accs, rfl, hlowers⟩ := Expr.exists_lowers hlower
  have hempty (v : Var) (hv : v ∈ ([] : List Var)) : v.name ∈ ([] : List String) := absurd hv List.not_mem_nil
  have hparams : params.DeclaredIn b := ParamMap.declaredIn_of_declare hempty hdeclare
  obtain ⟨hlocals, hnames⟩ := ParamMap.declare_keeps hdeclare
  obtain ⟨-, hnodup, -⟩ := List.nodup_append.mp hdistinct.nodup
  have haccs : b.function.locals ++ accs = accs := by
    rw [hlocals, List.nil_append]
  -- the variables of the kernel's own
  have hhanded := isHandedOut_of_mem (congrArg Var.name hthread) hlowers
  have hne : ∀ v ∈ thread :: accs, ∀ w ∈ task.computation.axes ++ task.computation.value.reductionAxes,
      w.name ≠ v.name := fun v hv w hw heq => hkept w hw (heq ▸ (hhanded v hv).1)
  have hown : ∀ v ∈ thread :: accs, v.name ∉ task.computation.axes.map Var.name ∧
      v.name ∉ task.computation.value.reductionAxes.map Var.name := by
    intro v hv
    constructor
    all_goals
      intro hmem
      obtain ⟨w, hw, heq⟩ := List.mem_map.mp hmem
      exact hne v hv w (by simp [hw]) heq
  have hthreadParams : ∀ v ∈ b.function.params, thread.name ≠ v.name :=
    fun v hv heq => (hhanded thread List.mem_cons_self).2 (heq ▸ hparams.taken v hv)
  refine ⟨shape, thread, hshape, ?_⟩
  exact {
    body := ⟨_, body_eq _ _ _ _ _ _⟩
    distinct := by
      change ((thread :: (b.function.locals ++ accs)).map Var.name).Nodup
      rw [haccs]
      exact nodup_names hlowers
    own := by
      change ∀ v ∈ thread :: (b.function.locals ++ accs), _
      rw [haccs]
      intro v hv hmem
      obtain ⟨w, hw, heq⟩ := List.mem_map.mp hmem
      rw [List.append_assoc] at hw
      rcases List.mem_append.mp hw with hw | hw
      · exact (hhanded v hv).2 (heq ▸ hparams.taken w hw)
      · exact hne v hv w hw heq
    number := by
      intro scopes huse
      obtain ⟨haxes, hred⟩ := hown thread List.mem_cons_self
      rw [find?_own hlowers huse haxes hred, if_pos rfl]
    axes := by
      intro entry hentry scopes huse
      have haxis : entry.1 ∈ task.computation.axes := (List.of_mem_zip hentry).1
      refine find?_axis hlowers huse hnodup hentry ?_ fun hmem => ?_
      · exact hne thread List.mem_cons_self _ (List.mem_append_left _ haxis)
      · obtain ⟨w, hw, heq⟩ := List.mem_map.mp hmem
        exact hdistinct.apart w hw (List.mem_append_right _ (heq ▸ List.mem_map_of_mem haxis))
    reductionAxes := by
      intro v hv scopes huse scope hscope
      refine find?_reductionAxis hlowers huse (fun w hw => hdistinct.injective w hw v hv) ?_ ?_ hscope
      · exact fun hmem => hdistinct.apart v hv (List.mem_append_right _ hmem)
      · exact (hne thread List.mem_cons_self v (List.mem_append_right _ hv)).symm
    declared := by
      change ∀ v ∈ b.function.params ++ (b.function.locals ++ accs), _
      rw [haccs]
      intro v hv scopes huse
      rcases List.mem_append.mp hv with hv | hv
      · have hparam : v.name ∈ task.paramNames := (hnames v hv).resolve_left List.not_mem_nil
        obtain ⟨haxes, hred⟩ := hdistinct.not_mem_axes hparam
        rw [find?_own hlowers huse haxes hred, if_neg (hthreadParams v hv)]
      · obtain ⟨haxes, hred⟩ := hown v (List.mem_cons_of_mem _ hv)
        rw [find?_own hlowers huse haxes hred, if_neg]
        exact fun heq => hlowers.not_mem_taken v hv (heq ▸ List.mem_cons_self) }

theorem namesResolve_kernel_rowSums : ∃ f thread, kernel Registry.rowSums = .ok f ∧
    (f.locals.map Var.name = ["acc"] ∧ thread.name = "tid") ∧ NamesResolve Registry.rowSums f [4] thread := by
  have haxes : axisVars "k" 1 = [Var.axis "k" 0] := rfl
  have hreduction : Registry.rowSums.computation.value.reductionAxes = [Var.axis "k" 0] := by
    simp [Registry.rowSums, haxes, Expr.reductionAxes, Expr.preorder_eq, Expr.children, Expr.reduceOver,
      TensorInput.elementAt, TensorInput.toExpr, TensorInput.ofShape, Expr.ofShape, Expr.int]
  have hdistinct : Registry.rowSums.HasDistinctNames := by
    refine ⟨by decide, ?_, ?_⟩ <;> rw [hreduction]
    · exact List.forall_mem_singleton.mpr (by decide)
    · exact fun v hv w hw _ => (List.mem_singleton.mp hv).trans (List.mem_singleton.mp hw).symm
  have hkept : ∀ v ∈ Registry.rowSums.computation.axes ++ Registry.rowSums.computation.value.reductionAxes,
      ¬ IsHandedOut v.name := by
    rw [hreduction]
    intro v hv hhanded
    rcases List.mem_pair.mp hv with rfl | rfl <;> exact absurd hhanded.take_three (by decide)
  obtain ⟨f, hf, hlocals, hthread⟩ : ∃ f, kernel Registry.rowSums = .ok f ∧ f.locals.map Var.name = ["acc"] ∧
      ∃ value inner, f.body = .letIn (Var.int "tid") value inner := ⟨_, rfl, rfl, _, _, rfl⟩
  obtain ⟨shape, thread, hshape, hresolve⟩ := namesResolve_kernel hf hdistinct hkept
  cases hshape
  obtain ⟨value, inner, hbody⟩ := hthread
  obtain ⟨inner', hbody'⟩ := hresolve.body
  cases hbody.symm.trans hbody'
  exact ⟨f, _, hf, ⟨hlocals, rfl⟩, hresolve⟩

/-- A copy of two rows of three integers, the number of the row under the name that the thread's number gets. -/
def copyRows : Task :=
  let input := TensorInput.ofShape "t0" .int32 [2, 3]
  let axes := [Var.int "tid", Var.int "j"]
  let computation : TensorCompute := ⟨"t1", Expr.ofShape [2, 3], axes, input.elementAt (axes.map .var)⟩
  { name := "copy_rows"
    computation
    params := [input.toExpr, computation.toExpr]
    paramTypes := [input.globalType, .tensor (.ofShape .global .int32 [2, 3])]
    worker := .grid (some 1) (some 6) }

/-- The names of this task differ, but the kernel has a variable of its own by the name of an axis. The second coordinate
is then computed from the first one: the thread that is to copy the last element of the second row copies the one before. -/
theorem kernel_copyRows_captures_axis : ∃ f thread inner, kernel copyRows = .ok f ∧
    copyRows.HasDistinctNames ∧
    f.body = .letIn thread (threadNumber copyRows.worker) inner ∧
    (∃ v ∈ copyRows.computation.axes, v.name = thread.name) ∧
    (grid [2, 3])[5]? = some [1, 2] ∧
      ∃ r, f.runThread 6 (fun _ => .scalar (.int 0)) (fun _ => some (.int 7)) ⟨0, 5⟩ = some r ∧
        r.stores = [(("t1", []), [1, 1], .int 7)] := by
  have hnone : copyRows.computation.value.reductionAxes = [] := by
    simp [copyRows, Expr.reductionAxes, Expr.preorder_eq, Expr.children, TensorInput.elementAt, TensorInput.toExpr,
      TensorInput.ofShape, Expr.ofShape, Expr.int]
  have hdistinct : copyRows.HasDistinctNames := by
    refine ⟨by decide, ?_, ?_⟩ <;> rw [hnone]
    · exact List.forall_mem_nil _
    · exact List.forall_mem_nil _
  exact ⟨_, _, _, rfl, hdistinct, rfl, ⟨_, List.mem_cons_self, rfl⟩, rfl, _, rfl, rfl⟩

end GridKernel

end TensorCompiler
