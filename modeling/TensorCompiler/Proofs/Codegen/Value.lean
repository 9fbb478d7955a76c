import TensorCompiler.Proofs.Codegen.Lowers
import TensorCompiler.Proofs.Codegen.Reduction

/-! # Lowered values

Where the parameters of a function hold the addresses of buffers with the tensors, and the axes their coordinates, the
statements that lowering puts in front of a value run, and the value then gives what the evaluator gives for the
definition. The statements of one part of a value assign accumulators of their own, so they leave what another part has
collected.
-/

namespace TensorCompiler

/-- Whether a buffer holds an array, each element a float. -/
def Machine.Holds {Address Memory : Type} (M : Machine Address Memory) (memory : Memory) (buffer : Address)
    (a : NDArray) : Prop :=
  ∀ ns x, (∀ n ∈ ns, n < 2 ^ 63) → a.get? ns = some x →
    M.load memory (M.element buffer (ns.map Int64.ofNat)) = some (.scalar (.float x))

/-! ## What a definition is evaluated with -/

section

variable {Address Memory : Type} {M : Machine Address Memory} {address : String → Address} {tensors : Tensors}
  {reads : DType → String → List Int64 → Prop} {env : Env} {scope scope' : List String} {memory : Memory}
  {vars vars' : Vars Address}

/-- Whether a run has what a definition is evaluated with: the coordinates of the axes in scope, and behind the parameters
buffers that hold the tensors. -/
structure Supplies (M : Machine Address Memory) (address : String → Address) (tensors : Tensors)
    (reads : DType → String → List Int64 → Prop) (scope : List String) (env : Env) (memory : Memory)
    (vars : Vars Address) : Prop where
  axes : ∀ x ∈ scope, ∀ v, env.lookup x = some v → vars.lookup x = some (.scalar v)
  params : ∀ d name shape, reads d name shape → vars.lookup name = some (.address (address name))
  buffers : ∀ d name shape, reads d name shape → ∀ a, tensors.lookup name = some a → M.Holds memory (address name) a

/-- The tensors that may be read have the names that graphs give them, and the variables in scope those of axes. -/
structure Named (reads : DType → String → List Int64 → Prop) (scope : List String) : Prop where
  tensors : ∀ d name shape, reads d name shape → ∃ id : TensorId, name = id.name
  axes : ∀ x ∈ scope, IsAxis x

/-- More axes may come into scope. -/
theorem Named.append (h : Named reads scope) {axes : List Var} (haxes : ∀ v ∈ axes, IsAxis v.name) :
    Named reads (axes.map Var.name ++ scope) := by
  refine ⟨h.tensors, fun x hx => ?_⟩
  rcases List.mem_append.mp hx with hx | hx
  · obtain ⟨v, hv, rfl⟩ := List.mem_map.mp hx
    exact haxes v hv
  · exact h.axes x hx

/-- Tensors and the axes of an operator have the names that graphs give them. -/
theorem Operator.Computes.named_reads {k : ElementKind} {T : TensorTable} {op : Operator} {d : DType} {shape : List Int64}
    (h : op.Computes k T d shape) (ids : List TensorId) :
    Named (T.Reads ids) (op.computation.axes.map Var.name) := by
  refine ⟨?_, fun x hx => ?_⟩
  · rintro _ _ _ ⟨id, -, rfl, -⟩
    exact ⟨id, rfl⟩
  · obtain ⟨v, hv, rfl⟩ := List.mem_map.mp hx
    exact Or.inl (h.defines.axes v hv)

namespace Supplies

/-- Only the variables whose names are numbered count. -/
theorem congr (h : Supplies M address tensors reads scope env memory vars) (hnamed : Named reads scope)
    (hvars : ∀ x, IsNumbered x → vars'.lookup x = vars.lookup x) :
    Supplies M address tensors reads scope env memory vars' where
  axes x hx v hv := by
    rw [hvars x (hnamed.axes x hx).isNumbered]
    exact h.axes x hx v hv
  params d name shape hreads := by
    obtain ⟨id, rfl⟩ := hnamed.tensors d name shape hreads
    rw [hvars _ (isNumbered_tensorName id)]
    exact h.params d _ shape hreads
  buffers := h.buffers

/-- An axis may be bound to a coordinate. -/
theorem bind (h : Supplies M address tensors reads scope env memory vars) (hnamed : Named reads scope) {x : String}
    (hx : IsAxis x) (n : Int64) :
    Supplies M address tensors reads (x :: scope) ((x, .int n) :: env) memory ((x, .scalar (.int n)) :: vars) where
  axes y hy v hv := by
    by_cases heq : x = y
    · subst heq
      rw [List.lookup_cons_self] at hv ⊢
      cases hv
      rfl
    · rw [Vars.lookup_cons_of_ne heq]
      rw [List.lookup_cons, beq_false_of_ne (Ne.symm heq)] at hv
      exact h.axes y ((List.mem_cons.mp hy).resolve_left (Ne.symm heq)) v hv
  params d name shape hreads := by
    obtain ⟨id, rfl⟩ := hnamed.tensors d name shape hreads
    rw [Vars.lookup_cons_of_ne (hx.ne_tensorName id)]
    exact h.params d _ shape hreads
  buffers := h.buffers

theorem mono (h : Supplies M address tensors reads scope env memory vars) (hsub : ∀ x ∈ scope', x ∈ scope) :
    Supplies M address tensors reads scope' env memory vars :=
  ⟨fun x hx => h.axes x (hsub x hx), h.params, h.buffers⟩

/-- Axes may be bound to the coordinates of a point. -/
theorem bindAll (h : Supplies M address tensors reads scope env memory vars) (hnamed : Named reads scope)
    {axes : List Var} (haxes : ∀ v ∈ axes, IsAxis v.name) {point : List Int64} (hlength : axes.length = point.length) :
    Supplies M address tensors reads (axes.map Var.name ++ scope) (env.bind axes (point.map .int)) memory
      (vars.bindAll axes point) := by
  induction axes generalizing scope env vars point with
  | nil => exact h
  | cons v axes ih =>
    obtain ⟨n, point, rfl⟩ := List.exists_cons_of_length_eq_add_one hlength.symm
    have hv := haxes v List.mem_cons_self
    have hinner := ih (h.bind hnamed hv n)
      ⟨hnamed.tensors, fun x hx => (List.mem_cons.mp hx).elim (fun heq => heq ▸ hv) (hnamed.axes x)⟩
      (fun w hw => haxes w (List.mem_cons_of_mem _ hw)) (Nat.succ.inj hlength)
    refine hinner.mono fun x hx => ?_
    simp only [List.map_cons, List.cons_append, List.mem_cons, List.mem_append] at hx ⊢
    tauto

end Supplies

end

/-! ## Accumulators -/

namespace FunctionBuilder

/-- Whether variables may be accumulators: their names are free and no numbered ones. -/
def Allows (b : FunctionBuilder) (accs : List Var) : Prop :=
  ∀ v ∈ accs, v.name ∉ b.taken ∧ ¬ IsNumbered v.name

theorem Allows.append {b : FunctionBuilder} {accs accs' : List Var} (h : b.Allows accs)
    (h' : (b.withLocals accs).Allows accs') : b.Allows (accs ++ accs') := by
  intro v hv
  rcases List.mem_append.mp hv with hv | hv
  · exact h v hv
  · exact ⟨fun hmem => (h' v hv).1 (List.mem_append_right _ hmem), (h' v hv).2⟩

/-- Later accumulators are other ones. -/
theorem Allows.ne {b : FunctionBuilder} {accs accs' : List Var} (h' : (b.withLocals accs).Allows accs') {x : String}
    (hx : x ∈ accs'.map Var.name) : x ∉ accs.map Var.name := by
  obtain ⟨v, hv, rfl⟩ := List.mem_map.mp hx
  exact fun hmem => (h' v hv).1 (List.mem_append_left _ (List.mem_reverse.mpr hmem))

end FunctionBuilder

namespace Expr

variable {Address Memory : Type} [FloatOps] {M : Machine Address Memory} {address : String → Address} {tensors : Tensors}
  {reads : DType → String → List Int64 → Prop} {scope : List String} {env : Env} {memory : Memory} {vars : Vars Address}
  {v : Value} {e : Expr}

/-- Coordinates give what they evaluate to. -/
theorem IsCoordinate.run_eq {d : DType} (h : IsCoordinate scope d e)
    (hvars : ∀ x ∈ scope, ∀ v, env.lookup x = some v → vars.lookup x = some (.scalar v))
    (heval : e.eval tensors env = .ok v) : e.run M false memory vars = some (.scalar v) := by
  induction h generalizing v with
  | @var w hw _ => exact run_var_eq_some_iff.mpr ⟨hvars _ hw v (eval_var_eq_ok_iff.mp heval), by simp⟩
  | const value d => exact run_const_eq_some_iff.mpr ⟨congrArg Datum.scalar (eval_const_eq_ok_iff.mp heval).symm, by simp⟩
  | binary op _ _ ihl ihr =>
    obtain ⟨a, b, ha, hb, hv⟩ := eval_binary_eq_ok_iff.mp heval
    exact run_binary_eq_some_iff.mpr ⟨a, b, v, ihl ha, ihr hb, by simp, hv, rfl⟩

/-- Whether a lowered expression does what the expression says: its statements run and assign accumulators only, and its
value then gives what the expression evaluates to, whatever the variables hold that are neither numbered nor among these
accumulators. -/
def Implements (M : Machine Address Memory) (address : String → Address) (tensors : Tensors)
    (reads : DType → String → List Int64 → Prop) (scope : List String) (accs : List String) (e : Expr)
    (lowered : Lowered Expr) : Prop :=
  ∀ (s : State Address Memory) (env : Env) (v : Value),
    Supplies M address tensors reads scope env s.memory s.vars → (∀ x ∈ accs, x ∈ s.vars.map Prod.fst) →
      e.eval tensors env = .ok v →
        ∃ r, Stmt.execAll M false lowered.prelude s = some r ∧ r.Assigns accs s ∧
          ∀ vars : Vars Address, (∀ x, IsNumbered x ∨ x ∈ accs → vars.lookup x = r.state.vars.lookup x) →
            lowered.value.run M false s.memory vars = some (.scalar v)

/-- Without statements, the value alone gives what the expression evaluates to. -/
theorem implements_nil_iff (hnamed : Named reads scope) {value : Expr} :
    Implements M address tensors reads scope [] e ⟨[], value⟩ ↔
      ∀ memory (vars : Vars Address) env v, Supplies M address tensors reads scope env memory vars →
        e.eval tensors env = .ok v → value.run M false memory vars = some (.scalar v) := by
  constructor
  · intro h memory vars env v hsupplies heval
    obtain ⟨r, hr, -, hvalue⟩ := h ⟨vars, memory⟩ env v hsupplies (by simp) heval
    cases hr
    exact hvalue vars fun _ _ => rfl
  · intro h s env v hsupplies _ heval
    refine ⟨_, rfl, .done [] s, fun vars hvars => h _ vars env v ?_ heval⟩
    exact hsupplies.congr hnamed fun x hx => hvars x (Or.inl hx)

/-- Two expressions lowered one after the other: the statements of both run, and both values are there. -/
theorem Implements.pair {b : FunctionBuilder} {accs accs' : List Var} {e' : Expr} {lhs rhs : Lowered Expr}
    (h : Implements M address tensors reads scope (accs.map Var.name) e lhs)
    (h' : Implements M address tensors reads scope (accs'.map Var.name) e' rhs) (hnamed : Named reads scope)
    (haccs : b.Allows accs) (haccs' : (b.withLocals accs).Allows accs') {s : State Address Memory} {v v' : Value}
    (hsupplies : Supplies M address tensors reads scope env s.memory s.vars)
    (hlocals : ∀ x ∈ (accs ++ accs').map Var.name, x ∈ s.vars.map Prod.fst) (hv : e.eval tensors env = .ok v)
    (hv' : e'.eval tensors env = .ok v') :
    ∃ r, Stmt.execAll M false (lhs.prelude ++ rhs.prelude) s = some r ∧ r.Assigns ((accs ++ accs').map Var.name) s ∧
      ∀ vars : Vars Address,
        (∀ x, IsNumbered x ∨ x ∈ (accs ++ accs').map Var.name → vars.lookup x = r.state.vars.lookup x) →
          lhs.value.run M false s.memory vars = some (.scalar v) ∧
            rhs.value.run M false s.memory vars = some (.scalar v') := by
  rw [List.map_append] at hlocals ⊢
  obtain ⟨r, hr, hassigns, hvalue⟩ := h s env v hsupplies (fun x hx => hlocals x (List.mem_append_left _ hx)) hv
  -- the first statements leave what the second expression is evaluated with
  have hsupplies' : Supplies M address tensors reads scope env r.state.memory r.state.vars := by
    rw [hassigns.memory]
    refine hsupplies.congr hnamed fun x hx => hassigns.vars.lookup_eq fun hmem => ?_
    obtain ⟨w, hw, rfl⟩ := List.mem_map.mp hmem
    exact (haccs w hw).2 hx
  have hlocals' : ∀ x ∈ accs'.map Var.name, x ∈ r.state.vars.map Prod.fst := by
    intro x hx
    rw [hassigns.vars.map_fst]
    exact hlocals x (List.mem_append_right _ hx)
  obtain ⟨t, ht, hassigns', hvalue'⟩ := h' r.state env v' hsupplies' hlocals' hv'
  refine ⟨r.followedBy t, ?_, ?_, fun vars hvars => ⟨hvalue vars fun x hx => ?_, ?_⟩⟩
  · rw [Stmt.execAll_append, hr]
    exact Run.andThen_eq_followedBy hassigns.halt ht
  · exact (hassigns.mono fun x hx => List.mem_append_left _ hx).followedBy
      (hassigns'.mono fun x hx => List.mem_append_right _ hx)
  · -- the second statements leave the accumulators of the first expression
    have hkept : t.state.vars.lookup x = r.state.vars.lookup x := by
      refine hassigns'.vars.lookup_eq fun hmem => ?_
      rcases hx with hx | hx
      · obtain ⟨w, hw, rfl⟩ := List.mem_map.mp hmem
        exact (haccs' w hw).2 hx
      · exact haccs'.ne hmem hx
    exact (hvars x (hx.imp_right (List.mem_append_left _))).trans hkept
  · rw [← hassigns.memory]
    exact hvalue' vars fun x hx => hvars x (hx.imp_right (List.mem_append_right _))

/-! ## One node after the other -/

section

variable {b : FunctionBuilder} {accs accs' : List Var} {lhs rhs arg : Lowered Expr} {lhsE rhsE : Expr} {d : DType}

/-- A read finds in the buffer what the evaluator finds in the tensor. -/
theorem implements_read (hnamed : Named reads scope) {name : String} {shape : List Int64} {indices : List Expr}
    (hreads : reads d name shape) (hindices : ∀ i ∈ indices, IsCoordinate scope .int32 i) :
    Implements M address tensors reads scope [] ((TensorInput.ofShape name d shape).elementAt indices)
      ⟨[], element (.var ⟨name, (TensorInput.ofShape name d shape).globalType⟩) indices⟩ := by
  refine (implements_nil_iff hnamed).mpr fun memory vars env v hsupplies heval => ?_
  obtain ⟨a, ns, x, ha, hns, hx, rfl⟩ := eval_element_eq_ok_iff.mp heval
  have hbuffer : (var ⟨name, (TensorInput.ofShape name d shape).globalType⟩).run M false memory vars =
      some (.address (address name)) :=
    run_var_eq_some_iff.mpr ⟨hsupplies.params d name shape hreads, by simp⟩
  have hcoordinates : List.Forall₂ (fun i n => i.run M false memory vars = some (.scalar (.int n))) indices
      (ns.map Int64.ofNat) := by
    rw [List.forall₂_map_right_iff]
    exact forall₂_imp_of_mem hns fun i hi n hn => (hindices i hi).run_eq hsupplies.axes hn.1
  have hsmall : ∀ n ∈ ns, n < 2 ^ 63 := forall_mem_of_forall₂ hns fun _ _ _ hn => hn.2
  have hload := hsupplies.buffers d name shape hreads a ha ns x hsmall hx
  refine run_element_eq_some_iff.mpr ⟨_, _, _, hbuffer, hcoordinates, hload, ?_⟩
  exact Datum.readAs_eq_some_iff.mpr (Or.inl ⟨d, _, rfl, rfl, rfl⟩)

theorem implements_const (hnamed : Named reads scope) (w : Value) :
    Implements M address tensors reads scope [] (const w d) ⟨[], const w d⟩ := by
  refine (implements_nil_iff hnamed).mpr fun memory vars env v _ heval => ?_
  exact run_const_eq_some_iff.mpr ⟨congrArg Datum.scalar (eval_const_eq_ok_iff.mp heval).symm, by simp⟩

theorem Implements.neg {names : List String} (h : Implements M address tensors reads scope names e arg) :
    Implements M address tensors reads scope names (unary .neg e) ⟨arg.prelude, .unary .neg arg.value⟩ := by
  intro s env v hsupplies hlocals heval
  obtain ⟨a, ha, hv⟩ := eval_unary_eq_ok_iff.mp heval
  obtain ⟨r, hr, hassigns, hvalue⟩ := h s env a hsupplies hlocals ha
  exact ⟨r, hr, hassigns, fun vars hvars => run_unary_eq_some_iff.mpr ⟨a, v, hvalue vars hvars, hv, rfl⟩⟩

theorem Implements.call {names : List String} {func : String} (hfunc : func ∈ Intrinsic.names)
    (h : Implements M address tensors reads scope names e arg) :
    Implements M address tensors reads scope names (.call func [e]) ⟨arg.prelude ++ [], .call func [arg.value]⟩ := by
  intro s env v hsupplies hlocals heval
  obtain ⟨a, ha, hv⟩ := eval_call_one_eq_ok_iff.mp heval
  obtain ⟨r, hr, hassigns, hvalue⟩ := h s env a hsupplies hlocals ha
  rw [List.append_nil]
  refine ⟨r, hr, hassigns, fun vars hvars => run_call_eq_some_iff.mpr (Or.inr ?_)⟩
  exact ⟨Primitive.isHardwareIndex_eq_false hfunc, [a], v, .cons (hvalue vars hvars) .nil, hv, rfl, by simp⟩

theorem Implements.binary (op : BinaryOp) (hl : Implements M address tensors reads scope (accs.map Var.name) lhsE lhs)
    (hr : Implements M address tensors reads scope (accs'.map Var.name) rhsE rhs) (hnamed : Named reads scope)
    (haccs : b.Allows accs) (haccs' : (b.withLocals accs).Allows accs') :
    Implements M address tensors reads scope ((accs ++ accs').map Var.name) (.binary op lhsE rhsE)
      ⟨lhs.prelude ++ rhs.prelude, .binary op lhs.value rhs.value⟩ := by
  intro s env v hsupplies hlocals heval
  obtain ⟨x, y, hx, hy, hv⟩ := eval_binary_eq_ok_iff.mp heval
  obtain ⟨r, hrun, hassigns, hvalues⟩ := hl.pair hr hnamed haccs haccs' hsupplies hlocals hx hy
  refine ⟨r, hrun, hassigns, fun vars hvars => ?_⟩
  obtain ⟨hx, hy⟩ := hvalues vars hvars
  exact run_binary_eq_some_iff.mpr ⟨x, y, v, hx, hy, by simp, hv, rfl⟩

theorem Implements.callPair {func : String} (hfunc : func ∈ Intrinsic.names)
    (hl : Implements M address tensors reads scope (accs.map Var.name) lhsE lhs)
    (hr : Implements M address tensors reads scope (accs'.map Var.name) rhsE rhs) (hnamed : Named reads scope)
    (haccs : b.Allows accs) (haccs' : (b.withLocals accs).Allows accs') :
    Implements M address tensors reads scope ((accs ++ accs').map Var.name) (.call func [lhsE, rhsE])
      ⟨lhs.prelude ++ (rhs.prelude ++ []), .call func [lhs.value, rhs.value]⟩ := by
  intro s env v hsupplies hlocals heval
  obtain ⟨x, y, hx, hy, hv⟩ := eval_call_pair_eq_ok_iff.mp heval
  obtain ⟨r, hrun, hassigns, hvalues⟩ := hl.pair hr hnamed haccs haccs' hsupplies hlocals hx hy
  rw [List.append_nil]
  refine ⟨r, hrun, hassigns, fun vars hvars => run_call_eq_some_iff.mpr (Or.inr ?_)⟩
  obtain ⟨hx, hy⟩ := hvalues vars hvars
  exact ⟨Primitive.isHardwareIndex_eq_false hfunc, [x, y], v, .cons hx (.cons hy .nil), hv, rfl, by simp⟩

/-- A choice reads only the branch that the evaluator evaluates; there are no statements to hoist out of the other. -/
theorem implements_ite (hnamed : Named reads scope) {cond thenE elseE thenV elseV : Expr}
    (hcond : IsCoordinate scope .bool cond) (hthen : Implements M address tensors reads scope [] thenE ⟨[], thenV⟩)
    (helse : Implements M address tensors reads scope [] elseE ⟨[], elseV⟩) :
    Implements M address tensors reads scope [] (ite cond thenE elseE) ⟨[], ite cond thenV elseV⟩ := by
  refine (implements_nil_iff hnamed).mpr fun memory vars env v hsupplies heval => ?_
  obtain ⟨c, hc, hbranch⟩ := eval_ite_eq_ok_iff.mp heval
  refine run_ite_eq_some_iff.mpr ⟨c, hcond.run_eq hsupplies.axes hc, ?_⟩
  by_cases htrue : c.truthy
  · rw [if_pos htrue] at hbranch ⊢
    exact (implements_nil_iff hnamed).mp hthen memory vars env v hsupplies hbranch
  · rw [if_neg htrue] at hbranch ⊢
    exact (implements_nil_iff hnamed).mp helse memory vars env v hsupplies hbranch

/-- The loops of a reduction of integers leave in the accumulator what the reduction evaluates to. -/
theorem implements_reduce (hnamed : Named reads scope) {kind : ReduceKind} {extents : List Int64} {axes : List Var}
    {value valueV : Expr} {acc : Var} {divide : List Stmt} (hd : d.isInteger) (hextents : ∀ n ∈ extents, 0 < n)
    (haxes : ∀ v ∈ axes, IsAxis v.name) (hlength : axes.length = extents.length)
    (hinner : IsElement (.numbers .integer) reads d .body (axes.map Var.name ++ scope) value)
    (hvalue : Implements M address tensors reads (axes.map Var.name ++ scope) [] value ⟨[], valueV⟩)
    (hacc : ¬ IsNumbered acc.name) (hdivide : Reduction.divide kind d acc (ofShape extents) = .ok divide) :
    Implements M address tensors reads scope [acc.name] (reduce kind (ofShape extents) axes value)
      ⟨[Reduction.toStmt kind d acc (ofShape extents) axes ⟨[], valueV⟩ divide], .var acc⟩ := by
  intro s env v hsupplies hlocals heval
  have hshape := constShape?_ofShape extents
  obtain ⟨f, total, hf, htotal, hv⟩ := exists_ints_of_eval_reduce hshape
    (fun point _ w hw => (hinner.hasType_eval hd hw).exists_int hd) heval
  have hnamed' : Named reads (axes.map Var.name ++ scope) := hnamed.append haxes
  have hne : ∀ x, IsNumbered x → x ∉ [acc.name] := by
    intro x hx hmem
    rw [List.mem_singleton.mp hmem] at hx
    exact hacc hx
  have hlengthE : axes.length = (ofShape extents).length := hlength.trans (List.length_map _).symm
  -- the value at a point needs no statements
  let combined : Lowered Expr := ⟨[], valueV⟩
  have hpointed : ∀ point ∈ grid extents, ∀ t : State Address Memory, t.memory = s.memory →
      Vars.SameExcept [acc.name] (s.bindAll axes point).vars t.vars →
        ∃ r, Stmt.execAll M false combined.prelude t = some r ∧ r.Assigns [] t ∧
          combined.value.run M false r.state.memory r.state.vars = some (.scalar (.int (f point))) := by
    intro point hpoint t hmemory hsame
    have hlength' : axes.length = point.length :=
      hlength.trans (length_of_mem_points (points_eq_grid extents ▸ hpoint)).symm
    have hsupplies' := (hsupplies.bindAll hnamed haxes hlength').congr hnamed' fun x hx => hsame.lookup_eq (hne x hx)
    rw [← hmemory] at hsupplies'
    exact ⟨_, rfl, .done [] t, (implements_nil_iff hnamed').mp hvalue t.memory t.vars _ _ hsupplies' (hf point hpoint)⟩
  obtain ⟨r, hr, hassigns, hheld⟩ := Reduction.exists_exec_toStmt hd hshape hextents hlengthE
    (fun w hw heq => hacc (heq ▸ (haxes w hw).isNumbered)) List.not_mem_nil
    (hlocals _ (List.mem_singleton_self _)) hpointed hdivide htotal hv
  refine ⟨r, (Stmt.execAll_singleton _ s).trans hr, hassigns, fun vars hvars => ?_⟩
  refine run_var_eq_some_iff.mpr ⟨?_, by simp⟩
  rw [hvars acc.name (Or.inr (List.mem_singleton_self _)), hheld]

end

/-! ## Definitions over integers -/

/-- The value of a definition over integers can be lowered, and the lowered value gives what the definition evaluates to.
Only reductions need statements, and those stand at the level of an anchor. -/
theorem IsElement.exists_implements {params : ParamMap} {d : DType} {l : Level}
    (h : IsElement (.numbers .integer) reads d l scope e) (hd : d.isInteger) (hnamed : Named reads scope)
    (hparams : params.Covers reads) (b : FunctionBuilder) :
    ∃ lowered accs, e.lower params b = .ok (lowered, b.withLocals accs) ∧ b.Allows accs ∧
      (∀ M : Machine Address Memory, Implements M address tensors reads scope (accs.map Var.name) e lowered) ∧
        (l ≠ .anchor → lowered.prelude = [] ∧ accs = []) := by
  induction h generalizing b with
  | @read d l scope name shape indices hreads _ hindices =>
    refine ⟨_, [], ?_, by simp [FunctionBuilder.Allows], fun M => implements_read hnamed hreads hindices, by simp⟩
    rw [FunctionBuilder.withLocals_nil]
    exact lower_elementAt (hparams d name shape hreads) hindices b
  | const =>
    refine ⟨_, [], ?_, by simp [FunctionBuilder.Allows], fun M => implements_const hnamed _, by simp⟩
    rw [FunctionBuilder.withLocals_nil]
    exact lower_const _ _ b
  | neg _ ih =>
    obtain ⟨arg, accs, harg, haccs, himplements, hlevel⟩ := ih hd hnamed b
    exact ⟨_, accs, lower_unary .neg harg, haccs, fun M => (himplements M).neg, hlevel⟩
  | binary _ _ _ _ ihl ihr =>
    obtain ⟨lhs, accs, hlhs, haccs, hl, hlevelL⟩ := ihl hd hnamed b
    obtain ⟨rhs, accs', hrhs, haccs', hr, hlevelR⟩ := ihr hd hnamed (b.withLocals accs)
    rw [FunctionBuilder.withLocals_append] at hrhs
    refine ⟨_, accs ++ accs', lower_binary _ hlhs hrhs, haccs.append haccs',
      fun M => (hl M).binary _ (hr M) hnamed haccs haccs', fun hne => ?_⟩
    obtain ⟨hpreludeL, rfl⟩ := hlevelL hne
    obtain ⟨hpreludeR, rfl⟩ := hlevelR hne
    exact ⟨by rw [hpreludeL, hpreludeR, List.append_nil], rfl⟩
  | call hfunc _ ih =>
    obtain ⟨arg, accs, harg, haccs, himplements, hlevel⟩ := ih hd hnamed b
    refine ⟨_, accs, lower_call _ (lowerAll_cons harg (lowerAll_nil _)), haccs,
      fun M => (himplements M).call (ElementKind.mem_names_of_hasFunction hfunc), fun hne => ?_⟩
    obtain ⟨hprelude, rfl⟩ := hlevel hne
    exact ⟨by rw [hprelude, List.append_nil], rfl⟩
  | callPair hfunc hd' _ _ ihl ihr =>
    obtain ⟨lhs, accs, hlhs, haccs, hl, hlevelL⟩ := ihl hd hnamed b
    obtain ⟨rhs, accs', hrhs, haccs', hr, hlevelR⟩ := ihr hd' hnamed (b.withLocals accs)
    rw [FunctionBuilder.withLocals_append] at hrhs
    refine ⟨_, accs ++ accs', lower_call _ (lowerAll_cons hlhs (lowerAll_cons hrhs (lowerAll_nil _))), haccs.append haccs',
      fun M => (hl M).callPair (ElementKind.mem_names_of_hasFunction hfunc) (hr M) hnamed haccs haccs', fun hne => ?_⟩
    obtain ⟨hpreludeL, rfl⟩ := hlevelL hne
    obtain ⟨hpreludeR, rfl⟩ := hlevelR hne
    exact ⟨by rw [hpreludeL, hpreludeR, List.append_nil, List.append_nil], rfl⟩
  | ite hcond _ _ iht ihe =>
    obtain ⟨⟨prelude, thenV⟩, accs, hthen, -, ht, hlevelT⟩ := iht hd hnamed b
    obtain ⟨rfl, rfl⟩ := hlevelT (by decide)
    rw [FunctionBuilder.withLocals_nil] at hthen
    obtain ⟨⟨prelude, elseV⟩, accs, helse, -, he, hlevelE⟩ := ihe hd hnamed b
    obtain ⟨rfl, rfl⟩ := hlevelE (by decide)
    exact ⟨_, [], lower_ite (hcond.lower b) hthen helse, by simp [FunctionBuilder.Allows],
      fun M => implements_ite hnamed hcond (ht M) (he M), fun _ => ⟨rfl, rfl⟩⟩
  | @reduce d scope kind extents axes value hextents haxes _ hlength hvalue ih =>
    let acc : Var := ⟨freshName b.taken "acc", .ofDType d⟩
    have hacc : CodegenM.build (FunctionBuilder.declareLocal "acc" (.ofDType d)) b = .ok (acc, b.withLocals [acc]) := rfl
    have hnumbered : ¬ IsNumbered acc.name := not_isNumbered_freshName (Or.inr rfl) b.taken
    have haxes' : ∀ v ∈ axes, IsAxis v.name := fun v hv => Or.inr (haxes v hv)
    obtain ⟨⟨prelude, valueV⟩, accs, hlower, -, himplements, hlevel⟩ := ih hd (hnamed.append haxes') (b.withLocals [acc])
    obtain ⟨rfl, rfl⟩ := hlevel (by decide)
    rw [FunctionBuilder.withLocals_nil] at hlower
    obtain ⟨divide, hdivide⟩ := exists_divide kind d acc (constShape?_ofShape extents)
    refine ⟨_, [acc], lower_reduce (scalarDType_eq_ok hvalue.hasDType) hacc hlower hdivide, fun v hv => ?_, fun M => ?_,
      fun hne => absurd rfl hne⟩
    · rw [List.mem_singleton.mp hv]
      exact ⟨freshName_not_mem b.taken "acc", hnumbered⟩
    · exact implements_reduce hnamed hd (fun n hn => of_decide_eq_true (hextents n hn)) haxes' hlength hvalue
        (himplements M) hnumbered hdivide

end Expr

end TensorCompiler
