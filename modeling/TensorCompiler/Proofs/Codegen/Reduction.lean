import TensorCompiler.Proofs.Codegen.Kernel
import TensorCompiler.Proofs.Kernel.Loops

/-! # Reductions of integers

The evaluator starts a reduction with its first value, a kernel with a start value that combining does not change the
first value by. So over integers the loops of a kernel leave in the accumulator what the evaluator gives, an average after
the same division.
-/

namespace TensorCompiler

/-! ## Combining integers -/

namespace ReduceKind

/-- Two integers combined. -/
def combineInt : ReduceKind → Int64 → Int64 → Int64
  | sum, a, b | avg, a, b => a + b
  | max, a, b => if a < b then b else a
  | min, a, b => if b < a then b else a

/-- The integer that combining starts from. -/
def initInt : ReduceKind → Int64
  | sum | avg => 0
  | max => Int64.minValue
  | min => Int64.maxValue

theorem cast_init (kind : ReduceKind) {d : DType} (hd : d.isInteger) : (kind.init d).cast d = .int kind.initInt := by
  cases d <;> cases kind <;> first | rfl | cases hd

/-- The start value changes nothing. -/
theorem combineInt_initInt (kind : ReduceKind) (n : Int64) : kind.combineInt kind.initInt n = n := by
  cases kind with
  | sum | avg => exact Int64.zero_add n
  | max =>
    change (if Int64.minValue < n then n else Int64.minValue) = n
    by_cases h : Int64.minValue < n
    · exact if_pos h
    · rw [if_neg h]
      exact Int64.le_antisymm (Int64.minValue_le n) (Int64.not_lt.mp h)
  | min =>
    change (if n < Int64.maxValue then n else Int64.maxValue) = n
    by_cases h : n < Int64.maxValue
    · exact if_pos h
    · rw [if_neg h]
      exact Int64.le_antisymm (Int64.not_lt.mp h) (Int64.le_maxValue n)

variable [FloatOps] (kind : ReduceKind)

theorem merge?_int (a b : Int64) : kind.merge? (.int a) (.int b) = some (.int (kind.combineInt a b)) := by
  cases kind <;> rfl

theorem foldlM_accumulate_some (a : Int64) (ns : List Int64) :
    (ns.map Value.int).foldlM kind.accumulate (some (.int a)) = .ok (some (.int (ns.foldl kind.combineInt a))) := by
  induction ns generalizing a with
  | nil => rfl
  | cons n ns ih =>
    have hstep : kind.accumulate (some (.int a)) (.int n) = .ok (some (.int (kind.combineInt a n))) := by
      simp only [accumulate, merge?_int]
    rw [List.map_cons, List.foldlM_cons, hstep, bind_ok, ih, List.foldl_cons]

/-- Combining from the first of some integers on comes to combining from the start value. -/
theorem foldlM_accumulate_none {ns : List Int64} (hns : ns ≠ []) :
    (ns.map Value.int).foldlM kind.accumulate none = .ok (some (.int (ns.foldl kind.combineInt kind.initInt))) := by
  obtain ⟨n, ns, rfl⟩ := List.exists_cons_of_ne_nil hns
  rw [List.map_cons, List.foldlM_cons, accumulate, bind_ok, foldlM_accumulate_some, List.foldl_cons, combineInt_initInt]

variable {Address Memory : Type} {M : Machine Address Memory} {memory : Memory} {vars : Vars Address}

theorem run_combine {acc value : Expr} {a b : Int64} (ha : acc.run M false memory vars = some (.scalar (.int a)))
    (hb : value.run M false memory vars = some (.scalar (.int b))) :
    (kind.combine acc value).run M false memory vars = some (.scalar (.int (kind.combineInt a b))) := by
  have hpair : List.Forall₂ (fun e v => e.run M false memory vars = some (.scalar v)) [acc, value] [.int a, .int b] :=
    .cons ha (.cons hb .nil)
  cases kind with
  | sum | avg => exact Expr.run_binary_eq_some_iff.mpr ⟨_, _, _, ha, hb, by simp, rfl, rfl⟩
  | max | min => exact Expr.run_call_eq_some_iff.mpr (Or.inr ⟨by decide, _, _, hpair, rfl, rfl, by simp⟩)

end ReduceKind

/-! ## The loops of a reduction -/

namespace Vars

theorem mem_of_lookup_eq_some {Address : Type} {vars : Vars Address} {name : String} {δ : Datum Address}
    (h : vars.lookup name = some δ) : name ∈ vars.map Prod.fst := by
  obtain ⟨before, after, rfl, -⟩ := List.lookup_eq_some_iff.mp h
  simp

end Vars

/-- A reduction of integers that has a value combines one integer for each point. -/
theorem Expr.exists_ints_of_eval_reduce [FloatOps] {tensors : Tensors} {env : Env} {kind : ReduceKind}
    {shape : List Expr} {extents : List Int64} {axes : List Var} {value : Expr} {v : Value}
    (hshape : constShape? shape = some extents)
    (hint : ∀ point ∈ grid extents, ∀ w, value.eval tensors (env.bind axes (point.map .int)) = .ok w → ∃ n, w = .int n)
    (heval : (reduce kind shape axes value).eval tensors env = .ok v) :
    ∃ f : List Int64 → Int64, ∃ total,
      (∀ point ∈ grid extents, value.eval tensors (env.bind axes (point.map .int)) = .ok (.int (f point))) ∧
        ((grid extents).map fun point => Value.int (f point)).foldlM kind.accumulate none = .ok total ∧
          kind.finish? total (Int64.ofNat (grid extents).length) = some v := by
  obtain ⟨_, vs, total, hshape', hvs, htotal, hv⟩ := eval_reduce_eq_ok_iff.mp heval
  cases hshape.symm.trans hshape'
  rw [points_eq_grid] at hvs hv
  have hints : ∀ point ∈ grid extents, ∃ n, value.eval tensors (env.bind axes (point.map .int)) = .ok (.int n) := by
    intro point hpoint
    obtain ⟨w, -, hw⟩ := exists_mem_of_forall₂ hvs hpoint
    obtain ⟨n, rfl⟩ := hint point hpoint w hw
    exact ⟨n, hw⟩
  choose! f hf using hints
  have hvalues : vs = (grid extents).map fun point => Value.int (f point) := by
    have heq : List.Forall₂ (fun point w => w = Value.int (f point)) (grid extents) vs :=
      forall₂_imp_of_mem hvs fun point hpoint w hw => Except.ok.inj (hw.symm.trans (hf point hpoint))
    rw [← List.map_id vs]
    exact map_eq_of_forall₂ heq fun _ _ hw => hw
  exact ⟨f, total, hf, hvalues ▸ htotal, hv⟩

/-- The count of an average is the number of points. -/
theorem averageCount_eq {shape : List Expr} {extents : List Int64} (hshape : Expr.constShape? shape = some extents)
    (hextents : ∀ n ∈ extents, 0 ≤ n) : averageCount shape = .ok (Int64.ofNat (grid extents).length) := by
  rw [averageCount, hshape, ← numElements_eq_ofNat hextents]

namespace Reduction

variable {Address Memory : Type} [FloatOps] {M : Machine Address Memory} {s : State Address Memory} {kind : ReduceKind}
  {d : DType} {acc : Var} {extents : List Int64}

/-- Literal extents are numbers, whatever the variables hold. -/
theorem forall₂_run_of_constShape? {shape : List Expr} (h : Expr.constShape? shape = some extents) :
    List.Forall₂ (fun e n => ∀ memory vars, e.run M false memory vars = some (.scalar (.int n))) shape extents := by
  induction shape generalizing extents with
  | nil =>
    cases h
    exact .nil
  | cons extent shape ih =>
    rw [Expr.constShape?, List.mapM_cons] at h
    obtain ⟨n, hn, hrest⟩ := Option.bind_eq_some_iff.mp h
    obtain ⟨ns, hns, hcons⟩ := Option.bind_eq_some_iff.mp hrest
    cases hcons
    refine .cons (fun memory vars => ?_) (ih hns)
    cases extent with
    | const value d =>
      cases value with
      | int =>
        cases hn
        exact Expr.run_const_eq_some_iff.mpr ⟨rfl, by simp⟩
      | float | bool => cases hn
    | _ => cases hn

/-- The division turns what was collected into the result. -/
theorem exists_exec_divide {shape : List Expr} {divide : List Stmt} {n : Int64} {v : Value} (hd : d.isInteger)
    (hshape : Expr.constShape? shape = some extents) (hextents : ∀ n ∈ extents, 0 < n)
    (hdivide : Reduction.divide kind d acc shape = .ok divide)
    (hheld : s.vars.lookup acc.name = some (.scalar (.int n)))
    (hv : kind.finish? (some (.int n)) (Int64.ofNat (grid extents).length) = some v) :
    ∃ r, Stmt.execAll M false divide s = some r ∧ r.Assigns [acc.name] s ∧
      r.state.vars.lookup acc.name = some (.scalar v) := by
  cases kind with
  | sum | max | min =>
    cases hdivide
    cases hv
    exact ⟨_, rfl, .done _ s, hheld⟩
  | avg =>
    have hcount := averageCount_eq hshape fun n hn => Int64.le_of_lt (hextents n hn)
    rw [Reduction.divide, hcount, bind_ok] at hdivide
    cases hdivide
    have hacc : (Expr.var acc).run M false s.memory s.vars = some (.scalar (.int n)) :=
      Expr.run_var_eq_some_iff.mpr ⟨hheld, by simp⟩
    have hliteral : (Value.int (Int64.ofNat (grid extents).length)).cast d = .int (Int64.ofNat (grid extents).length) :=
      Value.HasType.cast_eq hd
    have hquotient : (Expr.var acc / Expr.literal (.int (Int64.ofNat (grid extents).length)) d).run M false s.memory s.vars =
        some (.scalar v) :=
      Expr.run_binary_eq_some_iff.mpr
        ⟨_, _, v, hacc, Expr.run_const_eq_some_iff.mpr ⟨congrArg Datum.scalar hliteral.symm, by simp⟩, by simp, hv, rfl⟩
    obtain ⟨r, hr, hassigns, hlookup⟩ := Stmt.exists_exec_assign hquotient (Vars.mem_of_lookup_eq_some hheld)
    exact ⟨r, (Stmt.execAll_singleton _ s).trans hr, hassigns, hlookup⟩

/-- What a reduction runs before the division: the start value, and the loops that combine the value at each point. -/
def collecting (kind : ReduceKind) (d : DType) (acc : Var) (shape : List Expr) (axes : List Var)
    (combined : Lowered Expr) : List Stmt :=
  .assign acc (.literal (kind.init d) d) ::
    Stmt.nest axes shape (combined.prelude ++ [.assign acc (kind.combine (.var acc) combined.value)])

theorem exec_toStmt (shape : List Expr) (axes : List Var) (combined : Lowered Expr) (divide : List Stmt) :
    (toStmt kind d acc shape axes combined divide).exec M false s =
      (Stmt.execAll M false (collecting kind d acc shape axes combined) s).bind fun r =>
        r.andThen (Stmt.execAll M false divide) := by
  rw [toStmt_eq_nest, Stmt.exec_block]
  exact Stmt.execAll_append _ divide s

/-- Before the division the accumulator holds the values at all points, combined with the start value. The statements of
a value may assign variables of the given names, but not the accumulator. -/
theorem exists_execAll_collecting (kind : ReduceKind) {axes : List Var} {shape : List Expr} {combined : Lowered Expr}
    {names : List String} {f : List Int64 → Int64} (hd : d.isInteger) (hshape : Expr.constShape? shape = some extents)
    (hlength : axes.length = shape.length) (haxes : ∀ x ∈ axes, x.name ≠ acc.name) (hnames : acc.name ∉ names)
    (hacc : acc.name ∈ s.vars.map Prod.fst)
    (hvalue : ∀ point ∈ grid extents, ∀ t : State Address Memory, t.memory = s.memory →
      Vars.SameExcept (acc.name :: names) (s.bindAll axes point).vars t.vars →
        ∃ r, Stmt.execAll M false combined.prelude t = some r ∧ r.Assigns names t ∧
          combined.value.run M false r.state.memory r.state.vars = some (.scalar (.int (f point)))) :
    ∃ r, Stmt.execAll M false (collecting kind d acc shape axes combined) s = some r ∧ r.Assigns (acc.name :: names) s ∧
      r.state.vars.lookup acc.name =
        some (.scalar (.int (((grid extents).map f).foldl kind.combineInt kind.initInt))) := by
  have hmono : ∀ {s : State Address Memory} {r : Run Address Memory}, r.Assigns [acc.name] s →
      r.Assigns (acc.name :: names) s := fun h => h.mono (by simp)
  -- the start value
  have hstart : (Expr.literal (kind.init d) d).run M false s.memory s.vars = some (.scalar (.int kind.initInt)) :=
    Expr.run_const_eq_some_iff.mpr ⟨congrArg Datum.scalar (kind.cast_init hd).symm, by simp⟩
  obtain ⟨r₀, hr₀, hassigns₀, hheld₀⟩ := Stmt.exists_exec_assign hstart hacc
  -- the loops add the value at each point
  have hstep : ∀ point ∈ grid extents, ∀ a t, (s.bindAll axes point).Collects t (acc.name :: names) acc.name a →
      ∃ r, (Stmt.block (combined.prelude ++ [.assign acc (kind.combine (.var acc) combined.value)])).exec M false t =
          some r ∧ r.Assigns (acc.name :: names) t ∧
        r.state.vars.lookup acc.name = some (.scalar (.int (kind.combineInt a (f point)))) := by
    intro point hpoint a t ht
    obtain ⟨r, hr, hassigns, hrun⟩ := hvalue point hpoint t ht.memory ht.vars
    have hheld : r.state.vars.lookup acc.name = some (.scalar (.int a)) :=
      (hassigns.vars.lookup_eq hnames).trans ht.held
    have hread : (Expr.var acc).run M false r.state.memory r.state.vars = some (.scalar (.int a)) :=
      Expr.run_var_eq_some_iff.mpr ⟨hheld, by simp⟩
    obtain ⟨u, hu, hassign, hnew⟩ :=
      Stmt.exists_exec_assign (kind.run_combine hread hrun) (Vars.mem_of_lookup_eq_some hheld)
    refine ⟨r.followedBy u, ?_, (hassigns.mono fun x hx => List.mem_cons_of_mem _ hx).followedBy (hmono hassign), hnew⟩
    rw [Stmt.exec_block, Stmt.execAll_append, hr]
    exact Run.andThen_eq_followedBy hassigns.halt ((Stmt.execAll_singleton _ _).trans hu)
  have hcollects₀ : s.Collects r₀.state (acc.name :: names) acc.name kind.initInt :=
    ⟨hassigns₀.memory, (hmono hassigns₀).vars, hheld₀⟩
  obtain ⟨r₁, hr₁, hassigns₁, hcollects₁⟩ :=
    Stmt.exists_exec_loops hlength (forall₂_run_of_constShape? hshape) haxes hstep hcollects₀
  refine ⟨r₀.followedBy r₁, ?_, (hmono hassigns₀).followedBy hassigns₁, ?_⟩
  · refine Stmt.execAll_cons hr₀ hassigns₀.halt ?_
    rw [← List.append_nil (Stmt.nest _ _ _), Stmt.execAll_nest_append, Stmt.execAll_singleton]
    exact hr₁
  · rw [List.foldl_map]
    exact hcollects₁.held

/-- The statement of a reduction leaves its result in the accumulator. -/
theorem exists_exec_toStmt {axes : List Var} {shape : List Expr} {combined : Lowered Expr} {divide : List Stmt}
    {names : List String} {f : List Int64 → Int64} {total : Option Value} {v : Value} (hd : d.isInteger)
    (hshape : Expr.constShape? shape = some extents) (hextents : ∀ n ∈ extents, 0 < n)
    (hlength : axes.length = shape.length) (haxes : ∀ x ∈ axes, x.name ≠ acc.name) (hnames : acc.name ∉ names)
    (hacc : acc.name ∈ s.vars.map Prod.fst)
    (hvalue : ∀ point ∈ grid extents, ∀ t : State Address Memory, t.memory = s.memory →
      Vars.SameExcept (acc.name :: names) (s.bindAll axes point).vars t.vars →
        ∃ r, Stmt.execAll M false combined.prelude t = some r ∧ r.Assigns names t ∧
          combined.value.run M false r.state.memory r.state.vars = some (.scalar (.int (f point))))
    (hdivide : Reduction.divide kind d acc shape = .ok divide)
    (htotal : ((grid extents).map fun point => Value.int (f point)).foldlM kind.accumulate none = .ok total)
    (hv : kind.finish? total (Int64.ofNat (grid extents).length) = some v) :
    ∃ r, (toStmt kind d acc shape axes combined divide).exec M false s = some r ∧
      r.Assigns (acc.name :: names) s ∧ r.state.vars.lookup acc.name = some (.scalar v) := by
  obtain ⟨r, hr, hassigns, hheld⟩ := exists_execAll_collecting kind hd hshape hlength haxes hnames hacc hvalue
  have hpoints : (grid extents).map f ≠ [] := by
    rw [ne_eq, List.map_eq_nil_iff]
    exact List.ne_nil_of_length_pos (length_grid_pos hextents)
  have hcombined := kind.foldlM_accumulate_none hpoints
  rw [List.map_map] at hcombined
  cases hcombined.symm.trans htotal
  obtain ⟨t, ht, hassigns', hheld'⟩ := exists_exec_divide hd hshape hextents hdivide hheld hv
  refine ⟨r.followedBy t, ?_, hassigns.followedBy (hassigns'.mono (by simp)), hheld'⟩
  rw [exec_toStmt, hr]
  exact Run.andThen_eq_followedBy hassigns.halt ht

end Reduction

end TensorCompiler
