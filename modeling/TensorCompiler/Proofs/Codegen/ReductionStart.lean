import Mathlib.Algebra.Ring.Int.Defs
import TensorCompiler.Proofs.Codegen.Lowers
import TensorCompiler.Proofs.Codegen.Reduction
import TensorCompiler.Proofs.Kernel.Launch

/-! # Start values of reductions

A kernel starts a reduction with a literal, the evaluator with the first value. The literal changes no value that it is
combined with, so over integers both ways give the same wherever there is a value at all. It is not always a number of
its type, though: for the greatest and the least of `int32` numbers it is an end of the 64-bit range. And where there is
no value, the two ways part: the evaluator gives the start value of a float, whatever the type, and a kernel the literal,
or nothing if the count is to divide it.
-/

namespace TensorCompiler

/-! ## The literal -/

/-- Whether a type of integers has the number. -/
def DType.Represents (d : DType) (n : Int64) : Prop :=
  match d with
  | .int32 => -2 ^ 31 ≤ n.toInt ∧ n.toInt < 2 ^ 31
  | .int64 => True
  | _ => False

namespace ReduceKind

variable (kind : ReduceKind)

theorem represents_initInt_iff {d : DType} (hd : d.isInteger) :
    d.Represents kind.initInt ↔ d = .int64 ∨ kind = .sum ∨ kind = .avg := by
  cases d with
  | int32 =>
    show (-2 ^ 31 ≤ kind.initInt.toInt ∧ kind.initInt.toInt < 2 ^ 31) ↔ _
    cases kind <;> simp [initInt, Int64.toInt_maxValue]
  | int64 => simp [DType.Represents]
  | _ => cases hd

theorem literal_init {d : DType} (hd : d.isInteger) : Expr.literal (kind.init d) d = .const (.int kind.initInt) d := by
  rw [Expr.literal, kind.cast_init hd]

/-- The evaluator's start value is a float. -/
theorem init_float32_ne_int (n : Int64) : kind.init .float32 ≠ .int n := by
  cases kind <;> simp [init, DType.isFloat]

section

variable [FloatOps]

/-- Some integers that were combined have a result: their count divides. -/
theorem exists_finish? (n : Int64) {count : Nat} (hpos : 0 < count) (hcount : count < 2 ^ 63) :
    ∃ v, kind.finish? (some (.int n)) (Int64.ofNat count) = some v := by
  cases kind with
  | sum | max | min => exact ⟨_, rfl⟩
  | avg =>
    have hcount : (Int64.ofNat count).toInt = count := Int64.toInt_ofNat_of_lt hcount
    have hsafe : BinaryOp.dividesSafely n (Int64.ofNat count) = true := by
      have hzero : Int64.ofNat count ≠ 0 := by
        intro h
        rw [h, Int64.toInt_zero] at hcount
        omega
      have hminus : Int64.ofNat count ≠ -1 := by
        intro h
        rw [h] at hcount
        change (-1 : Int) = count at hcount
        omega
      simp [BinaryOp.dividesSafely, hzero, hminus]
    exact ⟨.int (n / Int64.ofNat count), by
      show (if BinaryOp.dividesSafely _ _ then some _ else none).map Value.int = _
      rw [if_pos hsafe]
      rfl⟩

end

end ReduceKind

/-! ## Both ways -/

namespace Reduction

/-- The statement of a reduction starts with a literal. -/
theorem exists_toStmt_eq {kind : ReduceKind} {d : DType} {acc : Var} {shape : List Expr} {axes : List Var}
    {combined : Lowered Expr} {divide : List Stmt} (hd : d.isInteger) :
    ∃ rest, toStmt kind d acc shape axes combined divide = .block (.assign acc (.const (.int kind.initInt) d) :: rest) := by
  rw [toStmt_eq_nest, kind.literal_init hd, List.cons_append]
  exact ⟨_, rfl⟩

variable {Address Memory : Type} [FloatOps] {M : Machine Address Memory} {tensors : Tensors} {env : Env}
  {s : State Address Memory} {kind : ReduceKind} {d : DType} {acc : Var} {names : List String} {shape : List Expr}
  {extents : List Int64} {axes : List Var} {value : Expr} {combined : Lowered Expr} {f : List Int64 → Int64}
  {divide : List Stmt}

/-- A reduction of one integer for each point of a static shape. The definition evaluates to it, and the statements of the
lowered value and that value give it in a run, whatever the accumulator holds then. -/
structure OfInts (M : Machine Address Memory) (tensors : Tensors) (env : Env) (s : State Address Memory) (acc : Var)
    (names : List String) (shape : List Expr) (extents : List Int64) (axes : List Var) (value : Expr)
    (combined : Lowered Expr) (f : List Int64 → Int64) : Prop where
  constShape : Expr.constShape? shape = some extents
  nonneg : ∀ n ∈ extents, 0 ≤ n
  count : (grid extents).length < 2 ^ 63
  rank : axes.length = shape.length
  axes_ne : ∀ x ∈ axes, x.name ≠ acc.name
  fresh : acc.name ∉ names
  declared : acc.name ∈ s.vars.map Prod.fst
  eval : ∀ point ∈ grid extents, value.eval tensors (env.bind axes (point.map .int)) = .ok (.int (f point))
  run : ∀ point ∈ grid extents, ∀ t : State Address Memory, t.memory = s.memory →
    Vars.SameExcept (acc.name :: names) (s.bindAll axes point).vars t.vars →
      ∃ r, Stmt.execAll M false combined.prelude t = some r ∧ r.Assigns names t ∧
        combined.value.run M false r.state.memory r.state.vars = some (.scalar (.int (f point)))

theorem OfInts.eval_reduce (h : OfInts M tensors env s acc names shape extents axes value combined f)
    {total : Option Value} {v : Value}
    (htotal : ((grid extents).map fun point => Value.int (f point)).foldlM kind.accumulate none = .ok total)
    (hv : kind.finish? total (Int64.ofNat (grid extents).length) = some v) :
    (Expr.reduce kind shape axes value).eval tensors env = .ok v := by
  refine Expr.eval_reduce_eq_ok_iff.mpr ⟨extents, _, total, h.constShape, ?_, htotal, ?_⟩
  · rw [points_eq_grid, List.forall₂_map_right_iff, List.forall₂_same]
    exact h.eval
  · rw [points_eq_grid]
    exact hv

/-- Over at least one point a kernel leaves in the accumulator what the evaluator gives. -/
theorem OfInts.exists_result (h : OfInts M tensors env s acc names shape extents axes value combined f)
    (hd : d.isInteger) (hdivide : Reduction.divide kind d acc shape = .ok divide) (hpoints : grid extents ≠ []) :
    ∃ v r, (Expr.reduce kind shape axes value).eval tensors env = .ok v ∧
      (toStmt kind d acc shape axes combined divide).exec M false s = some r ∧ r.halt = none ∧
        r.state.vars.lookup acc.name = some (.scalar v) := by
  have hpos : 0 < (grid extents).length := List.length_pos_of_ne_nil hpoints
  have hvalues : (grid extents).map f ≠ [] := List.map_eq_nil_iff.not.mpr hpoints
  have htotal := kind.foldlM_accumulate_none hvalues
  rw [List.map_map] at htotal
  obtain ⟨v, hv⟩ := kind.exists_finish? (((grid extents).map f).foldl kind.combineInt kind.initInt) hpos h.count
  obtain ⟨r, hr, hassigns, hheld⟩ := exists_exec_toStmt hd h.constShape (pos_of_length_grid_pos hpos) h.rank h.axes_ne h.fresh
    h.declared h.run hdivide htotal hv
  exact ⟨v, r, h.eval_reduce htotal hv, hr, hassigns.halt, hheld⟩

/-- Over no point the evaluator gives the start value of a float. -/
theorem OfInts.eval_empty (h : OfInts M tensors env s acc names shape extents axes value combined f)
    (hpoints : grid extents = []) : (Expr.reduce kind shape axes value).eval tensors env = .ok (kind.init .float32) := by
  have htotal : ((grid extents).map fun point => Value.int (f point)).foldlM kind.accumulate none = .ok none := by
    rw [hpoints]
    rfl
  exact h.eval_reduce htotal rfl

/-- There a kernel leaves its start value, unless it takes an average. -/
theorem OfInts.exists_empty (h : OfInts M tensors env s acc names shape extents axes value combined f)
    (hd : d.isInteger) (hdivide : Reduction.divide kind d acc shape = .ok divide) (hpoints : grid extents = [])
    (hkind : kind ≠ .avg) :
    ∃ r, (toStmt kind d acc shape axes combined divide).exec M false s = some r ∧
      r.state.vars.lookup acc.name = some (.scalar (.int kind.initInt)) := by
  obtain ⟨r, hr, -, hheld⟩ := exists_execAll_collecting kind hd h.constShape h.rank h.axes_ne h.fresh h.declared h.run
  have hnone : divide = [] := by
    cases kind with
    | avg => exact absurd rfl hkind
    | sum | max | min =>
      cases hdivide
      rfl
  rw [hpoints] at hheld
  refine ⟨r, ?_, hheld⟩
  rw [exec_toStmt, hr, hnone]
  exact Run.andThen_done

/-- An average over no point divides by zero. -/
theorem OfInts.exec_empty_avg (h : OfInts M tensors env s acc names shape extents axes value combined f)
    (hd : d.isInteger) (hdivide : Reduction.divide .avg d acc shape = .ok divide) (hpoints : grid extents = []) :
    (toStmt .avg d acc shape axes combined divide).exec M false s = none := by
  obtain ⟨r, hr, hassigns, hheld⟩ :=
    exists_execAll_collecting .avg hd h.constShape h.rank h.axes_ne h.fresh h.declared h.run
  have hcount := averageCount_eq h.constShape h.nonneg
  rw [hpoints] at hcount
  rw [Reduction.divide, hcount, bind_ok] at hdivide
  cases hdivide
  have hstuck : (Stmt.assign acc (.var acc / Expr.literal (.int 0) d)).exec M false r.state = none := by
    refine Option.eq_none_iff_forall_ne_some.mpr fun t ht => ?_
    obtain ⟨δ, -, hquotient, -⟩ := Stmt.exec_assign_eq_some_iff.mp ht
    obtain ⟨a, b, v, ha, hb, -, hv, -⟩ := Expr.run_binary_eq_some_iff.mp hquotient
    have hzero : (Value.int 0).cast d = .int 0 := Value.HasType.cast_eq hd
    have hread : Expr.run M false r.state.memory r.state.vars (.var acc) = _ := Expr.run_var_eq_some_iff.mpr ⟨hheld, by simp⟩
    rw [hread] at ha
    obtain ⟨hb, -⟩ := Expr.run_const_eq_some_iff.mp hb
    rw [hzero] at hb
    cases ha
    cases hb
    cases hv
  rw [exec_toStmt, hr, Option.bind_some, Run.andThen, hassigns.halt]
  show (Stmt.execAll M false [_] r.state).map _ = none
  rw [Stmt.execAll_singleton]
  exact Option.map_eq_none_iff.mpr hstuck

/-- What is true of the start values and of the results of reductions of integers. The literal that lowering emits changes
no integer it is combined with, and is a number of the type except for the greatest and the least of `int32` numbers. Over
at least one point the statement leaves in the accumulator what the evaluator gives; over none it never does. -/
theorem start_and_result {params : ParamMap} {b b' : FunctionBuilder} (hd : d.isInteger) (htype : value.HasDType d)
    (hacc : acc = ⟨freshName b.taken "acc", .ofDType d⟩)
    (hvalue : value.lower params (b.withLocals [acc]) = .ok (combined, b'))
    (h : OfInts M tensors env s acc names shape extents axes value combined f) :
    ∃ stmt, (Expr.reduce kind shape axes value).lower params b = .ok (⟨[stmt], .var acc⟩, b') ∧
      (∃ rest, stmt = .block (.assign acc (.const (.int kind.initInt) d) :: rest)) ∧
      (∀ n, kind.merge? (.int kind.initInt) (.int n) = some (.int n)) ∧
      (d.Represents kind.initInt ↔ d = .int64 ∨ kind = .sum ∨ kind = .avg) ∧
      (grid extents ≠ [] →
        ∃ v r, (Expr.reduce kind shape axes value).eval tensors env = .ok v ∧ stmt.exec M false s = some r ∧
          r.halt = none ∧ r.state.vars.lookup acc.name = some (.scalar v)) ∧
      (grid extents = [] →
        (Expr.reduce kind shape axes value).eval tensors env = .ok (kind.init .float32) ∧
          (∀ n, kind.init .float32 ≠ .int n) ∧
          (kind ≠ .avg → ∃ r, stmt.exec M false s = some r ∧
            r.state.vars.lookup acc.name = some (.scalar (.int kind.initInt))) ∧
          (kind = .avg → stmt.exec M false s = none)) := by
  obtain ⟨divide, hdivide⟩ := Expr.exists_divide kind d acc h.constShape
  have hdeclare : CodegenM.build (FunctionBuilder.declareLocal "acc" (.ofDType d)) b = .ok (acc, b.withLocals [acc]) := by
    rw [hacc]
    rfl
  refine ⟨toStmt kind d acc shape axes combined divide,
    Expr.lower_reduce (Expr.scalarDType_eq_ok htype) hdeclare hvalue hdivide, exists_toStmt_eq hd, fun n => ?_,
    kind.represents_initInt_iff hd, h.exists_result hd hdivide, fun hpoints => ⟨h.eval_empty hpoints,
      kind.init_float32_ne_int, h.exists_empty hd hdivide hpoints, ?_⟩⟩
  · rw [kind.merge?_int, kind.combineInt_initInt]
  · rintro rfl
    exact h.exec_empty_avg hd hdivide hpoints

end Reduction

/-! ### Reductions of coordinates -/

namespace CoordinateReduction

/-- The axis that the reductions range over. -/
def axis : Var := Var.int "k"

/-- The accumulator of a reduction of `int32` numbers in an empty function. -/
def acc : Var := ⟨"acc", .ofDType .int32⟩

/-- A state in which the accumulator holds anything. -/
def start (memory : Buffers) : State Place Buffers := ⟨[("acc", .scalar (.bool true))], memory⟩

theorem ofInts [FloatOps] (M : Machine Place Buffers) (memory : Buffers) (extent : Int64) (hextent : 0 ≤ extent) :
    Reduction.OfInts M [] [] (start memory) acc [] [Expr.int extent] [extent] [axis] (.var axis) ⟨[], .var axis⟩
      (·.headD 0) := by
  have hpoint {point : List Int64} (h : point ∈ grid [extent]) : ∃ n, point = [n] := by
    rw [← points_eq_grid] at h
    exact List.length_eq_one_iff.mp (length_of_mem_points h)
  refine ⟨rfl, by simpa using hextent, ?_, rfl, by simp [axis, acc, Var.int], List.not_mem_nil, List.mem_singleton_self _,
    ?_, ?_⟩
  · rw [length_grid_cons, show (grid []).length = 1 from rfl, Nat.mul_one]
    exact extent.toNatClampNeg_lt
  · intro point h
    obtain ⟨n, rfl⟩ := hpoint h
    exact Expr.eval_var_eq_ok_iff.mpr rfl
  · intro point h t hmemory hsame
    obtain ⟨n, rfl⟩ := hpoint h
    refine ⟨{ state := t }, rfl, .done [] t, Expr.run_var_eq_some_iff.mpr ⟨?_, by simp⟩⟩
    rw [hsame.lookup_eq (by simp [axis, acc, Var.int])]
    rfl

/-- The greatest of the numbers below five, as it is evaluated and as a thread computes it. -/
theorem start_and_result_coordinates :
    DType.int32.isInteger = true ∧ (Expr.var axis).HasDType .int32 ∧
      ∃ stmt b v r, (Expr.reduce .max [Expr.int 5] [axis] (.var axis)).lower [] (FunctionBuilder.new "rows" .thread) =
          .ok (⟨[stmt], .var acc⟩, b) ∧
        (Expr.reduce .max [Expr.int 5] [axis] (.var axis)).eval [] [] = .ok v ∧
        stmt.exec (Thread.machine 1 ⟨0, 0⟩) false (start fun _ => none) = some r ∧ r.halt = none ∧
        r.state.vars.lookup "acc" = some (.scalar v) := by
  have hd : DType.int32.isInteger = true := rfl
  have htype : (Expr.var axis).HasDType .int32 := rfl
  have hints := ofInts (Thread.machine 1 ⟨0, 0⟩) (fun _ => none) 5 (by decide)
  obtain ⟨stmt, hlower, -, -, -, hsome, -⟩ := Reduction.start_and_result (b := FunctionBuilder.new "rows" .thread) hd htype
    rfl (Expr.lower_var axis _) hints
  obtain ⟨v, r, heval, hexec, hhalt, hheld⟩ := hsome (List.ne_nil_of_length_pos (length_grid_pos (by simp)))
  exact ⟨hd, htype, stmt, _, v, r, hlower, heval, hexec, hhalt, hheld⟩

end CoordinateReduction

/-- An entry of a table of `int32` numbers. -/
def rowEntry : Expr :=
  (TensorInput.ofShape "x" .int32 [4, 3]).elementAt [.var (Var.int "a"), .var (Var.int "k")]

/-- The greatest entry of a row. -/
def rowMaximum : Expr :=
  .reduce .max [Expr.int 3] [Var.int "k"] rowEntry

/-- The parameter of a kernel that computes it. -/
def rowParams : ParamMap :=
  [("x", ⟨"x", (TensorInput.ofShape "x" .int32 [4, 3]).globalType⟩)]

/-- It starts with the least 64-bit number, that is no `int32` number. -/
theorem exists_lower_rowMaximum :
    ∃ acc rest b, rowMaximum.lower rowParams (FunctionBuilder.new "rows" .thread) =
        .ok (⟨[.block (.assign acc (.const (.int Int64.minValue) .int32) :: rest)], .var acc⟩, b) ∧
      ¬ DType.int32.Represents Int64.minValue := by
  let b := FunctionBuilder.new "rows" .thread
  let acc : Var := ⟨freshName b.taken "acc", .ofDType .int32⟩
  have hindices : ∀ i ∈ [Expr.var (Var.int "a"), .var (Var.int "k")], Expr.IsCoordinate ["a", "k"] .int32 i := by
    simp only [List.mem_cons, List.not_mem_nil, or_false]
    rintro i (rfl | rfl) <;> exact .var (by simp [Var.int]) rfl
  have hlookup : rowParams.lookup "x" = some ⟨"x", (TensorInput.ofShape "x" .int32 [4, 3]).globalType⟩ := rfl
  have hentry : rowEntry.lower rowParams (b.withLocals [acc]) = _ := Expr.lower_elementAt hlookup hindices _
  have hdeclare : CodegenM.build (FunctionBuilder.declareLocal "acc" (.ofDType .int32)) b = .ok (acc, b.withLocals [acc]) :=
    rfl
  have hshape : Expr.constShape? [Expr.int 3] = some [3] := rfl
  obtain ⟨divide, hdivide⟩ := Expr.exists_divide .max .int32 acc hshape
  have hlower : rowMaximum.lower rowParams b = _ := Expr.lower_reduce rfl hdeclare hentry hdivide
  have hd : DType.int32.isInteger := rfl
  obtain ⟨rest, hrest⟩ := Reduction.exists_toStmt_eq hd
  rw [hrest] at hlower
  refine ⟨acc, rest, _, hlower, ?_⟩
  show ¬ DType.int32.Represents (ReduceKind.initInt .max)
  rw [ReduceKind.represents_initInt_iff .max hd]
  simp

end TensorCompiler
