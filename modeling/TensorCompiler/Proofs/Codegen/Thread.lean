import TensorCompiler.Proofs.Codegen.Coordinates
import TensorCompiler.Proofs.Codegen.Value

/-! # What one thread does

A thread of a kernel computes its number from the indices of the hardware. If there is no element of that number it leaves
without a store. Otherwise it stores one value, at the coordinates of the point with that number, and the value is what the
definition evaluates to there.
-/

namespace TensorCompiler

namespace GridKernel

variable {Address Memory : Type} [FloatOps] {M : Machine Address Memory} {s : State Address Memory} {vars : Vars Address}
  {memory : Memory} {worker : Worker} {blockDim : UInt32} {block index m count : Nat} {thread : Var}

/-! ## The number of a thread -/

theorem runsToNat_number (hworker : worker.blockDim? = some blockDim) (hblock : M.blockIdx = Int64.ofNat block)
    (hindex : M.threadIdx = Int64.ofNat index) (hblock' : block < 2 ^ 63)
    (hnumber : block * blockDim.toNat + index < 2 ^ 63) :
    Expr.RunsToNat M memory vars (Primitive.blockIdx * GridKernel.blockDim worker + Primitive.threadIdx)
      (block * blockDim.toNat + index) := by
  have hblockIdx : Expr.RunsToNat M memory vars Primitive.blockIdx block := by
    refine ⟨Expr.run_call_eq_some_iff.mpr (Or.inl ⟨rfl, rfl, M.blockIdx, rfl, ?_⟩), hblock'⟩
    rw [hblock]
  have hthreadIdx : Expr.RunsToNat M memory vars Primitive.threadIdx index := by
    refine ⟨Expr.run_call_eq_some_iff.mpr (Or.inl ⟨rfl, rfl, M.threadIdx, rfl, ?_⟩), by omega⟩
    rw [hindex]
  have hdim : Expr.RunsToNat M memory vars (GridKernel.blockDim worker) blockDim.toNat := by
    have hliteral : GridKernel.blockDim worker = Expr.int (Int64.ofNat blockDim.toNat) := by
      rw [GridKernel.blockDim, hworker]
    rw [hliteral]
    exact ⟨Expr.run_const_eq_some_iff.mpr ⟨rfl, by simp⟩, Nat.lt_trans blockDim.toNat_lt (by decide)⟩
  exact (hblockIdx.mul hdim (by omega)).add hthreadIdx hnumber

/-- The test whether there is an element of a number. -/
theorem run_guard (hthread : vars.lookup thread.name = some (.scalar (.int (Int64.ofNat m)))) (hm : m < 2 ^ 63)
    (hcount : count < 2 ^ 63) :
    ((Expr.var thread).lt (Expr.int (Int64.ofNat count))).run M false memory vars =
      some (.scalar (.bool (decide (m < count)))) := by
  have hcompare : BinaryOp.lt.eval? (.int (Int64.ofNat m)) (.int (Int64.ofNat count)) = some (.bool (decide (m < count))) := by
    change some (Value.bool (compare (Int64.ofNat m) (Int64.ofNat count) == .lt)) = _
    rw [Option.some.injEq, Value.bool.injEq, Bool.eq_iff_iff, beq_iff_eq, Std.compare_eq_lt, decide_eq_true_iff,
      Int64.lt_iff_toInt_lt, Int64.toInt_ofNat_of_lt hm, Int64.toInt_ofNat_of_lt hcount, Int.ofNat_lt]
  exact Expr.run_binary_eq_some_iff.mpr ⟨_, _, _, Expr.run_var_eq_some_iff.mpr ⟨hthread, by simp⟩,
    Expr.run_const_eq_some_iff.mpr ⟨rfl, by simp⟩, by simp, hcompare, rfl⟩

/-! ## The body -/

variable {c : TensorCompute} {shape : List Int64} {out : Var} {lowered : Lowered Expr}

/-- The binding of the thread's number and the test around what a thread does with its element. -/
theorem exec_body_eq_some {r : Run Address Memory}
    (hnumber : Expr.RunsToNat M s.memory s.vars
      (Primitive.blockIdx * GridKernel.blockDim worker + Primitive.threadIdx) m)
    (hshape : ∀ n ∈ shape, 0 ≤ n) (hcount : (grid shape).length < 2 ^ 63)
    (helement : if m < (grid shape).length then
        (elementBody c shape out thread lowered).exec M false (s.bind thread.name (.scalar (.int (Int64.ofNat m)))) = some r
      else r = { state := s.bind thread.name (.scalar (.int (Int64.ofNat m))) }) :
    (body worker c shape out thread lowered).exec M false s = some r.leave := by
  rw [body_eq]
  refine Stmt.exec_letIn_eq_some_iff.mpr ⟨_, r, hnumber.1, ?_, rfl⟩
  rw [numElements_eq_ofNat hshape]
  refine Stmt.exec_ite_eq_some_iff.mpr ⟨_, run_guard List.lookup_cons_self hnumber.2 hcount, ?_⟩
  by_cases hm : m < (grid shape).length
  · rw [if_pos hm] at helement
    rw [if_pos (by simpa [Value.truthy] using hm)]
    exact helement
  · rw [if_neg hm] at helement
    rw [if_neg (by simpa [Value.truthy] using hm), helement]
    exact Stmt.exec_seq M false [] _

/-- A thread without an element stores nothing. -/
theorem exists_exec_body_of_le
    (hnumber : Expr.RunsToNat M s.memory s.vars
      (Primitive.blockIdx * GridKernel.blockDim worker + Primitive.threadIdx) m)
    (hshape : ∀ n ∈ shape, 0 ≤ n) (hcount : (grid shape).length < 2 ^ 63) (hm : (grid shape).length ≤ m) :
    ∃ r, (body worker c shape out thread lowered).exec M false s = some r ∧ r.halt = none ∧ r.stores = [] ∧
      r.state.memory = s.memory := by
  exact ⟨_, exec_body_eq_some hnumber hshape hcount (by rw [if_neg (Nat.not_lt.mpr hm)]), rfl, rfl, rfl⟩

end GridKernel

namespace Vars

variable {Address : Type} {vars : Vars Address} {axes : List Var} {point : List Int64} {x : String}

theorem mem_bindAll (h : x ∈ vars.map Prod.fst) : x ∈ (vars.bindAll axes point).map Prod.fst := by
  induction axes generalizing vars point with
  | nil => exact h
  | cons v axes ih =>
    cases point with
    | nil => exact h
    | cons n point => exact ih (List.mem_cons_of_mem _ h)

theorem lookup_bindAll_of_ne (h : ∀ v ∈ axes, v.name ≠ x) : (vars.bindAll axes point).lookup x = vars.lookup x := by
  induction axes generalizing vars point with
  | nil => rfl
  | cons v axes ih =>
    cases point with
    | nil => rfl
    | cons n point =>
      rw [bindAll, ih fun w hw => h w (List.mem_cons_of_mem _ hw)]
      exact lookup_cons_of_ne (h v List.mem_cons_self) _ _

end Vars

namespace GridKernel

variable {Address Memory : Type} [FloatOps] {M : Machine Address Memory} {s : State Address Memory}
  {worker : Worker} {m : Nat} {thread out : Var} {c : TensorCompute} {shape : List Int64} {lowered : Lowered Expr}

section

variable {address : String → Address} {tensors : Tensors} {T : TensorTable} {ids : List TensorId} {k : ElementKind}
  {l : Level} {d : DType} {accs : List String} {a : Address} {id : TensorId} {v : Value} {memory' : Memory}

/-- Inside the scope of the axes the statements of the value run, and then its one store. -/
theorem exists_execAll_store {point : List Int64} (hc : c.Defines k T ids l d shape)
    (hpoint : c.axes.length = point.length)
    (himplements : Expr.Implements M address tensors (T.Reads ids) (c.axes.map Var.name) accs c.value lowered)
    (haccs : ∀ x ∈ accs, ¬ IsNumbered x)
    (hsupplies : Supplies M address tensors (T.Reads ids) (c.axes.map Var.name) (c.pointEnv point) s.memory s.vars)
    (hlocals : ∀ x ∈ accs, x ∈ s.vars.map Prod.fst) (hid : out.name = id.name)
    (hout : s.vars.lookup out.name = some (.address a)) (heval : c.value.eval tensors (c.pointEnv point) = .ok v)
    (hstore : M.store s.memory (M.element a point) v = some memory') :
    ∃ r, Stmt.execAll M false (lowered.prelude ++ [.store (.var out) (c.axes.map .var) lowered.value]) s = some r ∧
      r.halt = none ∧ r.stores = [(a, point, v)] ∧ r.state.memory = memory' := by
  obtain ⟨r, hr, hassigns, hvalue⟩ := himplements s _ v hsupplies hlocals heval
  have hmemory : r.state.memory = s.memory := hassigns.memory
  have hkept (x : String) (hx : IsNumbered x) : r.state.vars.lookup x = s.vars.lookup x :=
    hassigns.vars.lookup_eq fun hmem => haccs x hmem hx
  have hbuffer : (Expr.var out).run M false r.state.memory r.state.vars = some (.address a) := by
    refine Expr.run_var_eq_some_iff.mpr ⟨?_, by simp⟩
    rw [hkept _ (hid ▸ isNumbered_tensorName id), hout]
  have hindices : List.Forall₂
      (fun (e : Expr) (n : Int64) => e.run M false r.state.memory r.state.vars = some (.scalar (.int n)))
      (c.axes.map Expr.var) point := by
    have hbound := Env.forall₂_lookup_bind hc.nodup (hpoint.trans (List.length_map Value.int).symm) []
    rw [List.forall₂_map_right_iff] at hbound
    rw [List.forall₂_map_left_iff]
    refine forall₂_imp_of_mem hbound fun w hw n hn => Expr.run_var_eq_some_iff.mpr ⟨?_, by simp⟩
    rw [hkept _ (IsAxis.isNumbered (Or.inl (hc.axes w hw)))]
    exact hsupplies.axes w.name (List.mem_map_of_mem hw) _ hn
  have hv : lowered.value.run M false r.state.memory r.state.vars = some (.scalar v) := by
    rw [hmemory]
    exact hvalue _ fun _ _ => rfl
  have hstored : (Stmt.store (.var out) (c.axes.map .var) lowered.value).exec M false r.state =
      some ⟨⟨r.state.vars, memory'⟩, [.store a point v], none⟩ := by
    refine Stmt.exec_store_eq_some_iff.mpr ⟨a, point, v, memory', hbuffer, hindices, hv, ?_, rfl⟩
    rw [hmemory]
    exact hstore
  refine ⟨r.followedBy ⟨⟨r.state.vars, memory'⟩, [.store a point v], none⟩, ?_, rfl, ?_, rfl⟩
  · rw [Stmt.execAll_append, hr]
    exact Run.andThen_eq_followedBy hassigns.halt ((Stmt.execAll_singleton _ _).trans hstored)
  · rw [Run.stores_followedBy, hassigns.stores]
    rfl

/-- A thread with an element stores its value at its coordinates, and nothing else. -/
theorem exists_exec_body_of_lt
    (hnumber : Expr.RunsToNat M s.memory s.vars
      (Primitive.blockIdx * GridKernel.blockDim worker + Primitive.threadIdx) m)
    (hcount : (grid shape).length < 2 ^ 63) (hm : m < (grid shape).length) (hc : c.Defines k T ids l d shape)
    (himplements : Expr.Implements M address tensors (T.Reads ids) (c.axes.map Var.name) accs c.value lowered)
    (haccs : ∀ x ∈ accs, ¬ IsNumbered x) (hthread : ¬ IsNumbered thread.name)
    (hsupplies : Supplies M address tensors (T.Reads ids) [] [] s.memory s.vars)
    (hlocals : ∀ x ∈ accs, x ∈ s.vars.map Prod.fst) (hid : out.name = id.name)
    (hout : s.vars.lookup out.name = some (.address a))
    (heval : c.value.eval tensors (c.pointEnv ((pointAt m shape).map Int64.ofNat)) = .ok v)
    (hstore : M.store s.memory (M.element a ((pointAt m shape).map Int64.ofNat)) v = some memory') :
    ∃ r, (body worker c shape out thread lowered).exec M false s = some r ∧ r.halt = none ∧
      r.stores = [(a, (pointAt m shape).map Int64.ofNat, v)] ∧ r.state.memory = memory' := by
  let point := (pointAt m shape).map Int64.ofNat
  let started := s.bind thread.name (.scalar (.int (Int64.ofNat m)))
  have hshape : ∀ n ∈ shape, 0 < n := pos_of_length_grid_pos (Nat.zero_lt_of_lt hm)
  have hpoint : c.axes.length = point.length := by
    rw [List.length_map, length_pointAt, hc.rank]
  have haxes : ∀ w ∈ c.axes, IsAxis w.name := fun w hw => Or.inl (hc.axes w hw)
  have hnamed : Named (T.Reads ids) [] := by
    refine ⟨?_, by simp⟩
    rintro _ name _ ⟨id, -, hname, -⟩
    exact ⟨id, hname⟩
  have hstarted (x : String) (hx : IsNumbered x) : started.vars.lookup x = s.vars.lookup x := by
    refine Vars.lookup_cons_of_ne ?_ _ _
    rintro rfl
    exact hthread hx
  -- at its point a thread has what the definition is evaluated with
  have hsupplies' : Supplies M address tensors (T.Reads ids) (c.axes.map Var.name) (c.pointEnv point) s.memory
      (started.bindAll c.axes point).vars := by
    have hbound := (hsupplies.congr hnamed hstarted).bindAll hnamed haxes hpoint
    rw [List.append_nil] at hbound
    exact hbound
  have hlocals' : ∀ x ∈ accs, x ∈ (started.bindAll c.axes point).vars.map Prod.fst := fun x hx =>
    Vars.mem_bindAll (List.mem_cons_of_mem _ (hlocals x hx))
  have hout' : (started.bindAll c.axes point).vars.lookup out.name = some (.address a) := by
    rw [← hout, ← hstarted _ (hid ▸ isNumbered_tensorName id)]
    refine Vars.lookup_bindAll_of_ne fun w hw => ?_
    rw [hid]
    exact (haxes w hw).ne_tensorName id
  obtain ⟨r, hr, hhalt, hstores, hmemory⟩ :=
    exists_execAll_store hc hpoint himplements haccs hsupplies' hlocals' hid hout' heval hstore
  -- the bindings of the axes around it
  have hcoordinates (vars : Vars Address) (hvars : vars.lookup thread.name = started.vars.lookup thread.name) :
      List.Forall₂ (fun (e : Expr) (n : Int64) => e.run M false s.memory vars = some (.scalar (.int n)))
        (unravel (.var thread) shape) point := by
    have hflat : Expr.RunsToNat M s.memory vars (.var thread) m :=
      ⟨Expr.run_var_eq_some_iff.mpr ⟨hvars.trans List.lookup_cons_self, by simp⟩, hnumber.2⟩
    have hcoordinates : List.Forall₂ (Expr.RunsToNat M s.memory vars)
        (unravelFrom (.var thread) true (Int64.ofNat (grid shape).length) shape) (pointAt m shape) :=
      Expr.readsNat_runsToNat.unravelFrom hflat hshape hcount fun _ => hm
    rw [← numElements_eq_ofNat fun n hn => Int64.le_of_lt (hshape n hn)] at hcoordinates
    rw [List.forall₂_map_right_iff]
    exact hcoordinates.imp fun _ _ h => h.1
  have hhidden : ∀ w ∈ c.axes, w.name ≠ thread.name := fun w hw heq => hthread (heq ▸ (haxes w hw).isNumbered)
  obtain ⟨t, ht, hevents, hhalt', hmemory'⟩ := Stmt.exists_exec_lets (s := started) hhidden
    (hc.rank.trans (length_unravelFrom _ _ _ _).symm) hcoordinates ((Stmt.exec_block _ _).trans hr)
  have hexec := exec_body_eq_some hnumber (fun n hn => Int64.le_of_lt (hshape n hn)) hcount (by rw [if_pos hm]; exact ht)
  refine ⟨_, hexec, hhalt'.trans hhalt, ?_, hmemory'.trans hmemory⟩
  change t.events.filterMap Event.store? = _
  rw [hevents]
  exact hstores

end

end GridKernel

end TensorCompiler
