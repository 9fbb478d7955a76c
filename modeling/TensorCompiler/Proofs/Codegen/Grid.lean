import TensorCompiler.Proofs.Codegen.Thread
import TensorCompiler.Proofs.Graph.Pipeline
import TensorCompiler.Proofs.Kernel.Launch

/-! # What a kernel writes

A kernel over integers that is launched with a thread for each element writes what its definition evaluates to. The
threads that have an element store one value each, at the point with their number, and the numbers of the threads run
through those of the points. So the stores of a launch are, up to their order, one for each point of the grid. No thread
touches a buffer that another one reads, because an operator of a well-formed graph does not read its own output.
-/

namespace TensorCompiler

/-! ## Buffers -/

namespace Buffers

variable {memory : Buffers} {buffer : String} {a : NDArray}

/-- Whether the buffers of tensors hold their values. -/
def HoldsAll (memory : Buffers) (tensors : Tensors) (ids : List TensorId) : Prop :=
  ∀ id ∈ ids, ∀ a, tensors.lookup id.name = some a → memory.Holds id.name a

/-- A store leaves the other buffers. -/
theorem Holds.store (h : memory.Holds buffer a) {place : Place} (hne : place.1 ≠ buffer) (v : Value) :
    Buffers.Holds (fun other => if other = place then some v else memory other) buffer a := by
  intro ns x hns hx
  have hother : (buffer, ns.map Int64.ofNat) ≠ place := by
    rintro rfl
    exact hne rfl
  exact (if_neg hother).trans (h ns x hns hx)

end Buffers

/-! ## The kernel of an operator -/

namespace GridKernel

variable [FloatOps]

/-- Whether a function is a kernel of an operator: its body lowers the definition of the operator, its parameters bear the
names of the tensors, and the accumulators are local variables. -/
structure IsKernel (T : TensorTable) (tensors : Tensors) (op : Operator) (shape : List Int64) (worker : Worker)
    (f : Function) (out thread : Var) (accs : List Var) (lowered : Lowered Expr) : Prop where
  body_eq : f.body = body worker op.computation shape out thread lowered
  out_name : out.name = op.output.name
  params : ∀ id, id ∈ op.inputs ∨ id = op.output → ∃ v ∈ f.params, v.name = id.name
  thread : ¬ IsNumbered thread.name
  locals : ∀ v ∈ accs, v ∈ f.locals ∧ ¬ IsNumbered v.name
  value : ∀ M : Machine Place Buffers, Expr.Implements M (fun name => (name, [])) tensors (T.Reads op.inputs)
    (op.computation.axes.map Var.name) (accs.map Var.name) op.computation.value lowered

end GridKernel

namespace Operator.Computes

variable {T : TensorTable} {op : Operator} {d : DType} {shape : List Int64}

/-- The task of an operator over integers has a kernel on every worker. -/
theorem exists_isKernel [FloatOps] (h : op.Computes (.numbers .integer) T d shape) (worker : Worker) (tensors : Tensors) :
    ∃ f out thread accs lowered, GridKernel.kernel { op.task with worker := worker } = .ok f ∧
      GridKernel.IsKernel T tensors op shape worker f out thread accs lowered := by
  obtain ⟨thread, taken, b, rfl, -, hfunction, hkernel⟩ := h.exists_kernel_of_lower worker
  obtain ⟨lowered, accs, hlower, hallows, himplements⟩ : ∃ lowered accs,
      op.computation.value.lower (ParamMap.ofEntries (op.task.params.zip op.task.paramTypes)) b =
        .ok (lowered, b.withLocals accs) ∧ b.Allows accs ∧
      ∀ M : Machine Place Buffers, Expr.Implements M (fun name => (name, [])) tensors (T.Reads op.inputs)
        (op.computation.axes.map Var.name) (accs.map Var.name) op.computation.value lowered := by
    have hcovers : ParamMap.Covers (ParamMap.ofEntries (op.task.params.zip op.task.paramTypes)) (T.Reads op.inputs) :=
      fun d name shape hreads => h.covers_reads d name shape (hreads.cons op.output)
    obtain ⟨lowered, accs, hlower, hallows, himplements, -⟩ :=
      h.defines.value.exists_implements h.defines.kind (h.named_reads op.inputs) hcovers b
    exact ⟨lowered, accs, hlower, hallows, himplements⟩
  refine ⟨_, ⟨op.output.name, (TensorInput.ofShape op.output.name d shape).globalType⟩,
    ⟨freshName taken "tid", .ofDType .int32⟩, accs, lowered, hkernel lowered _ hlower, ?_⟩
  constructor
  case body_eq => rfl
  case out_name => rfl
  case params =>
    intro id hid
    obtain ⟨entry, hentry, hname⟩ := h.exists_param hid
    refine ⟨ParamMap.paramVar entry, ?_, hname⟩
    -- lowering the value leaves the parameters
    change ParamMap.paramVar entry ∈ b.function.params
    rw [hfunction]
    exact List.mem_map_of_mem hentry
  case thread => exact not_isNumbered_freshName (Or.inl rfl) taken
  case locals => exact fun v hv => ⟨List.mem_append_right _ hv, (hallows v hv).2⟩
  case value => exact himplements

end Operator.Computes

/-! ## Launches -/

theorem Thread.block_lt {gridDim blockDim : UInt32} {t : Thread} (h : t ∈ all gridDim blockDim) :
    t.block < gridDim.toNat := by
  obtain ⟨block, hblock, hmem⟩ := List.mem_flatMap.mp h
  obtain ⟨index, -, rfl⟩ := List.mem_map.mp hmem
  exact List.mem_range.mp hblock

namespace GridKernel

/-- What the thread of a number stores: a value at the point with that number, if there is one. -/
def threadStores (buffer : String) (shape : List Int64) (value : List Int64 → Value) (m : Nat) :
    List (Place × List Int64 × Value) :=
  ((grid shape)[m]?).toList.map fun point => ((buffer, []), point, value point)

theorem flatMap_getElem?_toList {α : Type} (xs : List α) (n : Nat) :
    ((List.range n).flatMap fun m => xs[m]?.toList) = xs.take n := by
  induction xs generalizing n with
  | nil => simp
  | cons x xs ih =>
    cases n with
    | zero => rfl
    | succ n =>
      rw [List.range_succ_eq_map, List.flatMap_cons, List.flatMap_map]
      exact congrArg (x :: ·) (ih n)

/-- Threads store one value for each point with one of their numbers. -/
theorem flatMap_threadStores (buffer : String) (shape : List Int64) (value : List Int64 → Value) (n : Nat) :
    (List.range n).flatMap (threadStores buffer shape value) =
      ((grid shape).take n).map fun point => ((buffer, []), point, value point) := by
  change ((List.range n).flatMap fun m => ((grid shape)[m]?).toList.map fun point => ((buffer, []), point, value point)) = _
  rw [← List.map_flatMap, flatMap_getElem?_toList]

/-- The array of the values at the points of a shape. -/
def arrayOf (shape : List Int64) (value : List Int64 → Value) : NDArray :=
  ⟨extentsOf shape, ((grid shape).map fun point => (value point).toFloat).toArray⟩

/-- One value for each point, in any order, writes the array of these values. -/
theorem writes_of_perm {stores : List (Place × List Int64 × Value)} {buffer : String} {shape : List Int64}
    {value : List Int64 → Value}
    (h : stores.Perm ((grid shape).map fun point => ((buffer, []), point, value point))) :
    Writes stores buffer (arrayOf shape value) where
  within store hstore := by
    obtain ⟨point, hpoint, rfl⟩ := List.mem_map.mp (h.mem_iff.mp hstore)
    obtain ⟨m, hm, rfl⟩ := List.mem_iff_getElem.mp hpoint
    have hshape := pos_of_length_grid_pos (Nat.zero_lt_of_lt hm)
    have hat := getElem?_grid_pointAt hshape m
    have hposition : NDArray.position? (arrayOf shape value).shape (pointAt m shape) = _ := position?_pointAt hshape m
    rw [Nat.mod_eq_of_lt hm] at hat hposition
    refine ⟨rfl, pointAt m shape, (List.getElem?_eq_some_iff.mp hat).2, ?_⟩
    rw [NDArray.get?, hposition]
    simp [arrayOf, hm]
  once ns k hk := by
    have hpoint := getElem?_grid hk
    rw [(h.map fun store => store.2.1).count_eq, List.map_map]
    change ((grid shape).map id).count _ = 1
    rw [List.map_id]
    exact List.count_eq_one_of_mem (nodup_grid shape) (List.mem_of_getElem? hpoint)

/-- One value for each of the first points writes the array of all values exactly if these are all points. -/
theorem writes_iff_of_perm {stores : List (Place × List Int64 × Value)} {buffer : String} {shape : List Int64}
    {value : List Int64 → Value} {n : Nat}
    (h : stores.Perm (((grid shape).take n).map fun point => ((buffer, []), point, value point))) :
    Writes stores buffer (arrayOf shape value) ↔ (grid shape).length ≤ n := by
  constructor
  · intro hwrites
    -- every point is among those that are stored
    have hstored : ∀ point ∈ grid shape, point ∈ (grid shape).take n := by
      intro point hpoint
      obtain ⟨m, hm, rfl⟩ := List.mem_iff_getElem.mp hpoint
      have hshape := pos_of_length_grid_pos (Nat.zero_lt_of_lt hm)
      have hat := getElem?_grid_pointAt hshape m
      rw [Nat.mod_eq_of_lt hm] at hat
      have honce := hwrites.once _ _ (position?_pointAt hshape m)
      rw [(h.map fun store => store.2.1).count_eq, List.map_map] at honce
      change (((grid shape).take n).map id).count _ = 1 at honce
      rw [List.map_id, ← (List.getElem?_eq_some_iff.mp hat).2] at honce
      exact List.count_pos_iff.mp (by omega)
    have hlength := ((nodup_grid shape).subperm hstored).length_le
    rw [List.length_take] at hlength
    omega
  · intro hn
    rw [List.take_of_length_le hn] at h
    exact writes_of_perm h

end GridKernel

/-! ## Kernels with a thread for each point -/

/-- Whether the threads of a grid share out the points of a shape: each stores a value at the point with its number, if there
is one, and nothing else. They do so from any memory of which `P` holds, and `P` holds of what they leave. -/
def Function.SharesOut [FloatOps] (f : Function) (gridDim blockDim : UInt32) (P : Buffers → Prop) (buffer : String)
    (shape : List Int64) (value : List Int64 → Value) : Prop :=
  ∀ t ∈ Thread.all gridDim blockDim, ∀ (locals : String → Datum Place) (memory : Buffers), P memory →
    ∃ r, f.runThread blockDim locals memory t = some r ∧
      r.stores = GridKernel.threadStores buffer shape value (t.number blockDim) ∧ P r.state.memory

/-- A launch of threads that share out the points of a shape writes the array of their values exactly if there are enough
threads. -/
theorem Function.SharesOut.launches [FloatOps] {f : Function} {gridDim blockDim : UInt32} {P : Buffers → Prop}
    {buffer : String} {shape : List Int64} {value : List Int64 → Value}
    (h : f.SharesOut gridDim blockDim P buffer shape value) :
    f.Launches gridDim blockDim P fun stores =>
      Writes stores buffer (GridKernel.arrayOf shape value) ↔
        (grid shape).length ≤ gridDim.toNat * blockDim.toNat := by
  intro locals threads memory hperm hP
  have hthread : ∀ t ∈ threads, ∀ memory, P memory → ∃ r, f.runThread blockDim (locals t) memory t = some r ∧
      r.stores = GridKernel.threadStores buffer shape value (t.number blockDim) ∧ P r.state.memory :=
    fun t ht memory hP => h t (hperm.mem_iff.mp ht) (locals t) memory hP
  obtain ⟨events, memory', hlaunch, hstores, -⟩ := Function.exists_launch hthread hP
  refine ⟨events, memory', hlaunch, GridKernel.writes_iff_of_perm ?_⟩
  -- the stores of the threads, in the order of their numbers, are those of the first points
  rw [hstores, ← GridKernel.flatMap_threadStores, ← Thread.map_number_all, List.flatMap_map]
  exact hperm.flatMap_right _

namespace GridKernel.IsKernel

variable [FloatOps] {T : TensorTable} {tensors : Tensors} {op : Operator} {d : DType} {shape : List Int64} {worker : Worker}
  {gridDim blockDim : UInt32} {f : Function} {out thread : Var} {accs : List Var} {lowered : Lowered Expr}
  {memory : Buffers} {value : List Int64 → Value}

/-- The variables at the start of a kernel give what its definition is evaluated with. -/
theorem supplies (h : IsKernel T tensors op shape worker f out thread accs lowered) (locals : String → Datum Place)
    (t : Thread) (hmemory : memory.HoldsAll tensors op.inputs) :
    Supplies (t.machine blockDim) (fun name => (name, [])) tensors (T.Reads op.inputs) [] [] memory
      (f.initialVars locals) where
  axes x hx := by cases hx
  params := by
    rintro _ _ _ ⟨id, hid, rfl, -⟩
    obtain ⟨v, hv, hname⟩ := h.params id (Or.inl hid)
    rw [← hname]
    exact Function.lookup_initialVars_of_mem hv locals
  buffers := by
    rintro _ _ _ ⟨id, hid, rfl, -⟩ a ha ns x hns hx
    exact congrArg (Option.map Datum.scalar) (hmemory id hid a ha ns x hns hx)

/-- A thread of a kernel stores its value and leaves the buffers of the inputs. -/
theorem exists_runThread (h : IsKernel T tensors op shape worker f out thread accs lowered)
    (hc : op.computation.Defines (.numbers .integer) T op.inputs op.fusionClass.level d shape)
    (hfresh : op.output ∉ op.inputs) (hworker : worker = .grid (some gridDim) (some blockDim))
    (hword : gridDim.toNat * blockDim.toNat < 2 ^ 63) (hshape : ∀ n ∈ shape, 0 ≤ n)
    (hcount : (grid shape).length < 2 ^ 63)
    (hvalue : ∀ point ∈ grid shape, op.computation.value.eval tensors (op.computation.pointEnv point) = .ok (value point))
    (locals : String → Datum Place) {t : Thread} (ht : t ∈ Thread.all gridDim blockDim)
    (hmemory : memory.HoldsAll tensors op.inputs) :
    ∃ r, f.runThread blockDim locals memory t = some r ∧
      r.stores = threadStores op.output.name shape value (t.number blockDim) ∧
      r.state.memory.HoldsAll tensors op.inputs := by
  have hnumber := Thread.number_lt ht
  have hblock := Thread.block_lt ht
  have hgrid : gridDim.toNat < 2 ^ 63 := Nat.lt_trans gridDim.toNat_lt (by decide)
  have hruns : Expr.RunsToNat (t.machine blockDim) memory (f.initialVars locals)
      (Primitive.blockIdx * GridKernel.blockDim worker + Primitive.threadIdx) (t.number blockDim) :=
    runsToNat_number (by rw [hworker]; rfl) rfl rfl (by omega) (Nat.lt_trans hnumber hword)
  rw [Function.runThread, h.body_eq]
  -- the kernel is guarded: only a thread whose number is that of a point stores something
  by_cases hm : t.number blockDim < (grid shape).length
  · have hat := getElem?_grid_pointAt (pos_of_length_grid_pos (Nat.zero_lt_of_lt hm)) (t.number blockDim)
    rw [Nat.mod_eq_of_lt hm] at hat
    obtain ⟨w, hw, hwname⟩ := h.params op.output (Or.inr rfl)
    have hout : (f.initialVars locals).lookup out.name = some (.address (op.output.name, [])) := by
      rw [h.out_name, ← hwname]
      exact Function.lookup_initialVars_of_mem hw locals
    have haccs : ∀ x ∈ accs.map Var.name, ¬ IsNumbered x ∧ x ∈ (f.initialVars locals).map Prod.fst := by
      intro x hx
      obtain ⟨v, hv, rfl⟩ := List.mem_map.mp hx
      exact ⟨(h.locals v hv).2, Function.mem_initialVars (h.locals v hv).1 locals⟩
    obtain ⟨r, hr, -, hstores, hstored⟩ := exists_exec_body_of_lt (s := ⟨f.initialVars locals, memory⟩) hruns hcount hm hc
      (h.value (t.machine blockDim)) (fun x hx => (haccs x hx).1) h.thread (h.supplies locals t hmemory)
      (fun x hx => (haccs x hx).2) h.out_name hout (hvalue _ (List.mem_of_getElem? hat)) rfl
    refine ⟨r, hr, ?_, fun id hid a ha => ?_⟩
    · rw [hstores, threadStores, hat]
      rfl
    · rw [hstored]
      refine (hmemory id hid a ha).store (fun hname => ?_) _
      exact hfresh (TensorId.name_injective hname ▸ hid)
  · have hle : (grid shape).length ≤ t.number blockDim := Nat.not_lt.mp hm
    obtain ⟨r, hr, -, hstores, hkept⟩ : ∃ r, (body worker op.computation shape out thread lowered).exec
        (t.machine blockDim) false ⟨f.initialVars locals, memory⟩ = some r ∧ r.halt = none ∧ r.stores = [] ∧
          r.state.memory = memory := exists_exec_body_of_le hruns hshape hcount hle
    refine ⟨r, hr, ?_, hkept.symm ▸ hmemory⟩
    rw [hstores, threadStores, List.getElem?_eq_none hle]
    rfl

end GridKernel.IsKernel

namespace Operator.Computes

variable [FloatOps] {T : TensorTable} {op : Operator} {d : DType} {shape : List Int64} {gridDim blockDim : UInt32}
  {tensors : Tensors} {a : NDArray}

/-- The threads of the kernel of an operator over integers share out the points of its shape, where they store what the
definition of the operator evaluates to. -/
theorem exists_sharesOut (h : op.Computes (.numbers .integer) T d shape) (hfresh : op.output ∉ op.inputs)
    (hword : gridDim.toNat * blockDim.toNat < 2 ^ 63) (heval : op.computation.evaluate tensors = .ok a)
    (hsize : a.data.size < 2 ^ 63) :
    ∃ f value, GridKernel.kernel { op.task with worker := .grid (some gridDim) (some blockDim) } = .ok f ∧
      a = GridKernel.arrayOf shape value ∧
      f.SharesOut gridDim blockDim (fun memory => memory.HoldsAll tensors op.inputs) op.output.name shape value := by
  obtain ⟨_, vs, hshape, hextents, hvs, rfl⟩ := TensorCompute.evaluate_eq_ok_iff.mp heval
  cases h.defines.constShape?_eq.symm.trans hshape
  rw [points_eq_grid] at hvs
  have hvalues : ∀ point ∈ grid shape, ∃ v, op.computation.value.eval tensors (op.computation.pointEnv point) = .ok v := by
    intro point hpoint
    obtain ⟨v, -, hv⟩ := exists_mem_of_forall₂ hvs hpoint
    exact ⟨v, hv⟩
  choose! value hvalue using hvalues
  obtain rfl : vs = (grid shape).map value := by
    have heq : List.Forall₂ (fun point v => v = value point) (grid shape) vs :=
      forall₂_imp_of_mem hvs fun point hpoint v hv => Except.ok.inj (hv.symm.trans (hvalue point hpoint))
    rw [← List.map_id vs]
    exact map_eq_of_forall₂ heq fun _ _ hv => hv
  have hcount : (grid shape).length < 2 ^ 63 := by simpa using hsize
  obtain ⟨f, out, thread, accs, lowered, hkernel, hf⟩ := h.exists_isKernel (.grid (some gridDim) (some blockDim)) tensors
  refine ⟨f, value, hkernel, ?_, fun t ht locals memory hmemory => ?_⟩
  · rw [List.map_map]
    rfl
  · exact hf.exists_runThread h.defines hfresh rfl hword hextents hcount hvalue locals ht hmemory

/-- A launch of the kernel of an operator over integers writes what the definition of the operator evaluates to exactly if
it has a thread for each element. -/
theorem exists_launches (h : op.Computes (.numbers .integer) T d shape) (hfresh : op.output ∉ op.inputs)
    (hword : gridDim.toNat * blockDim.toNat < 2 ^ 63) (heval : op.computation.evaluate tensors = .ok a)
    (hsize : a.data.size < 2 ^ 63) :
    ∃ f, GridKernel.kernel { op.task with worker := .grid (some gridDim) (some blockDim) } = .ok f ∧
      f.Launches gridDim blockDim (fun memory => memory.HoldsAll tensors op.inputs) fun stores =>
        Writes stores op.output.name a ↔ a.data.size ≤ gridDim.toNat * blockDim.toNat := by
  obtain ⟨f, value, hkernel, rfl, hshares⟩ := h.exists_sharesOut hfresh hword heval hsize
  refine ⟨f, hkernel, hshares.launches.imp fun stores hwrites => ?_⟩
  rw [hwrites, GridKernel.arrayOf, List.size_toArray, List.length_map]

end Operator.Computes

/-- A test for the extents of the reductions of a value, where they are known. -/
def ElementKind.acceptsExtents (k : ElementKind) (e : Expr) : Bool :=
  e.preorder.all fun
    | .reduce _ shape _ _ => (Expr.constShape? shape).all fun extents => extents.all k.hasExtent
    | _ => true

theorem ElementKind.hasExtents_of_acceptsExtents {k : ElementKind} {e : Expr} (h : k.acceptsExtents e) :
    k.HasExtents e := by
  intro kind extents axes value hmem n hn
  have hall := List.all_eq_true.mp h _ hmem
  simp only [Expr.constShape?_ofShape, Option.all_some] at hall
  exact List.all_eq_true.mp hall n hn

namespace Graph

/-- An operator of a well-formed graph does not read its own output. -/
theorem WellFormed.output_not_mem_inputs {k : ElementKind} {g : Graph} {op : Operator} (h : g.WellFormed k)
    (hop : op ∈ g.nodes) : op.output ∉ op.inputs := by
  intro hmem
  obtain ⟨before, after, hnodes⟩ := List.append_of_mem hop
  have hordered := h.ordered
  rw [hnodes] at hordered
  obtain ⟨hreads, hnew, hfresh⟩ := hordered.at_split
  exact (hreads _ hmem).elim hnew hfresh

/-- A graph built over integers is well-formed, optimized or not. -/
theorem wellFormed_integer [FloatOps] {steps : List BuildStep} {g : Graph}
    (hsteps : ∀ step ∈ steps, step.hasKind .integer)
    (hextents : ∀ op ∈ (build steps).nodes, (ElementKind.numbers .integer).HasExtents op.computation.value)
    (hg : g = build steps ∨ (build steps).optimize = .ok g) : g.WellFormed (.numbers .integer) := by
  have hbuilt : (build steps).WellFormed (.numbers .integer) := (Built.empty.foldl_apply hsteps hextents).wellFormed
  rcases hg with rfl | hoptimize
  · exact hbuilt
  · obtain ⟨run, hrun, hwell⟩ := hbuilt.exists_run GraphPass.pipeline
    rw [optimize, hrun] at hoptimize
    cases hoptimize
    exact hwell

/-- The kernel of every operator of a graph over integers, optimized or not, writes what the evaluator gives for the
operator: on a grid with a thread for each element each coordinate of the output is stored once, with its value, and
nothing else is stored, in whatever order the threads run. -/
theorem exists_launch_writes [FloatOps] {steps : List BuildStep} {g : Graph} {op : Operator} {gridDim blockDim : UInt32}
    {tensors : Tensors} {a : NDArray} (hsteps : ∀ step ∈ steps, step.hasKind .integer)
    (hextents : ∀ op ∈ (build steps).nodes, (ElementKind.numbers .integer).HasExtents op.computation.value)
    (hg : g = build steps ∨ (build steps).optimize = .ok g) (hop : op ∈ g.nodes)
    (hworker : op.task.worker = .grid (some gridDim) (some blockDim)) (heval : op.computation.evaluate tensors = .ok a)
    (hthreads : a.data.size ≤ gridDim.toNat * blockDim.toNat) :
    ∃ f, GridKernel.kernel op.task = .ok f ∧
      ∀ (locals : Thread → String → Datum Place) (threads : List Thread) (memory : Buffers),
        threads.Perm (Thread.all gridDim blockDim) → memory.HoldsAll tensors op.inputs →
          ∃ events memory', f.launch blockDim locals threads memory = some (events, memory') ∧
            Writes (storesOf events) op.output.name a := by
  have hwell := wellFormed_integer hsteps hextents hg
  obtain ⟨d, shape, hcomputes⟩ := hwell.computed op hop
  have hword : gridDim.toNat * blockDim.toNat < 2 ^ 63 := by
    obtain ⟨-, hblock⟩ := Worker.grid.inj (hworker.symm.trans hcomputes.worker_eq)
    obtain rfl : blockDim = 256 := Option.some.inj hblock
    exact Nat.lt_trans (Nat.mul_lt_mul_of_pos_right gridDim.toNat_lt (by decide)) (by decide)
  obtain ⟨f, hkernel, hlaunches⟩ := hcomputes.exists_launches (hwell.output_not_mem_inputs hop) hword heval
    (Nat.lt_of_le_of_lt hthreads hword)
  rw [← hworker] at hkernel
  exact ⟨f, hkernel, hlaunches.imp fun stores hwrites => hwrites.mpr hthreads⟩

/-- The means of the rows of a negated matrix of integers. -/
def rowMeanSteps : List BuildStep :=
  [.input "x" .int32 [2, 2], .unary .neg 0, .reduceAxis .avg 1 1, .output 2]

/-- The kernel of the means writes two quotients, which are rounded toward zero, on one block of threads. -/
theorem exists_launch_writes_rowMean :
    ∃ op ∈ (build rowMeanSteps).nodes, ∃ f, GridKernel.kernel op.task = .ok f ∧
      ∀ (locals : Thread → String → Datum Place) (threads : List Thread) (memory : Buffers),
        threads.Perm (Thread.all 1 256) → memory.HoldsAll [("t1", ⟨[2, 2], #[1.0, 2.0, -3.0, -8.0]⟩)] op.inputs →
          ∃ events memory', f.launch 256 locals threads memory = some (events, memory') ∧
            Writes (storesOf events) op.output.name ⟨[2], #[1.0, -5.0]⟩ := by
  have hextents : ∀ op ∈ (build rowMeanSteps).nodes,
      (ElementKind.numbers .integer).acceptsExtents op.computation.value := by decide
  obtain ⟨op, hop, hworker, heval⟩ : ∃ op ∈ (build rowMeanSteps).nodes,
      op.task.worker = .grid (some 1) (some 256) ∧
        op.computation.evaluate [("t1", ⟨[2, 2], #[1.0, 2.0, -3.0, -8.0]⟩)] = .ok ⟨[2], #[1.0, -5.0]⟩ :=
    ⟨_, List.mem_cons_of_mem _ List.mem_cons_self, rfl, rfl⟩
  exact ⟨op, hop, exists_launch_writes (by decide)
    (fun op hop => ElementKind.hasExtents_of_acceptsExtents (hextents op hop)) (Or.inl rfl) hop hworker heval (by decide)⟩

end Graph

end TensorCompiler
