import TensorCompiler.Proofs.Lowering.Reachability
import TensorCompiler.Proofs.Lowering.Settled

/-! # Transforms that have run

A transform of modules does nothing to a module that it has made: what the host reaches is reached without the functions
that were dropped, each entry has its wrapper and a wrapper gets none, a buffer is no tensor of several dimensions, and
simplified bodies are settled.
-/

namespace TensorCompiler

/-! ## Reachable functions -/

namespace Module

variable {m m' : Module}

theorem mem_filter_contains {names : List String} {f : Function} :
    f ∈ (m.filter fun f => names.contains f.name).functions ↔ f ∈ m.functions ∧ f.name ∈ names := by
  rw [Module.filter, List.mem_filter, List.contains_iff_mem]

/-- What the host can reach is reached without the functions that it cannot. -/
theorem Reaches.filter {name : String} (h : m.Reaches name) :
    (m.filter fun f => m.reachable.contains f.name).Reaches name := by
  induction h with
  | entry hf hhost =>
    exact .entry (mem_filter_contains.mpr ⟨hf, mem_reachable_iff.mpr (.entry hf hhost)⟩) hhost
  | call hf hcaller hg hcall ih =>
    have hcallee := mem_reachable_iff.mpr (.call hf hcaller hg hcall)
    exact .call (mem_filter_contains.mpr ⟨hf, mem_reachable_iff.mpr hcaller⟩) ih
      (mem_filter_contains.mpr ⟨hg, hcallee⟩) hcall

/-- What is left of a module once the functions out of reach are dropped is in reach. -/
theorem dropUnreachable_dropUnreachable (m : Module) : m.dropUnreachable.dropUnreachable = m.dropUnreachable := by
  by_cases hempty : m.entries.isEmpty
  · have hsame : m.dropUnreachable = m := if_pos hempty
    rw [hsame, hsame]
  · have hdropped : m.dropUnreachable = m.filter fun f => m.reachable.contains f.name := if_neg hempty
    rw [hdropped]
    set kept := m.filter fun f => m.reachable.contains f.name
    have hall : kept.functions.filter (fun f => kept.reachable.contains f.name) = kept.functions :=
      List.filter_eq_self.mpr fun f hf =>
        List.contains_iff_mem.mpr
          (mem_reachable_iff.mpr (Reaches.filter (mem_reachable_iff.mp (mem_filter_contains.mp hf).2)))
    rw [dropUnreachable]
    split_ifs
    · rfl
    · exact congrArg Module.mk hall

end Module

/-! ## Wrappers -/

/-- The name of a wrapper, and that it is one. -/
theorem PackedCall.wrapper_header {entry w : Function} (h : wrapper entry = .ok w) :
    w.name = wrapperName entry.name ∧ w.packed.isSome := by
  obtain ⟨checks, -, hresult⟩ := bind_eq_ok_iff.mp h
  cases hresult
  exact ⟨rfl, rfl⟩

namespace Module

variable {m m' : Module}

/-- An entry with a wrapper needs none, and neither does a wrapper. -/
theorem addWrappers_addWrappers (h : m.addWrappers = .ok m') : m'.addWrappers = .ok m' := by
  obtain ⟨wrappers, hwrappers, hmerge⟩ := bind_eq_ok_iff.mp h
  have hmade := mapM_eq_ok_iff.mp hwrappers
  have hnone : ∀ f ∈ m'.functions, ¬m'.needsWrapper f := by
    intro f hf hneeds
    obtain ⟨hhost, hplain, hfree⟩ := needsWrapper_iff.mp hneeds
    have hnames : m'.names = m.names ++ names ⟨wrappers⟩ := by
      rw [names, functions_of_merge hmerge, List.map_append]
      rfl
    rw [hnames, List.mem_append, not_or] at hfree
    rw [functions_of_merge hmerge] at hf
    rcases List.mem_append.mp hf with hf | hf
    · -- the wrapper of `f` is among those that were added
      have hneeded : f ∈ m.functions.filter m.needsWrapper :=
        List.mem_filter.mpr ⟨hf, needsWrapper_iff.mpr ⟨hhost, hplain, hfree.1⟩⟩
      obtain ⟨w, hw, hwrapper⟩ := exists_mem_of_forall₂ hmade hneeded
      exact hfree.2 (List.mem_map.mpr ⟨w, hw, (PackedCall.wrapper_header hwrapper).1⟩)
    · have hpacked : f.packed.isSome :=
        forall_mem_of_forall₂ hmade (fun entry _ w hw => (PackedCall.wrapper_header hw).2) f hf
      rw [hplain] at hpacked
      cases hpacked
  have hfilter : m'.functions.filter m'.needsWrapper = [] := List.filter_eq_nil_iff.mpr hnone
  rw [addWrappers, hfilter]
  rfl

end Module

/-! ## Flat buffers -/

section

variable [FloatOps]

/-- A buffer becomes no other buffer. -/
theorem Var.flatten?_getD (v : Var) : ((v.flatten?.map FlatBuffer.buffer).getD v).flatten? = none := by
  cases h : v.flatten? with
  | none => exact h
  | some flat =>
    obtain ⟨type, -, h⟩ := Option.bind_eq_some_iff.mp h
    obtain ⟨shape, -, h⟩ := Option.bind_eq_some_iff.mp h
    split_ifs at h
    obtain ⟨strides, -, h⟩ := Option.bind_eq_some_iff.mp h
    cases h
    rfl

theorem FlatBuffers.ofVars_eq_nil {vars : List Var} (h : ∀ v ∈ vars, v.flatten? = none) : FlatBuffers.ofVars vars = [] := by
  rw [ofVars, List.reverse_eq_nil_iff, List.filterMap_eq_nil_iff]
  intro v hv
  rw [h v hv]
  rfl

theorem Function.flattenTensors_flattenTensors (f : Function) : f.flattenTensors.flattenTensors = f.flattenTensors := by
  by_cases hempty : (FlatBuffers.ofVars (f.params ++ f.locals)).isEmpty
  · have hsame : f.flattenTensors = f := if_pos hempty
    rw [hsame, hsame]
  · have hflat : ∀ v ∈ f.flattenTensors.params ++ f.flattenTensors.locals, v.flatten? = none := by
      rw [flattenTensors, if_neg hempty, ← List.map_append]
      exact List.forall_mem_map.mpr fun v _ => v.flatten?_getD
    have hdone : (FlatBuffers.ofVars (f.flattenTensors.params ++ f.flattenTensors.locals)).isEmpty := by
      rw [FlatBuffers.ofVars_eq_nil hflat, List.isEmpty_nil]
    exact if_pos hdone

end

/-! ## All transforms -/

/-- Each transform of modules is idempotent: what it makes of a module it leaves as it is. -/
theorem Lowering.run_run [FloatOps] {transform : Lowering} {m m' : Module} (h : transform.run m = .ok m') :
    transform.run m' = .ok m' := by
  have hmap {F : Function → Function} (hF : ∀ f, F (F f) = F f) : (m.map F).map F = m.map F := by
    rw [Module.map, Module.map, List.map_map]
    exact congrArg Module.mk (List.map_congr_left fun f _ => hF f)
  cases transform with
  | dropUnreachable =>
    cases h
    exact congrArg Except.ok m.dropUnreachable_dropUnreachable
  | addWrappers => exact Module.addWrappers_addWrappers h
  | flattenTensors =>
    cases h
    exact congrArg Except.ok (hmap Function.flattenTensors_flattenTensors)
  | foldConstants =>
    cases h
    refine congrArg Except.ok (hmap fun f => ?_)
    rw [Function.foldConstants, Function.foldConstants, Stmt.isSweep_fold.apply_apply (.ofWorker f.worker) f.body]
  | simplifyBounds =>
    cases h
    refine congrArg Except.ok (hmap fun f => ?_)
    rw [Function.simplifyBounds, Function.simplifyBounds, Stmt.isSweep_simplifyBounds.apply_apply]

/-- A kernel of four blocks with 32 threads each that copies a tensor. -/
def Function.copyKernel (extents : List Int64) (indices : List Expr) (guarded : Stmt → Stmt) : Function :=
  let x : Var := ⟨"x", .tensor (.ofShape .global .float32 extents)⟩
  let y : Var := ⟨"y", .tensor (.ofShape .global .float32 extents)⟩
  { name := "copy"
    worker := .grid (some 4) (some 32)
    params := [x, y]
    body := guarded (.store (.var y) indices (.element (.var x) indices)) }

/-- A kernel that copies a matrix, a row in each block, under a guard that holds of all threads, and a function that
nothing calls. -/
def Module.rowCopy : Module where
  functions := [.copyKernel [4, 32] [Primitive.blockIdx, Primitive.threadIdx]
    (.ite (Primitive.threadIdx.lt (.int 16 + .int 16)) · none), { name := "unused", worker := .thread }]

/-- Each transform changes the copy of rows in its own way, and a second run changes nothing. -/
theorem Lowering.run_run_rowCopy :
    let unused : Function := { name := "unused", worker := .thread }
    let place := [Primitive.blockIdx, Primitive.threadIdx]
    let guarded (stmt : Stmt) := Stmt.ite (Primitive.threadIdx.lt (.int 16 + .int 16)) stmt none
    let reached : Module := ⟨[.copyKernel [4, 32] place guarded]⟩
    let flat : Module := ⟨[.copyKernel [128] [Primitive.blockIdx * Expr.int 32 + Primitive.threadIdx] guarded, unused]⟩
    let folded : Module := ⟨[.copyKernel [4, 32] place (.ite (Primitive.threadIdx.lt (.int 32)) · none), unused]⟩
    let bounded : Module := ⟨[.copyKernel [4, 32] place id, unused]⟩
    (dropUnreachable.run .rowCopy = .ok reached ∧ dropUnreachable.run reached = .ok reached) ∧
      (∃ wrapped : Module, addWrappers.run .rowCopy = .ok wrapped ∧ wrapped.names = ["copy", "unused", "copy_packed"] ∧
        addWrappers.run wrapped = .ok wrapped) ∧
      (flattenTensors.run .rowCopy = .ok flat ∧ flattenTensors.run flat = .ok flat) ∧
      (foldConstants.run .rowCopy = .ok folded ∧ foldConstants.run folded = .ok folded) ∧
      (simplifyBounds.run .rowCopy = .ok bounded ∧ simplifyBounds.run bounded = .ok bounded) :=
  ⟨⟨rfl, run_run (m := .rowCopy) rfl⟩, ⟨_, rfl, rfl, run_run (m := .rowCopy) rfl⟩, ⟨rfl, run_run (m := .rowCopy) rfl⟩,
    ⟨rfl, run_run (m := .rowCopy) rfl⟩, ⟨rfl, run_run (m := .rowCopy) rfl⟩⟩

end TensorCompiler
