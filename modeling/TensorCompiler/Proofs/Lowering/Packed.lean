import Mathlib.Data.List.Nodup
import TensorCompiler.Lowering.Pipeline
import TensorCompiler.Proofs.Result

/-! # Modules of entries

Merging appends functions whose names are new. A module in which the host can invoke every function loses none of them,
and each of them that lacks a wrapper gets one, behind the functions of the module and in their order. No later
transform changes the name of a function, where it runs or what it wraps.
-/

namespace TensorCompiler

/-- What no transform of a module changes: the name of a function, its worker, and the entry that it wraps. -/
def Function.header (f : Function) : String × Worker × Option String :=
  (f.name, f.worker, f.packed)

namespace Module

variable {m : Module}

/-! ## Merging -/

theorem contains_iff {name : String} : m.contains name = true ↔ name ∈ m.names := by
  rw [contains, get?, List.find?_isSome, names, List.mem_map]
  simp only [beq_iff_eq]

theorem add_of_not_mem {f : Function} (h : f.name ∉ m.names) : m.add f = .ok ⟨m.functions ++ [f]⟩ :=
  if_neg fun hcontains => h (contains_iff.mp hcontains)

theorem addAll_eq {functions : List Function} (h : (m.names ++ functions.map Function.name).Nodup) :
    m.addAll functions = (⟨m.functions ++ functions⟩, none) := by
  induction functions generalizing m with
  | nil => rw [addAll, List.append_nil]
  | cons f functions ih =>
    have hnew : f.name ∉ m.names := by
      intro hmem
      exact (List.nodup_append.mp h).2.2 _ hmem _ List.mem_cons_self rfl
    have hrest : (names ⟨m.functions ++ [f]⟩ ++ functions.map Function.name).Nodup := by
      rw [names, List.map_append, List.append_assoc]
      exact h
    rw [addAll, add_of_not_mem hnew]
    exact (ih hrest).trans (by rw [List.append_assoc]; rfl)

/-- Merging appends functions of new names. -/
theorem merge_eq_ok {other : Module} (h : (m.names ++ other.names).Nodup) :
    m.merge other = .ok ⟨m.functions ++ other.functions⟩ := by
  rw [merge, addAll_eq h]

theorem functions_of_addAll {m' : Module} {functions : List Function} (h : m.addAll functions = (m', none)) :
    m'.functions = m.functions ++ functions := by
  induction functions generalizing m with
  | nil =>
    cases h
    exact (List.append_nil _).symm
  | cons f functions ih =>
    rw [addAll, add] at h
    split_ifs at h
    · cases h
    · rw [ih h, List.append_assoc]
      rfl

/-- A merge that succeeds has appended the functions. -/
theorem functions_of_merge {m' other : Module} (h : m.merge other = .ok m') :
    m'.functions = m.functions ++ other.functions := by
  rw [merge] at h
  split at h
  · rename_i merged hadded
    cases h
    exact functions_of_addAll hadded
  · cases h

/-- Merging modules of one function each appends these functions. -/
theorem foldlM_merge_eq_ok {functions : List Function} (h : (m.names ++ functions.map Function.name).Nodup) :
    (functions.map fun f => Module.mk [f]).foldlM merge m = .ok ⟨m.functions ++ functions⟩ := by
  induction functions generalizing m with
  | nil =>
    rw [List.append_nil]
    rfl
  | cons f functions ih =>
    have happend : m.names ++ (f :: functions).map Function.name =
        (m.names ++ names ⟨[f]⟩) ++ functions.map Function.name := by
      rw [List.append_assoc]
      rfl
    rw [happend] at h
    have hmerge : m.merge ⟨[f]⟩ = .ok ⟨m.functions ++ [f]⟩ := merge_eq_ok h.of_append_left
    have hrest : (names ⟨m.functions ++ [f]⟩ ++ functions.map Function.name).Nodup := by
      rw [names, List.map_append]
      exact h
    rw [List.map_cons, List.foldlM_cons, hmerge, bind_ok, ih hrest, List.append_assoc]
    rfl

/-! ## Reachability -/

theorem mem_closure {edges : CallEdges} {steps : Nat} {reached : List String}
    {name : String} (h : name ∈ reached) : name ∈ edges.closure steps reached := by
  induction steps generalizing reached with
  | zero => exact h
  | succ steps ih =>
    rw [CallEdges.closure]
    split
    · exact h
    · exact ih (List.mem_append_left _ h)

/-- What the host can invoke is reachable, so nothing is dropped from a module of entries. -/
theorem dropUnreachable_eq_self (h : ∀ f ∈ m.functions, f.worker.isHostCallable = true) : m.dropUnreachable = m := by
  have hentries : m.entries = m.functions := List.filter_eq_self.mpr h
  have hkeep : m.functions.filter (fun f => m.reachable.contains f.name) = m.functions := by
    refine List.filter_eq_self.mpr fun f hf => List.contains_iff_mem.mpr ?_
    refine mem_closure ?_
    rw [hentries]
    exact List.mem_map_of_mem hf
  rw [dropUnreachable]
  split_ifs
  · rfl
  · rw [Module.filter, hkeep]

/-! ## Wrappers -/

end Module

namespace PackedCall

theorem wrapperName_injective : Function.Injective wrapperName := by
  intro a b h
  have hlist : (wrapperName a).toList = (wrapperName b).toList := congrArg String.toList h
  rw [wrapperName, wrapperName, String.toList_append, String.toList_append] at hlist
  exact String.toList_inj.mp (List.append_cancel_right hlist)

theorem exists_codeChecks (entry : String) {params : List Var} (h : ∀ v ∈ params, v.ty.packedCode?.isSome) (index : Nat) :
    ∃ checks, codeChecks entry index params = .ok checks := by
  induction params generalizing index with
  | nil => exact ⟨[], rfl⟩
  | cons v params ih =>
    obtain ⟨code, hcode⟩ := Option.isSome_iff_exists.mp (h v List.mem_cons_self)
    obtain ⟨checks, hchecks⟩ := ih (fun w hw => h w (List.mem_cons_of_mem _ hw)) (index + 1)
    refine ⟨codeCheck entry index code :: checks, ?_⟩
    rw [codeChecks, hcode]
    change (codeChecks entry (index + 1) params >>= _) = _
    rw [hchecks]
    rfl

/-- A function whose parameters have type codes has a wrapper. -/
theorem exists_wrapper {f : Function} (h : ∀ v ∈ f.params, v.ty.packedCode?.isSome) :
    ∃ w, wrapper f = .ok w ∧ w.header = (wrapperName f.name, .host, some f.name) := by
  obtain ⟨checks, hchecks⟩ := exists_codeChecks f.name h 0
  rw [wrapper, hchecks]
  exact ⟨_, rfl, rfl⟩

end PackedCall

namespace Module

variable {m : Module}

/-- An entry lacks a wrapper as long as the name of the wrapper is free. -/
theorem needsWrapper_iff {f : Function} :
    m.needsWrapper f ↔ f.worker.isHostCallable ∧ f.packed = none ∧ PackedCall.wrapperName f.name ∉ m.names := by
  rw [needsWrapper, Bool.and_eq_true, Bool.and_eq_true, Bool.not_eq_true', ← Bool.not_eq_true, contains_iff,
    Option.isNone_iff_eq_none, and_assoc]

/-- The wrappers of the entries that lack one stand behind the functions of the module, in the order of the entries. -/
theorem exists_addWrappers (hnodup : m.names.Nodup)
    (hparams : ∀ f ∈ m.functions, ∀ v ∈ f.params, v.ty.packedCode?.isSome) :
    ∃ wrappers, m.addWrappers = .ok ⟨m.functions ++ wrappers⟩ ∧
      wrappers.map Function.header =
        (m.functions.filter m.needsWrapper).map fun f => (PackedCall.wrapperName f.name, .host, some f.name) := by
  obtain ⟨wrappers, hwrappers⟩ : ∃ wrappers, List.Forall₂ (fun f w => PackedCall.wrapper f = .ok w ∧
      w.header = (PackedCall.wrapperName f.name, Worker.host, some f.name))
      (m.functions.filter m.needsWrapper) wrappers :=
    exists_forall₂ fun f hf => PackedCall.exists_wrapper (hparams f (List.mem_of_mem_filter hf))
  have hheaders : wrappers.map Function.header =
      (m.functions.filter m.needsWrapper).map fun f => (PackedCall.wrapperName f.name, .host, some f.name) :=
    map_eq_of_forall₂ hwrappers fun f w h => h.2
  have hnames : wrappers.map Function.name =
      (m.functions.filter m.needsWrapper).map fun f => PackedCall.wrapperName f.name := by
    have hfirst := congrArg (List.map Prod.fst) hheaders
    rwa [List.map_map, List.map_map] at hfirst
  have hmapM : (m.functions.filter m.needsWrapper).mapM PackedCall.wrapper = .ok wrappers :=
    mapM_eq_ok_iff.mpr (hwrappers.imp fun f w h => h.1)
  refine ⟨wrappers, ?_, hheaders⟩
  rw [addWrappers, hmapM, bind_ok]
  refine merge_eq_ok (List.nodup_append.mpr ⟨hnodup, ?_, ?_⟩)
  · have hentries : ((m.functions.filter m.needsWrapper).map Function.name).Nodup :=
      hnodup.sublist (List.filter_sublist.map _)
    have hwrapped := hentries.map PackedCall.wrapperName_injective
    rw [List.map_map] at hwrapped
    rw [names, hnames]
    exact hwrapped
  · intro name hname name' hname' heq
    rw [names, hnames] at hname'
    obtain ⟨f, hf, rfl⟩ := List.mem_map.mp hname'
    obtain ⟨-, -, hfree⟩ := needsWrapper_iff.mp (List.mem_filter.mp hf).2
    exact hfree (heq ▸ hname)

end Module

/-! ## All transforms -/

section

variable [FloatOps]

/-- A function after the transforms that work on one function at a time. -/
def Function.lowered (f : Function) : Function :=
  f.flattenTensors.foldConstants.simplifyBounds

theorem Function.header_flattenTensors (f : Function) : f.flattenTensors.header = f.header := by
  rw [Function.flattenTensors]
  split_ifs <;> rfl

theorem Function.header_lowered (f : Function) : f.lowered.header = f.header :=
  f.header_flattenTensors

/-- Lowering a module of entries puts their wrappers behind them and lowers each of these functions. -/
theorem Module.exists_lower {m : Module} (hnodup : m.names.Nodup)
    (hentries : ∀ f ∈ m.functions, f.worker.isHostCallable = true)
    (hparams : ∀ f ∈ m.functions, ∀ v ∈ f.params, v.ty.packedCode?.isSome) :
    ∃ wrappers, Lowerer.canonical.run m = .ok ⟨(m.functions ++ wrappers).map Function.lowered⟩ ∧
      wrappers.map Function.header =
        (m.functions.filter m.needsWrapper).map fun f => (PackedCall.wrapperName f.name, .host, some f.name) := by
  obtain ⟨wrappers, hwrappers, hheaders⟩ := exists_addWrappers hnodup hparams
  refine ⟨wrappers, ?_, hheaders⟩
  let wrapped : Module := ⟨m.functions ++ wrappers⟩
  have hdropped : Lowering.run .dropUnreachable m = .ok m := congrArg Except.ok (dropUnreachable_eq_self hentries)
  have hadded : Lowering.run .addWrappers m = .ok wrapped := hwrappers
  have hlowered : ((wrapped.map Function.flattenTensors).map Function.foldConstants).map Function.simplifyBounds =
      wrapped.map Function.lowered := by
    simp only [Module.map, List.map_map]
    rfl
  rw [Lowerer.run]
  change (Lowering.run .dropUnreachable m >>= fun m => Lowering.run .addWrappers m >>= _) = _
  rw [hdropped, bind_ok, hadded]
  exact congrArg Except.ok hlowered

end

end TensorCompiler
