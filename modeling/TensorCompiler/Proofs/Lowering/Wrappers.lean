import TensorCompiler.Proofs.Lowering.Frame
import TensorCompiler.Proofs.Program.Calls

/-! # Which entries have wrappers

An entry gets its wrapper unless the name of the wrapper is taken. Whoever has that name is not looked at: it may be the
wrapper from a run before, and it may be a function that has nothing to do with the entry, which then stays without one.
-/

namespace TensorCompiler

/-- Whether a function is what callers of an entry look for: it has the name of the entry's wrapper, says that it wraps
the entry, and calls it. -/
structure Function.Wraps (w entry : Function) : Prop where
  name_eq : w.name = PackedCall.wrapperName entry.name
  packed_eq : w.packed = some entry.name
  calls : w.body.Calls entry.name

theorem PackedCall.wraps_wrapper {entry w : Function} (h : wrapper entry = .ok w) : w.Wraps entry := by
  have hframe := Function.frame_wrapper h
  refine ⟨congrArg Function.Frame.name hframe, congrArg Function.Frame.packed hframe, ?_⟩
  obtain ⟨checks, -, hresult⟩ := bind_eq_ok_iff.mp h
  cases hresult
  exact Stmt.calls_block.mpr ⟨_, List.mem_append_right _ List.mem_cons_self, Or.inl rfl⟩

namespace Module

variable {m m' : Module}

/-- Behind the functions of a module come the wrappers of the entries that lack one. -/
theorem exists_wrappers (h : m.addWrappers = .ok m') :
    ∃ wrappers, m'.functions = m.functions ++ wrappers ∧
      List.Forall₂ (fun entry w => PackedCall.wrapper entry = .ok w ∧ w.IsWrapperOf entry)
        (m.functions.filter m.needsWrapper) wrappers := by
  obtain ⟨wrappers, hwrappers, hmerge⟩ := bind_eq_ok_iff.mp h
  refine ⟨wrappers, functions_of_merge hmerge, ?_⟩
  refine forall₂_imp_of_mem (mapM_eq_ok_iff.mp hwrappers) fun entry hentry w hw => ?_
  obtain ⟨hhost, hplain, -⟩ := needsWrapper_iff.mp (List.mem_filter.mp hentry).2
  exact ⟨hw, Function.frame_wrapper hw, hhost, hplain⟩

theorem nodup_names_of_addWrappers (hnodup : m.names.Nodup) (h : m.addWrappers = .ok m') : m'.names.Nodup := by
  obtain ⟨_, -, hmerge⟩ := bind_eq_ok_iff.mp h
  exact nodup_names_of_merge hnodup hmerge

/-- Wrappers are added behind the functions of a module, one for each entry that lacks one and in the order of the
entries. An entry then has its wrapper if and only if no function of the module had the name of the wrapper without being
one. -/
theorem functions_addWrappers (hnodup : m.names.Nodup) (h : m.addWrappers = .ok m') :
    (∃ wrappers, m'.functions = m.functions ++ wrappers ∧
      List.Forall₂ (fun entry w => w.IsWrapperOf entry ∧ w.Wraps entry) (m.functions.filter m.needsWrapper) wrappers) ∧
    ∀ entry ∈ m'.functions, entry.worker.isHostCallable → entry.packed = none →
      ((∃ w ∈ m'.functions, w.Wraps entry) ↔
        ∀ f ∈ m.functions, f.name = PackedCall.wrapperName entry.name → f.Wraps entry) := by
  obtain ⟨wrappers, hfunctions, hwrappers⟩ := exists_wrappers h
  have hmade : List.Forall₂ (fun entry w => w.IsWrapperOf entry ∧ w.Wraps entry)
      (m.functions.filter m.needsWrapper) wrappers :=
    hwrappers.imp fun entry w hw => ⟨hw.2, PackedCall.wraps_wrapper hw.1⟩
  have hkept : ∀ f ∈ m.functions, f ∈ m'.functions := fun f hf => hfunctions ▸ List.mem_append_left _ hf
  refine ⟨⟨wrappers, hfunctions, hmade⟩, fun entry hentry hhost hplain => ⟨?_, fun hnamed => ?_⟩⟩
  · rintro ⟨w, hw, hwraps⟩ f hf hname
    have hsame : f = w := List.inj_on_of_nodup_map (nodup_names_of_addWrappers hnodup h) (hkept f hf) hw
      (hname.trans hwraps.name_eq.symm)
    exact hsame ▸ hwraps
  · by_cases htaken : PackedCall.wrapperName entry.name ∈ m.names
    · obtain ⟨f, hf, hname⟩ := List.mem_map.mp htaken
      exact ⟨f, hkept f hf, hnamed f hf hname⟩
    · -- a wrapper is not plain, so the entry was there before
      have hnew : entry ∉ wrappers := by
        intro hmem
        have hpacked := forall_mem_of_forall₂ hmade (fun e _ w hw => hw.2.packed_eq ▸ Option.some_ne_none e.name) entry hmem
        exact hpacked hplain
      rw [hfunctions] at hentry
      have hneeds : entry ∈ m.functions.filter m.needsWrapper := List.mem_filter.mpr
        ⟨(List.mem_append.mp hentry).resolve_right hnew, needsWrapper_iff.mpr ⟨hhost, hplain, htaken⟩⟩
      obtain ⟨w, hw, -, hwraps⟩ := exists_mem_of_forall₂ hmade hneeds
      exact ⟨w, hfunctions ▸ List.mem_append_right _ hw, hwraps⟩

/-- Two entries, and a function of a thread that has the name of a wrapper. -/
def nameTaken : Module where
  functions := [{ name := "k", worker := .host }, { name := "k_packed", worker := .thread }, { name := "run", worker := .host }]

/-- Only the entry whose wrapper's name is free gets a wrapper. -/
theorem functions_addWrappers_nameTaken :
    ∃ m', nameTaken.addWrappers = .ok m' ∧ m'.names = ["k", "k_packed", "run", "run_packed"] ∧ nameTaken.names.Nodup ∧
      ∀ entry ∈ m'.functions, entry.worker.isHostCallable → entry.packed = none →
        ((∃ w ∈ m'.functions, w.Wraps entry) ↔
          ∀ f ∈ nameTaken.functions, f.name = PackedCall.wrapperName entry.name → f.Wraps entry) := by
  obtain ⟨m', hrun, hnames⟩ : ∃ m', nameTaken.addWrappers = .ok m' ∧ m'.names = ["k", "k_packed", "run", "run_packed"] :=
    ⟨_, rfl, rfl⟩
  have hnodup : nameTaken.names.Nodup := by decide
  exact ⟨m', hrun, hnames, hnodup, (functions_addWrappers hnodup hrun).2⟩

/-- A run on such a module succeeds and leaves an entry without a wrapper. -/
theorem exists_entry_not_wrapped :
    ∃ m', nameTaken.addWrappers = .ok m' ∧ ∃ entry ∈ m'.functions, entry.worker.isHostCallable ∧ entry.packed = none ∧
      ¬∃ w ∈ m'.functions, w.Wraps entry := by
  obtain ⟨m', hrun, hfirst, hnone⟩ : ∃ m', nameTaken.addWrappers = .ok m' ∧ m'.functions.head? = nameTaken.functions.head? ∧
      ∀ w ∈ m'.functions, w.packed ≠ some "k" := ⟨_, rfl, rfl, by decide⟩
  refine ⟨m', hrun, _, List.mem_of_head? hfirst, rfl, rfl, ?_⟩
  rintro ⟨w, hw, hwraps⟩
  exact hnone w hw hwraps.packed_eq

end Module

end TensorCompiler
