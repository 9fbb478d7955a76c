import TensorCompiler.Proofs.Graph.Order
import TensorCompiler.Proofs.Lowering.Packed
import TensorCompiler.Proofs.Program.Calls

/-! # The functions that the host reaches

The host reaches the functions that it can invoke and those that a reached function calls. Dropping keeps exactly these:
the search finds no other, since each of its steps follows a call, and it misses none, since it stops only where nothing
new is called.
-/

namespace TensorCompiler

/-! ## The search -/

namespace CallEdges

variable {edges : CallEdges} {reached names : List String}

/-- Whether a list of names has all names that they lead to. -/
def IsClosed (edges : CallEdges) (names : List String) : Prop :=
  ∀ edge ∈ edges, edge.1 ∈ names → ∀ callee ∈ edge.2, callee ∈ names

theorem mem_frontier {name : String} :
    name ∈ edges.frontier reached ↔ (∃ edge ∈ edges, edge.1 ∈ reached ∧ name ∈ edge.2) ∧ name ∉ reached := by
  have hnext (edge : String × List String) : name ∈ (if reached.contains edge.1 then edge.2 else []) ↔
      edge.1 ∈ reached ∧ name ∈ edge.2 := by
    split_ifs with hcaller
    · simp [List.contains_iff_mem.mp hcaller]
    · simp [mt List.contains_iff_mem.mpr hcaller]
  have hnew : (!reached.contains name) = true ↔ name ∉ reached := by simp
  rw [frontier, mem_firstOccurrences, List.mem_filter, List.mem_flatMap, hnew]
  simp only [hnext]

theorem isClosed_of_frontier (h : edges.frontier reached = []) : edges.IsClosed reached := by
  intro edge hedge hcaller callee hcallee
  by_contra hnew
  have hmem : callee ∈ edges.frontier reached := mem_frontier.mpr ⟨⟨edge, hedge, hcaller, hcallee⟩, hnew⟩
  rw [h] at hmem
  cases hmem

/-- What passes from a name to those that it leads to holds of all that is reached from names of which it holds. -/
theorem closure_induct {P : String → Prop} (hstep : ∀ edge ∈ edges, P edge.1 → ∀ callee ∈ edge.2, P callee)
    (hreached : ∀ name ∈ reached, P name) (steps : Nat) : ∀ name ∈ edges.closure steps reached, P name := by
  induction steps generalizing reached with
  | zero => exact hreached
  | succ steps ih =>
    rw [closure]
    split
    · exact hreached
    · refine ih fun name hname => ?_
      rcases List.mem_append.mp hname with hname | hname
      · exact hreached name hname
      · obtain ⟨⟨edge, hedge, hcaller, hcallee⟩, -⟩ := mem_frontier.mp hname
        exact hstep edge hedge (hreached _ hcaller) name hcallee

/-- As many steps as names can be reached lead to all that is reached: every step but the last reaches a new name. -/
theorem isClosed_closure (hnames : ∀ edge ∈ edges, ∀ callee ∈ edge.2, callee ∈ names) {steps : Nat}
    (hsteps : names.countP (fun name => !reached.contains name) ≤ steps) :
    edges.IsClosed (edges.closure steps reached) := by
  induction steps generalizing reached with
  | zero =>
    have hall := List.countP_eq_zero.mp (Nat.le_zero.mp hsteps)
    intro edge hedge _ callee hcallee
    rw [closure]
    simpa using hall callee (hnames edge hedge callee hcallee)
  | succ steps ih =>
    rw [closure]
    split
    · rename_i hnone
      exact isClosed_of_frontier hnone
    · rename_i hsome
      obtain ⟨name, hname⟩ := List.exists_mem_of_ne_nil _ hsome
      obtain ⟨⟨edge, hedge, -, hcallee⟩, hnew⟩ := mem_frontier.mp hname
      have hfewer : names.countP (fun other => !(reached ++ edges.frontier reached).contains other) <
          names.countP fun other => !reached.contains other := by
        refine countP_lt_countP (hnames edge hedge name hcallee) (fun other _ hother => ?_) ?_ ?_
        · simp_all
        · simp [hname]
        · simp [hnew]
      exact ih (by omega)

end CallEdges

/-! ## The functions that are kept -/

namespace Module

/-- The names that the host reaches: those of the functions that it can invoke, and those of the functions of the module
that the body of a reached one calls. -/
inductive Reaches (m : Module) : String → Prop
  | entry {f : Function} (hf : f ∈ m.functions) (hhost : f.worker.isHostCallable) : Reaches m f.name
  | call {f g : Function} (hf : f ∈ m.functions) (h : Reaches m f.name) (hg : g ∈ m.functions)
    (hcall : f.body.Calls g.name) : Reaches m g.name

variable {m : Module}

theorem mem_entries {f : Function} : f ∈ m.entries ↔ f ∈ m.functions ∧ f.worker.isHostCallable :=
  List.mem_filter

/-- Calls of functions that are not in the module lead nowhere. -/
theorem mem_callees_filter {f : Function} {name : String} :
    name ∈ f.callees.filter m.contains ↔ f.body.Calls name ∧ ∃ g ∈ m.functions, g.name = name := by
  rw [List.mem_filter, Function.mem_callees, contains_iff, names, List.mem_map]

theorem mem_callEdges {edge : String × List String} :
    edge ∈ m.callEdges ↔ ∃ f ∈ m.functions, edge = (f.name, f.callees.filter m.contains) := by
  simp only [callEdges, List.mem_map, eq_comm]

/-- The functions that the host can reach call nothing else. -/
theorem isClosed_reachable (m : Module) : m.callEdges.IsClosed m.reachable := by
  have hnames : ∀ edge ∈ m.callEdges, ∀ callee ∈ edge.2, callee ∈ m.names := by
    intro edge hedge callee hcallee
    obtain ⟨f, -, rfl⟩ := mem_callEdges.mp hedge
    exact contains_iff.mp (List.mem_filter.mp hcallee).2
  have hlength : m.names.length = m.functions.length := List.length_map Function.name
  exact CallEdges.isClosed_closure hnames (hlength ▸ List.countP_le_length)

/-- The search finds what the host reaches. -/
theorem mem_reachable_iff {name : String} : name ∈ m.reachable ↔ m.Reaches name := by
  constructor
  · refine CallEdges.closure_induct (fun edge hedge hcaller callee hcallee => ?_) (fun entry hentry => ?_) _ name
    · obtain ⟨f, hf, rfl⟩ := mem_callEdges.mp hedge
      obtain ⟨hcall, g, hg, rfl⟩ := mem_callees_filter.mp hcallee
      exact .call hf hcaller hg hcall
    · obtain ⟨f, hf, rfl⟩ := List.mem_map.mp hentry
      exact .entry (mem_entries.mp hf).1 (mem_entries.mp hf).2
  · intro h
    induction h with
    | entry hf hhost => exact mem_closure (List.mem_map_of_mem (mem_entries.mpr ⟨hf, hhost⟩))
    | call hf _ hg hcall ih =>
      exact isClosed_reachable m _ (mem_callEdges.mpr ⟨_, hf, rfl⟩) ih _ (mem_callees_filter.mpr ⟨hcall, _, hg, rfl⟩)

instance (m : Module) : DecidablePred m.Reaches :=
  fun _ => decidable_of_iff _ mem_reachable_iff

/-- What the host reaches is kept as it is and in its order, and nothing else, so no function that is kept calls one that
was dropped. A module without functions for the host keeps all of them. -/
theorem functions_dropUnreachable (m : Module) :
    ((∀ f ∈ m.functions, ¬ f.worker.isHostCallable) → m.dropUnreachable = m) ∧
      ((∃ f ∈ m.functions, f.worker.isHostCallable) →
        m.dropUnreachable.functions = m.functions.filter fun f => m.Reaches f.name) ∧
      ∀ f ∈ m.dropUnreachable.functions, ∀ g ∈ m.functions, f.body.Calls g.name → g ∈ m.dropUnreachable.functions := by
  have hlibrary : m.entries = [] ↔ ∀ f ∈ m.functions, ¬ f.worker.isHostCallable := List.filter_eq_nil_iff
  have hkept (hentry : m.entries ≠ []) : m.dropUnreachable.functions = m.functions.filter fun f => m.Reaches f.name := by
    have hdropped : m.dropUnreachable = m.filter fun f => m.reachable.contains f.name :=
      if_neg (by rwa [List.isEmpty_iff])
    rw [hdropped, Module.filter]
    refine List.filter_congr fun f _ => ?_
    rw [Bool.eq_iff_iff, List.contains_iff_mem, mem_reachable_iff, decide_eq_true_iff]
  have hall (hnone : m.entries = []) : m.dropUnreachable = m := if_pos (List.isEmpty_iff.mpr hnone)
  refine ⟨fun hnone => hall (hlibrary.mpr hnone), ?_, ?_⟩
  · rintro ⟨f, hf, hhost⟩
    exact hkept fun hnone => hlibrary.mp hnone f hf hhost
  · intro f hf g hg hcall
    by_cases hnone : m.entries = []
    · rw [hall hnone]
      exact hg
    · rw [hkept hnone, List.mem_filter, decide_eq_true_iff] at hf ⊢
      exact ⟨hg, .call hf.1 hf.2 hg hcall⟩

/-- A function of the host that asks for the parity of a number within the index of a store, two functions that call each
other to find it, and one that is called by itself alone. -/
def parity : Module :=
  let n : Var := ⟨"n", .ofDType .int32⟩
  let i : Var := ⟨"i", .ofDType .int32⟩
  let table : Var := ⟨"table", .pointer (.ofDType .int32)⟩
  let device (name callee : String) : Function :=
    { name, worker := .thread, params := [n], body := .ret (some (.call callee [.var n])) }
  let store := Stmt.store (.var table) [.call "isEven" [.call "digit" [.var i]]] (.var i)
  { functions := [
      device "isOdd" "isEven",
      { device "spare" "spare" with body := .seq [.eval (.call "spare" [.var n]), .eval (.call "main" [])] },
      { name := "main", worker := .host, params := [n, table], body := .forRange i (.var n) .none store },
      device "isEven" "isOdd"] }

/-- The function that nothing else calls goes, and the host keeps both that it needs. -/
theorem functions_dropUnreachable_parity :
    (∃ f ∈ parity.functions, f.worker.isHostCallable) ∧
      parity.dropUnreachable.functions = parity.functions.filter (fun f => parity.Reaches f.name) ∧
      parity.dropUnreachable.names = ["isOdd", "main", "isEven"] := by
  have hhost : ∃ f ∈ parity.functions, f.worker.isHostCallable := by decide
  exact ⟨hhost, (functions_dropUnreachable parity).2.1 hhost, by decide⟩

end Module

end TensorCompiler
