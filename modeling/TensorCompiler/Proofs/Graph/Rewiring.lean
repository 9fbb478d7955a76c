import TensorCompiler.Proofs.Graph.Pipeline
import TensorCompiler.Proofs.Graph.Value

/-! # Rewired graphs have the same values

A node may read a tensor `x` instead of a tensor `y` if `x` repeats `y`: every element of `y` is the same element of `x`.
The arrays need not be equal, since an input may come in another shape than the graph records. A chain of replacements
ends, because each tensor gives way to one that is known or computed in front of it, and its end repeats its start if
every replacement repeats what it replaces.
-/

namespace TensorCompiler

/-- The element of a tensor at an index tuple, where there is one. -/
def Tensors.element (V : Tensors) (id : TensorId) (ns : List Nat) : Option Float :=
  (V.lookup id.name).bind fun a => a.get? ns

/-- Whether every element of `y` is the same element of `x`. -/
def Tensors.Repeats (V : Tensors) (x y : TensorId) : Prop :=
  ∀ ns v, V.element y ns = some v → V.element x ns = some v

namespace Tensors.Repeats

variable {V : Tensors} {x y z : TensorId}

theorem refl (V : Tensors) (x : TensorId) : V.Repeats x x :=
  fun _ _ hread => hread

theorem trans (h : V.Repeats x y) (h' : V.Repeats y z) : V.Repeats x z :=
  fun ns v hread => h ns v (h' ns v hread)

end Tensors.Repeats

/-! ## Rewired definitions -/

namespace Expr

variable [FloatOps] {k : ElementKind} {reads : DType → String → List Int64 → Prop} {d d₀ : DType} {l : Level}
  {scope : List String} {e : Expr} {V : Tensors} {env : Env} {v : Value} {old new : TensorId} {shape₀ : List Int64}

/-- A value evaluates to what it evaluated to if it reads a tensor that repeats the one that it read. -/
theorem IsElement.eval_rewire (h : IsElement k reads d l scope e)
    (hold : ∀ d shape, reads d old.name shape → d = d₀ ∧ shape = shape₀) (hrepeats : V.Repeats new old)
    (heval : e.eval V env = .ok v) :
    (e.mapBottomUp (rewireNode old.name (.ofShape new.name d₀ shape₀))).eval V env = .ok v := by
  induction h generalizing env v with
  | @read d l scope name shape indices hreads hlength hindices =>
    rw [rewire_elementAt name d shape hindices]
    split_ifs with hname
    · subst hname
      obtain ⟨rfl, rfl⟩ := hold d shape hreads
      obtain ⟨a, ns, x, ha, hns, hx, rfl⟩ := eval_element_eq_ok_iff.mp heval
      obtain ⟨b, hb, hx'⟩ := Option.bind_eq_some_iff.mp (hrepeats ns x (Option.bind_eq_some_iff.mpr ⟨a, ha, hx⟩))
      exact eval_element_eq_ok_iff.mpr ⟨b, ns, x, hb, hns, hx', rfl⟩
    · exact heval
  | const hv =>
    rw [mapBottomUp_eq]
    exact heval
  | neg _ ih =>
    rw [mapBottomUp_eq]
    obtain ⟨a, ha, hv⟩ := eval_unary_eq_ok_iff.mp heval
    exact eval_unary_eq_ok_iff.mpr ⟨a, ih ha, hv⟩
  | binary _ _ _ _ ihl ihr =>
    rw [mapBottomUp_eq]
    obtain ⟨a, b, ha, hb, hv⟩ := eval_binary_eq_ok_iff.mp heval
    exact eval_binary_eq_ok_iff.mpr ⟨a, b, ihl ha, ihr hb, hv⟩
  | call _ _ ih =>
    rw [mapBottomUp_eq]
    obtain ⟨a, ha, hv⟩ := eval_call_one_eq_ok_iff.mp heval
    exact eval_call_one_eq_ok_iff.mpr ⟨a, ih ha, hv⟩
  | callPair _ _ _ _ ihl ihr =>
    rw [mapBottomUp_eq]
    obtain ⟨a, b, ha, hb, hv⟩ := eval_call_pair_eq_ok_iff.mp heval
    exact eval_call_pair_eq_ok_iff.mpr ⟨a, b, ihl ha, ihr hb, hv⟩
  | ite hcond _ _ iht ihe =>
    rw [mapBottomUp_eq]
    obtain ⟨c, hc, hbranch⟩ := eval_ite_eq_ok_iff.mp heval
    refine eval_ite_eq_ok_iff.mpr ⟨c, ?_, ?_⟩
    · rw [hcond.mapBottomUp_rewireNode]
      exact hc
    · split_ifs at hbranch ⊢
      · exact iht hbranch
      · exact ihe hbranch
  | @reduce _ _ kind extents axes value _ _ _ _ _ ih =>
    rw [mapBottomUp_eq]
    change (Expr.reduce kind ((ofShape extents).map _) axes (value.mapBottomUp _)).eval V env = _
    rw [rewire_ofShape]
    obtain ⟨extents', vs, acc, hshape, hvs, hacc, hv⟩ := eval_reduce_eq_ok_iff.mp heval
    exact eval_reduce_eq_ok_iff.mpr ⟨extents', vs, acc, hshape, hvs.imp fun _ _ hw => ih hw, hacc, hv⟩

end Expr

variable {k : ElementKind} {T : TensorTable} {ids : List TensorId} {l : Level} {d d₀ : DType}
  {shape shape₀ : List Int64} {V : Tensors} {old new : TensorId}

/-- A definition gives the array that it gave if it reads a tensor that repeats the one that it read. -/
theorem TensorCompute.Defines.evaluate_rewire [FloatOps] {c : TensorCompute} {a : NDArray} {output : TensorId}
    (h : c.Defines k T ids l d shape) (hold : T.type? old = some (d₀, shape₀)) (hrepeats : V.Repeats new old)
    (heval : c.evaluate V = .ok a) :
    TensorCompute.evaluate V { c.rewire old.name (.ofShape new.name d₀ shape₀) with name := output.name } = .ok a := by
  obtain ⟨shape', vs, hshape, hextents, hvs, ha⟩ := TensorCompute.evaluate_eq_ok_iff.mp heval
  refine TensorCompute.evaluate_eq_ok_iff.mpr ⟨shape', vs, hshape, hextents, hvs.imp fun point v hv => ?_, ha⟩
  refine h.value.eval_rewire ?_ hrepeats hv
  rintro d shape ⟨id, -, hname, htype⟩
  obtain rfl := TensorId.name_injective hname
  cases hold.symm.trans htype
  exact ⟨rfl, rfl⟩

namespace Graph

variable {g g' : Graph} {id : TensorId}

/-! ## Rewired graphs -/

section

variable [FloatOps] {inputs : Tensors} {outs : List NDArray} {map : Replacements}

/-- Values stay if a node is made to read a tensor that repeats the one that it read. -/
theorem Computed.valued_replaceInput (h : g.Computed k) {index : Nat} (hrepeats : V.Repeats new old)
    (hreplace : g.replaceInput index old new = .ok g') (hV : g.Valued inputs V outs) : g'.Valued inputs V outs := by
  rcases replaceInput_cases hreplace with rfl | ⟨op, d₀, shape₀, hop, hold, hnew⟩
  · exact hV
  obtain ⟨d, shape, hcomputes⟩ := h op (List.mem_of_getElem? hop)
  obtain ⟨rebuilt, d', shape', hrecorded, houtput, -, hcomputation, -, hreplace'⟩ := exists_replaceInput h hop hold hnew
  cases hreplace'.symm.trans hreplace
  have hlookup (x : TensorId) : List.lookup x (g.tensors.insert op.output ⟨d', shape', .operator⟩) =
      if x = op.output then some ⟨d', shape', .operator⟩ else g.tensors.lookup x := TensorTable.lookup_insert _ _ _ _
  refine ⟨fun x info hinfo hsource => ?_, fun op' hop' => ?_, hV.output.imp fun x a ha => ⟨?_, ha.2⟩⟩
  · rw [hlookup] at hinfo
    split_ifs at hinfo
    · cases hinfo
      exact absurd rfl hsource
    · exact hV.source x info hinfo hsource
  · rcases List.mem_or_eq_of_mem_set hop' with hop' | rfl
    · exact hV.node op' hop'
    · obtain ⟨a, ha, hout⟩ := hV.node op (List.mem_of_getElem? hop)
      rw [hcomputation, houtput]
      exact ⟨a, hcomputes.defines.evaluate_rewire hold hrepeats ha, hout⟩
  · -- the rebuilt node computes the tensor that the node computed
    change IsSource _ x ∨ x ∈ outputsOf (g.nodes.set index rebuilt)
    rw [outputsOf_set hop houtput]
    by_cases hx : x = op.output
    · exact Or.inr (hx ▸ mem_outputsOf.mpr ⟨op, List.mem_of_getElem? hop, rfl⟩)
    · refine ha.1.imp_left fun ⟨info, hinfo, hsource⟩ => ⟨info, ?_, hsource⟩
      exact (hlookup x).trans ((if_neg hx).trans hinfo)

omit [FloatOps] in
/-- The end of a chain repeats its start. -/
theorem repeats_resolve (hmap : ∀ entry ∈ map, V.Repeats entry.2 entry.1) (id : TensorId) :
    V.Repeats (resolve map id) id := by
  have hsteps : ∀ fuel, V.Repeats (resolveSteps map fuel id) id := by
    intro fuel
    induction fuel generalizing id with
    | zero => exact .refl V id
    | succ fuel ih =>
      rw [resolveSteps]
      cases hnext : map.lookup id with
      | none => exact .refl V id
      | some next =>
        obtain ⟨before, after, hentries, -⟩ := List.lookup_eq_some_iff.mp hnext
        have hmem : (id, next) ∈ map := by simp [hentries]
        exact (ih next).trans (hmap _ hmem)
  exact hsteps map.length

/-- Values stay when nodes are rewired to the ends of chains of replacements that repeat what they replace. -/
theorem Computed.valued_rewire (h : g.Computed k) (hmap : ∀ entry ∈ map, V.Repeats entry.2 entry.1) {positions : List Nat}
    (hrewire : positions.foldlM (rewireNode map) g = .ok g') (hV : g.Valued inputs V outs) :
    g'.Valued inputs V outs := by
  have hkept : g'.Computed k ∧ g'.Valued inputs V outs := by
    refine foldlM_keeps (P := fun g : Graph => g.Computed k ∧ g.Valued inputs V outs)
      (fun index _ g g' hg hstep => ?_) ⟨h, hV⟩ hrewire
    rw [rewireNode] at hstep
    split at hstep
    · cases hstep
      exact hg
    · refine foldlM_keeps (P := fun g : Graph => g.Computed k ∧ g.Valued inputs V outs)
        (fun old _ g g' hg hstep => ?_) hg hstep
      simp only at hstep
      split_ifs at hstep
      · cases hstep
        exact hg
      · exact ⟨hg.1.replaceInput hstep, hg.1.valued_replaceInput (repeats_resolve hmap old) hstep hg.2⟩
  exact hkept.2

end

/-! ## Chains of replacements -/

/-- The number of replacements of tensors that are computed in front of a position. -/
def Replacements.countBefore (map : Replacements) (g : Graph) (i : Nat) : Nat :=
  map.countP fun entry => ((outputsOf g.nodes).take i).contains entry.1

theorem mem_take_outputsOf_iff (hnodup : (outputsOf g.nodes).Nodup) {i j : Nat}
    (hj : (outputsOf g.nodes)[j]? = some id) : id ∈ (outputsOf g.nodes).take i ↔ j < i := by
  constructor
  · intro hmem
    obtain ⟨n, hn⟩ := List.mem_iff_getElem?.mp hmem
    rw [List.getElem?_take] at hn
    split_ifs at hn with hlt
    have hlength := (List.getElem?_eq_some_iff.mp hj).1
    rwa [(List.getElem?_inj hlength hnodup).mp (hj.trans hn.symm)]
  · intro hlt
    refine List.mem_iff_getElem?.mpr ⟨j, ?_⟩
    rw [List.getElem?_take, if_pos hlt, hj]

/-- Along a chain ever fewer replacements are left. -/
theorem Replacements.countBefore_lt {map : Replacements} (hnodup : (outputsOf g.nodes).Nodup) {i j : Nat}
    {next : TensorId} (hnext : map.lookup id = some next) (hj : (outputsOf g.nodes)[j]? = some id) (hlt : j < i) :
    map.countBefore g j < map.countBefore g i := by
  obtain ⟨before, after, hmap, -⟩ := List.lookup_eq_some_iff.mp hnext
  have hmem : (id, next) ∈ map := by simp [hmap]
  refine countP_lt_countP hmem (fun entry _ hentry => ?_) ?_ ?_
  · rw [List.contains_iff_mem] at hentry ⊢
    exact List.mem_of_mem_take (i := j) (by rwa [List.take_take, Nat.min_eq_left (Nat.le_of_lt hlt)])
  · rw [Bool.eq_false_iff, ne_eq, List.contains_iff_mem, mem_take_outputsOf_iff hnodup hj]
    exact Nat.lt_irrefl j
  · rw [List.contains_iff_mem, mem_take_outputsOf_iff hnodup hj]
    exact hlt

/-- A chain of replacements ends within as many steps as there are replacements in front of it. -/
theorem Replacements.Fits.lookup_resolveSteps {map : Replacements} (h : map.Fits g) (hg : g.WellFormed k) {i fuel : Nat}
    (hid : g.Available i id) (hfuel : map.countBefore g i ≤ fuel) : map.lookup (resolveSteps map fuel id) = none := by
  induction fuel generalizing id i with
  | zero =>
    rw [resolveSteps]
    -- a replacement of `id` would be counted in front of `i`
    by_contra hsome
    obtain ⟨next, hnext⟩ := Option.ne_none_iff_exists'.mp hsome
    obtain ⟨-, j, hlt, hj, -⟩ := h.of_lookup hg hid hnext
    have hless := countBefore_lt hg.ordered.nodup_outputsOf hnext hj hlt
    omega
  | succ fuel ih =>
    rw [resolveSteps]
    cases hnext : map.lookup id with
    | none => exact hnext
    | some next =>
      obtain ⟨-, j, hlt, hj, havailable⟩ := h.of_lookup hg hid hnext
      have hless := countBefore_lt hg.ordered.nodup_outputsOf hnext hj hlt
      exact ih havailable (by omega)

/-- Every chain of replacements ends at a tensor that is not replaced and has the type of the tensor at its start. -/
theorem Replacements.Fits.lookup_resolve {map : Replacements} (h : map.Fits g) (hg : g.WellFormed k) (id : TensorId) :
    map.lookup (Graph.resolve map id) = none ∧ g.tensors.type? (Graph.resolve map id) = g.tensors.type? id := by
  cases hnext : map.lookup id with
  | none =>
    have hself : Graph.resolve map id = id := by
      rw [Graph.resolve]
      cases map.length with
      | zero => rfl
      | succ fuel => rw [resolveSteps, hnext]
    rw [hself]
    exact ⟨hnext, rfl⟩
  | some next =>
    obtain ⟨before, after, hmap, -⟩ := List.lookup_eq_some_iff.mp hnext
    obtain ⟨-, i, hi, -⟩ := h (id, next) (by simp [hmap])
    -- `id` is available behind its own position, in front of which all replacements may count
    have hid : g.Available (i + 1) id := Or.inr ⟨i, Nat.lt_succ_self i, hi⟩
    exact ⟨h.lookup_resolveSteps hg hid List.countP_le_length, (h.resolve hg hid).1⟩

end Graph

end TensorCompiler
