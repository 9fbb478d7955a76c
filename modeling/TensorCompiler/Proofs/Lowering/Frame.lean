import TensorCompiler.Proofs.Lowering.Flatten
import TensorCompiler.Proofs.Lowering.Idempotent

/-! # What lowering leaves alone

A transform that drops no function keeps the frame of every function, that is all of it but its body and the types of
its variables, keeps the functions in their order, and puts wrappers behind them. Transforms in the order of their
stages drop functions first, so a whole run is one such extension of the functions that the host can reach.
-/

namespace TensorCompiler

/-! ## Frames -/

/-- All of a function but its body and the types of its variables. -/
structure Function.Frame where
  name : String
  worker : Worker
  packed : Option String
  label : Option String
  retType : Ty
  /-- The names of the parameters, in calling order. -/
  params : List String
  /-- The names of the variables declared for the whole body. -/
  locals : List String

namespace Function

def frame (f : Function) : Frame where
  name := f.name
  worker := f.worker
  packed := f.packed
  label := f.label
  retType := f.retType
  params := f.params.map Var.name
  locals := f.locals.map Var.name

/-- The frame of the wrapper of an entry: a function of the host with one calling convention for all entries. -/
def wrapperFrame (entry : String) : Frame where
  name := PackedCall.wrapperName entry
  worker := .host
  packed := some entry
  label := none
  retType := .void
  params := [PackedCall.numArgs.name, PackedCall.argTypes.name, PackedCall.args.name]
  locals := []

/-- Whether a function is a wrapper of an entry that wraps nothing itself. -/
structure IsWrapperOf (w entry : Function) : Prop where
  frame_eq : w.frame = wrapperFrame entry.name
  hostCallable : entry.worker.isHostCallable = true
  plain : entry.packed = none

variable {f g w entry : Function}

theorem IsWrapperOf.worker_eq (h : w.IsWrapperOf entry) : w.worker = .host :=
  congrArg Frame.worker h.frame_eq

theorem IsWrapperOf.packed_eq (h : w.IsWrapperOf entry) : w.packed = some entry.name :=
  congrArg Frame.packed h.frame_eq

/-- Only the frames of the two functions count. -/
theorem IsWrapperOf.of_frame_eq {w' entry' : Function} (h : w.IsWrapperOf entry) (hw : w'.frame = w.frame)
    (hentry : entry'.frame = entry.frame) : w'.IsWrapperOf entry' where
  frame_eq := by
    have hname : entry'.name = entry.name := congrArg Frame.name hentry
    rw [hw, h.frame_eq, hname]
  hostCallable := by
    have hworker : entry'.worker = entry.worker := congrArg Frame.worker hentry
    rw [hworker]
    exact h.hostCallable
  plain := (congrArg Frame.packed hentry).trans h.plain

theorem frame_wrapper (h : PackedCall.wrapper entry = .ok w) : w.frame = wrapperFrame entry.name := by
  obtain ⟨checks, -, hresult⟩ := bind_eq_ok_iff.mp h
  cases hresult
  rfl

section

variable [FloatOps]

theorem name_flatten (v : Var) : ((v.flatten?.map FlatBuffer.buffer).getD v).name = v.name := by
  cases h : v.flatten? with
  | none => rfl
  | some flat =>
    obtain ⟨type, es, ss, -, -, -, -, rfl⟩ := Var.flatten?_eq_some_iff.mp h
    rfl

/-- Buffers have other types than the tensors, and the same names in the same order. -/
theorem frame_flattenTensors (f : Function) : f.flattenTensors.frame = f.frame := by
  rw [flattenTensors]
  split_ifs
  · rfl
  · have hnames (vars : List Var) :
        (vars.map fun v => (v.flatten?.map FlatBuffer.buffer).getD v).map Var.name = vars.map Var.name := by
      rw [List.map_map]
      exact List.map_congr_left fun v _ => name_flatten v
    simp only [frame, hnames]

theorem frame_foldConstants (f : Function) : f.foldConstants.frame = f.frame := rfl

theorem frame_simplifyBounds (f : Function) : f.simplifyBounds.frame = f.frame := rfl

end

end Function

/-! ## One transform -/

namespace Module

variable {m m' base other : Module} {survivors added : List Function}

theorem names_eq_map_frame (m : Module) : m.names = (m.functions.map Function.frame).map Function.Frame.name := by
  rw [names, List.map_map]
  rfl

theorem nodup_names_of_addAll {functions : List Function} (hnodup : m.names.Nodup)
    (h : m.addAll functions = (m', none)) : m'.names.Nodup := by
  induction functions generalizing m with
  | nil =>
    cases h
    exact hnodup
  | cons f functions ih =>
    rw [addAll, add] at h
    split_ifs at h with hcontains
    · cases h
    · refine ih ?_ h
      have hnew : f.name ∉ m.names := fun hmem => hcontains (contains_iff.mpr hmem)
      rw [names, List.map_append]
      exact List.nodup_append.mpr ⟨hnodup, List.nodup_singleton _, fun name hname name' hname' heq =>
        hnew (List.mem_singleton.mp hname' ▸ heq ▸ hname)⟩

/-- A merge that succeeds keeps the names distinct. -/
theorem nodup_names_of_merge (hnodup : m.names.Nodup) (h : m.merge other = .ok m') : m'.names.Nodup := by
  rw [merge] at h
  split at h
  · rename_i merged hadded
    cases h
    exact nodup_names_of_addAll hnodup hadded
  · cases h

/-- What transforms that drop nothing make of a module `base`: its functions, with frames as they were and in their
order, and behind them wrappers of some of these. -/
structure Extends (m base : Module) (survivors added : List Function) : Prop where
  functions_eq : m.functions = survivors ++ added
  frames_eq : survivors.map Function.frame = base.functions.map Function.frame
  isWrapper : ∀ w ∈ added, ∃ f ∈ survivors, w.IsWrapperOf f
  nodup : m.names.Nodup

namespace Extends

theorem refl (hnodup : base.names.Nodup) : base.Extends base base.functions [] where
  functions_eq := (List.append_nil _).symm
  frames_eq := rfl
  isWrapper := fun _ hw => (List.not_mem_nil hw).elim
  nodup := hnodup

/-- Functions change one by one and keep their frames. -/
theorem map (h : m.Extends base survivors added) {F : Function → Function} (hF : ∀ f, (F f).frame = f.frame) :
    (m.map F).Extends base (survivors.map F) (added.map F) := by
  have hframes (functions : List Function) : (functions.map F).map Function.frame = functions.map Function.frame := by
    rw [List.map_map]
    exact List.map_congr_left fun f _ => hF f
  constructor
  · rw [Module.map, h.functions_eq, List.map_append]
  · rw [hframes, h.frames_eq]
  · intro w hw
    obtain ⟨w', hw', rfl⟩ := List.mem_map.mp hw
    obtain ⟨f, hf, hwrapper⟩ := h.isWrapper w' hw'
    exact ⟨F f, List.mem_map_of_mem hf, hwrapper.of_frame_eq (hF w') (hF f)⟩
  · rw [names_eq_map_frame, Module.map, hframes, ← names_eq_map_frame]
    exact h.nodup

/-- A wrapper gets no wrapper, so the new ones belong to functions of `base`. -/
theorem addWrappers (h : m.Extends base survivors added) (hadd : m.addWrappers = .ok m') :
    ∃ wrappers, m'.Extends base survivors (added ++ wrappers) := by
  obtain ⟨wrappers, hwrappers, hmerge⟩ := bind_eq_ok_iff.mp hadd
  refine ⟨wrappers, ?_, h.frames_eq, ?_, nodup_names_of_merge h.nodup hmerge⟩
  · rw [functions_of_merge hmerge, h.functions_eq, List.append_assoc]
  · have hnew : ∀ w ∈ wrappers, ∃ f ∈ survivors, w.IsWrapperOf f := by
      refine forall_mem_of_forall₂ (mapM_eq_ok_iff.mp hwrappers) fun entry hentry w hw => ?_
      obtain ⟨hmem, hneeds⟩ := List.mem_filter.mp hentry
      obtain ⟨hhost, hplain, -⟩ := needsWrapper_iff.mp hneeds
      rw [h.functions_eq] at hmem
      rcases List.mem_append.mp hmem with hsurvivor | hadded
      · exact ⟨entry, hsurvivor, Function.frame_wrapper hw, hhost, hplain⟩
      · obtain ⟨f, -, hwrapper⟩ := h.isWrapper entry hadded
        rw [hwrapper.packed_eq] at hplain
        cases hplain
    intro w hw
    rcases List.mem_append.mp hw with hold | hw
    · exact h.isWrapper w hold
    · exact hnew w hw

end Extends

theorem functions_dropUnreachable_sublist (m : Module) : m.dropUnreachable.functions.Sublist m.functions := by
  rw [dropUnreachable]
  split_ifs
  · exact List.Sublist.refl _
  · exact List.filter_sublist

end Module

/-! ## Runs -/

namespace Lowering

section

variable {m : Module} {transforms : List Lowering}

theorem pairwise_of_stepBack?_eq_none (h : stepBack? transforms = none) :
    transforms.Pairwise fun first second => first.stage ≤ second.stage := by
  have hchain : transforms.IsChain fun first second => first.stage ≤ second.stage := by
    induction transforms with
    | nil => exact .nil
    | cons first rest ih =>
      cases rest with
      | nil => exact .singleton first
      | cons second rest =>
        rw [stepBack?] at h
        split_ifs at h with hback
        exact .cons_cons (Nat.le_of_not_lt hback) (ih h)
  have : Trans (fun first second : Lowering => first.stage ≤ second.stage)
      (fun first second : Lowering => first.stage ≤ second.stage)
      (fun first second : Lowering => first.stage ≤ second.stage) := ⟨Nat.le_trans⟩
  exact List.isChain_iff_pairwise.mp hchain

theorem ne_dropUnreachable_of_stage_le {first transform : Lowering} (hne : first ≠ .dropUnreachable)
    (h : first.stage ≤ transform.stage) : transform ≠ .dropUnreachable := by
  rintro rfl
  have hzero : first.stage = 0 := Nat.le_zero.mp h
  cases first <;> simp [stage] at hne hzero

/-- The functions that the given transforms leave in a module. -/
def kept (transforms : List Lowering) (m : Module) : Module :=
  if .dropUnreachable ∈ transforms then m.dropUnreachable else m

theorem kept_cons_dropUnreachable (m : Module) :
    kept (.dropUnreachable :: transforms) m = kept transforms m.dropUnreachable := by
  rw [kept, kept, m.dropUnreachable_dropUnreachable, ite_self, if_pos List.mem_cons_self]

theorem functions_kept_sublist (transforms : List Lowering) (m : Module) :
    (kept transforms m).functions.Sublist m.functions := by
  rw [kept]
  split_ifs
  · exact m.functions_dropUnreachable_sublist
  · exact List.Sublist.refl _

end

variable [FloatOps] {m m' base : Module} {transforms : List Lowering}

/-- A transform that drops nothing extends what was extended before. -/
theorem exists_extends_run {transform : Lowering} {survivors added : List Function} (hne : transform ≠ .dropUnreachable)
    (h : m.Extends base survivors added) (hrun : transform.run m = .ok m') :
    ∃ survivors' added', m'.Extends base survivors' added' := by
  cases transform with
  | dropUnreachable => exact absurd rfl hne
  | addWrappers =>
    obtain ⟨wrappers, hwrappers⟩ := h.addWrappers hrun
    exact ⟨survivors, added ++ wrappers, hwrappers⟩
  | flattenTensors =>
    cases hrun
    exact ⟨_, _, h.map Function.frame_flattenTensors⟩
  | foldConstants =>
    cases hrun
    exact ⟨_, _, h.map Function.frame_foldConstants⟩
  | simplifyBounds =>
    cases hrun
    exact ⟨_, _, h.map Function.frame_simplifyBounds⟩

/-- Transforms in the order of their stages extend what they keep of a module. -/
theorem exists_extends_foldlM (hstages : transforms.Pairwise fun first second => first.stage ≤ second.stage)
    (hnodup : m.names.Nodup) (h : transforms.foldlM (fun m transform => transform.run m) m = .ok m') :
    ∃ survivors added, m'.Extends (kept transforms m) survivors added := by
  induction transforms generalizing m with
  | nil =>
    cases h
    exact ⟨_, [], .refl hnodup⟩
  | cons first rest ih =>
    by_cases hfirst : first = .dropUnreachable
    · subst hfirst
      have hnodup' : m.dropUnreachable.names.Nodup :=
        hnodup.sublist (m.functions_dropUnreachable_sublist.map Function.name)
      rw [kept_cons_dropUnreachable]
      exact ih hstages.of_cons hnodup' h
    · -- from here on nothing is dropped
      have hnone : ∀ transform ∈ first :: rest, transform ≠ .dropUnreachable := by
        intro transform hmem
        rcases List.mem_cons.mp hmem with rfl | hmem
        · exact hfirst
        · exact ne_dropUnreachable_of_stage_le hfirst (List.rel_of_pairwise_cons hstages hmem)
      have hkept : kept (first :: rest) m = m := if_neg fun hmem => hnone _ hmem rfl
      rw [hkept]
      refine foldlM_keeps (P := fun m' => ∃ survivors added, m'.Extends m survivors added) ?_
        ⟨m.functions, [], .refl hnodup⟩ h
      rintro transform hmem next next' ⟨survivors, added, hextends⟩ hrun
      exact exists_extends_run (hnone transform hmem) hextends hrun

end Lowering

/-- Lowering in any accepted list of transforms: the functions that are kept, all of them unless those that the host
cannot reach are dropped, come first, in their order and with the frames that they had. What is added are wrappers of
these for the host, and all names are distinct. -/
theorem Lowerer.exists_frames_run [FloatOps] {transforms : List Lowering} {lowerer : Lowerer} {m m' : Module}
    (hlowerer : Lowerer.ofTransforms transforms = .ok lowerer) (hnodup : m.names.Nodup)
    (h : lowerer.run m = .ok m') :
    ∃ kept survivors added : List Function,
      (kept.Sublist m.functions ∧ (.dropUnreachable ∉ transforms → kept = m.functions)) ∧
      m'.functions = survivors ++ added ∧
      survivors.map Function.frame = kept.map Function.frame ∧
      (∀ w ∈ added, w.worker = .host ∧ ∃ f ∈ survivors, w.IsWrapperOf f) ∧
      m'.names.Nodup := by
  have htransforms : lowerer.transforms = transforms := by
    rw [ofTransforms] at hlowerer
    split at hlowerer
    · cases hlowerer
      rfl
    · cases hlowerer
  rw [run, htransforms] at h
  have hstages := Lowering.pairwise_of_stepBack?_eq_none (htransforms ▸ lowerer.ordered)
  obtain ⟨survivors, added, hextends⟩ := Lowering.exists_extends_foldlM hstages hnodup h
  refine ⟨(Lowering.kept transforms m).functions, survivors, added, ⟨?_, ?_⟩, hextends.functions_eq, hextends.frames_eq,
    fun w hw => ?_, hextends.nodup⟩
  · exact Lowering.functions_kept_sublist transforms m
  · intro hnone
    rw [Lowering.kept, if_neg hnone]
  · obtain ⟨f, hf, hwrapper⟩ := hextends.isWrapper w hw
    exact ⟨hwrapper.worker_eq, f, hf, hwrapper⟩

/-- The copy of rows loses the function that nothing calls and gets a wrapper for its kernel. -/
theorem Lowerer.exists_frames_run_rowCopy :
    ∃ (m' : Module) (kept survivors added : List Function),
      Lowerer.canonical.run .rowCopy = .ok m' ∧ m'.names = ["copy", "copy_packed"] ∧
      (kept.Sublist Module.rowCopy.functions ∧
        (.dropUnreachable ∉ Lowerer.canonical.transforms → kept = Module.rowCopy.functions)) ∧
      m'.functions = survivors ++ added ∧
      survivors.map Function.frame = kept.map Function.frame ∧
      (∀ w ∈ added, w.worker = .host ∧ ∃ f ∈ survivors, w.IsWrapperOf f) ∧
      m'.names.Nodup := by
  obtain ⟨m', hrun, hnames⟩ : ∃ m', Lowerer.canonical.run .rowCopy = .ok m' ∧ m'.names = ["copy", "copy_packed"] :=
    ⟨_, rfl, rfl⟩
  have hcanonical : Lowerer.ofTransforms Lowerer.canonical.transforms = .ok .canonical := rfl
  have hnodup : Module.rowCopy.names.Nodup := by decide
  obtain ⟨kept, survivors, added, hframes⟩ := Lowerer.exists_frames_run hcanonical hnodup hrun
  exact ⟨m', kept, survivors, added, hrun, hnames, hframes⟩

end TensorCompiler
