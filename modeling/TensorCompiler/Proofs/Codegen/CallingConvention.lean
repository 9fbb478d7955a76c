import TensorCompiler.Proofs.Codegen.Accesses
import TensorCompiler.Proofs.Codegen.Resolved
import TensorCompiler.Proofs.Codegen.WarpTransfer

/-! # The calling convention of tasks

A task lists its inputs and then its definition. The function that is made of it is to take one parameter for each of them,
in that order and of the same element type, and to refer to the node at a position through the parameter there and not
otherwise. A kernel declares its parameters from those of the task, so it takes what the task does; its code refers to the
right ones if the names of the task tell its nodes from each other and from the variables that the kernel binds, since
nodes are looked up by name and axes are bound by theirs. A transfer of a warp has two parameters of fixed names, whichever
the task has: matching makes sure that the task has no more tensors, but lets scalars through, which the transfer drops.
-/

namespace TensorCompiler

/-! ## Parameters -/

namespace ParamMap

theorem nodeName?_eq {entry : Expr × Ty} (h : entry.1.nodeName?.isSome) :
    entry.1.nodeName? = some (paramVar entry).name := by
  obtain ⟨name, hname⟩ := Option.isSome_iff_exists.mp h
  rw [paramVar, hname, Option.getD_some]

theorem exists_of_lookup_ofEntries {entries : List (Expr × Ty)} {name : String} {v : Var}
    (h : (ofEntries entries).lookup name = some v) : ∃ entry ∈ entries, paramVar entry = v ∧ v.name = name := by
  obtain ⟨before, after, hsplit, -⟩ := List.lookup_eq_some_iff.mp h
  have hmem : (name, v) ∈ ofEntries entries := hsplit ▸ List.mem_append_right _ List.mem_cons_self
  obtain ⟨entry, hentry, heq⟩ := List.mem_map.mp (List.mem_reverse.mp hmem)
  cases heq
  exact ⟨entry, hentry, rfl, rfl⟩

end ParamMap

/-! ## Tasks -/

namespace Task

/-- The position of the parameter for the node of a name, the first one if there are several. -/
def position? (task : Task) (name : String) : Option Nat :=
  task.params.findIdx? fun param => param.nodeName? == some name

/-- The accesses to nodes that compute one element, by the positions of the parameters: what the reductions of the definition
read, the element itself, which the last parameter holds, and what it reads besides. -/
def accesses (task : Task) : List Nat :=
  task.computation.value.reads.hoisted.filterMap task.position? ++
    (task.params.length - 1) :: task.computation.value.reads.direct.filterMap task.position?

/-- Whether the parameters of a task are inputs and then its definition, each with a type. -/
structure ListsNodes (task : Task) : Prop where
  params : ∃ inputs, task.params = inputs ++ [task.computation.toExpr] ∧ ∀ input ∈ inputs, input.inputName?.isSome
  types : task.paramTypes.length = task.params.length

/-- Whether the names in a task tell its nodes from each other and from the variables of its definition. -/
structure NamesApart (task : Task) : Prop where
  params : ∀ entry ∈ task.params.zip task.paramTypes, ∀ entry' ∈ task.params.zip task.paramTypes,
    entry.1.nodeName? = entry'.1.nodeName? → entry = entry'
  axes : ∀ v ∈ task.computation.axes, v.name ∉ task.paramNames
  value : task.computation.value.KeepsApart task.paramNames

variable {task : Task}

theorem ListsNodes.isSome_nodeName? (h : task.ListsNodes) : ∀ param ∈ task.params, param.nodeName?.isSome := by
  obtain ⟨inputs, hparams, hinputs⟩ := h.params
  rw [hparams]
  refine List.forall_mem_append.mpr ⟨fun input hinput => ?_, List.forall_mem_singleton.mpr rfl⟩
  have hname := hinputs input hinput
  cases input with
  | tensorInput | scalarInput => rfl
  | _ => cases hname

/-- The last parameter is the definition. -/
theorem ListsNodes.exists_getElem? (h : task.ListsNodes) :
    ∃ ty, (task.params.zip task.paramTypes)[task.params.length - 1]? = some (task.computation.toExpr, ty) := by
  obtain ⟨inputs, hparams, -⟩ := h.params
  have hlength : task.params.length = inputs.length + 1 := by
    rw [hparams, List.length_append, List.length_singleton]
  have hlast : task.params.length - 1 < task.paramTypes.length := by
    rw [h.types, hlength]
    exact Nat.lt_succ_self _
  refine ⟨task.paramTypes[task.params.length - 1], ?_⟩
  refine List.getElem?_zip_eq_some.mpr ⟨?_, List.getElem?_eq_getElem hlast⟩
  simp only [hlength, Nat.add_sub_cancel]
  rw [hparams, List.getElem?_concat_length]

theorem ListsNodes.map_name_paramVar (h : task.ListsNodes) :
    ((task.params.zip task.paramTypes).map ParamMap.paramVar).map Var.name = task.paramNames := by
  have hentries : (task.params.zip task.paramTypes).map Prod.fst = task.params :=
    List.map_fst_zip (Nat.le_of_eq h.types.symm)
  have hnames : ∀ entry ∈ task.params.zip task.paramTypes, entry.1.nodeName? = some (ParamMap.paramVar entry).name :=
    fun entry hentry => ParamMap.nodeName?_eq (h.isSome_nodeName? _ (List.of_mem_zip hentry).1)
  conv_rhs => rw [paramNames, ← hentries, List.filterMap_map]
  rw [List.map_map, ← List.filterMap_eq_map]
  exact List.filterMap_congr fun entry hentry => (hnames entry hentry).symm

/-- A parameter stands at the position of its name. -/
theorem NamesApart.exists_position? (h : task.NamesApart) (hlists : task.ListsNodes) {entry : Expr × Ty}
    (hentry : entry ∈ task.params.zip task.paramTypes) {name : String} (hname : entry.1.nodeName? = some name) :
    ∃ i, task.position? name = some i ∧
      ((task.params.zip task.paramTypes).map ParamMap.paramVar)[i]? = some (ParamMap.paramVar entry) := by
  cases hfind : task.position? name with
  | none =>
    have hnone := List.findIdx?_eq_none_iff.mp hfind entry.1 (List.of_mem_zip hentry).1
    rw [hname, beq_self_eq_true] at hnone
    cases hnone
  | some i =>
    obtain ⟨hi, hfound, -⟩ := List.findIdx?_eq_some_iff_getElem.mp hfind
    have hitype : i < task.paramTypes.length := hlists.types ▸ hi
    have hzip : (task.params.zip task.paramTypes)[i]? = some (task.params[i], task.paramTypes[i]) :=
      List.getElem?_zip_eq_some.mpr ⟨List.getElem?_eq_getElem hi, List.getElem?_eq_getElem hitype⟩
    have hsame := h.params _ (List.mem_of_getElem? hzip) entry hentry ((eq_of_beq hfound).trans hname.symm)
    refine ⟨i, rfl, ?_⟩
    rw [List.getElem?_map, hzip, hsame]
    rfl

end Task

namespace Function

/-- Whether a function takes what a task does: as many parameters, of the same element types. -/
structure TakesParams (f : Function) (task : Task) : Prop where
  length_eq : f.params.length = task.params.length
  elementTypes : f.params.map (fun v => v.ty.scalarType?) = task.paramTypes.map Ty.scalarType?

/-- Whether a function makes the accesses of a task for a number of elements, each of them through the parameter at the
position of the node. Nothing else in it is a node or has the name of a parameter. -/
structure AccessesParams (f : Function) (task : Task) (count : Nat) : Prop where
  body : Stmt.AllAccess f.params [f.body] (List.replicate count task.accesses).flatten
  locals : ∀ v ∈ f.locals, v.name ∉ f.params.map Var.name

end Function

namespace GridKernel

variable {task : Task} {f : Function}

/-- What a kernel is made of, for a task whose parameters are all named. -/
theorem exists_lowers_of_kernel (hnames : ∀ param ∈ task.params, param.nodeName?.isSome) (h : kernel task = .ok f) :
    ∃ shape b out thread lowered accs,
      (ParamMap.ofEntries (task.params.zip task.paramTypes)).lookup task.computation.name = some out ∧
        f.params = (task.params.zip task.paramTypes).map ParamMap.paramVar ∧ f.locals = accs ∧
          f.body = body task.worker task.computation shape out thread lowered ∧
            (∀ v ∈ f.params, v.name ∈ b.taken ∧ v.name ≠ thread.name) ∧
              Lowers (ParamMap.ofEntries (task.params.zip task.paramTypes)) b [task.computation.value] lowered.prelude
                [lowered.value] accs := by
  obtain ⟨shape, params, b, out, thread, lowered, b', -, hdeclare, hout, hthread, hlower, rfl⟩ := exists_of_kernel h
  have hentries : ∀ entry ∈ task.params.zip task.paramTypes, entry.1.nodeName?.isSome :=
    fun entry hentry => hnames _ (List.of_mem_zip hentry).1
  obtain ⟨b₀, hdeclare', hfunction, htaken⟩ := ParamMap.exists_declare task hentries
    ⟨{ name := task.name, worker := task.worker, label := some key }, []⟩
  obtain ⟨rfl, rfl⟩ := Prod.mk.inj (Except.ok.inj (hdeclare.symm.trans hdeclare'))
  obtain ⟨accs, rfl, hlowers⟩ := Expr.exists_lowers hlower
  have hparams : b.function.params = (task.params.zip task.paramTypes).map ParamMap.paramVar := by
    rw [hfunction]
    rfl
  have htaken' : ∀ v ∈ b.function.params, v.name ∈ b.taken := by
    rw [hparams, htaken, List.forall_mem_map]
    intro entry hentry
    exact List.mem_append_left _ (List.mem_reverse.mpr (List.mem_map_of_mem hentry))
  refine ⟨shape, _, out, thread, lowered, accs, hout, hparams, ?_, rfl, fun v hv => ⟨?_, fun heq => ?_⟩, hlowers⟩
  · change b.function.locals ++ accs = accs
    rw [hfunction]
    rfl
  · exact List.mem_cons_of_mem _ (htaken' v hv)
  · have hmem := htaken' v hv
    rw [heq, hthread] at hmem
    exact freshName_not_mem b.taken "tid" hmem

/-- A kernel takes what its task does. -/
theorem takesParams_kernel (hlists : task.ListsNodes) (h : kernel task = .ok f) : f.TakesParams task := by
  obtain ⟨-, -, -, -, -, -, -, hparams, -⟩ := exists_lowers_of_kernel hlists.isSome_nodeName? h
  constructor
  · rw [hparams, List.length_map, List.length_zip, hlists.types, Nat.min_self]
  · rw [hparams, List.map_map]
    conv_rhs => rw [← List.map_snd_zip (Nat.le_of_eq hlists.types), List.map_map]
    rfl

theorem avoids_number {names : List String} (worker : Worker) :
    (Primitive.blockIdx * blockDim worker + Primitive.threadIdx).Avoids names := by
  have hprimitive (name : String) : (Expr.call name []).Avoids names := Expr.avoids_call name (List.forall_mem_nil _)
  have hdim : (blockDim worker).Avoids names := by
    rw [blockDim]
    split
    · exact Expr.avoids_const _ _
    · exact hprimitive _
  exact ((hprimitive _).binary hdim .mul).binary (hprimitive _) .add

theorem avoids_guard {names : List String} {thread : Var} (hthread : thread.name ∉ names) (shape : List Int64) :
    ((Expr.var thread).lt (Expr.int (numElements shape))).Avoids names :=
  (Expr.avoids_var hthread).binary (Expr.avoids_const _ _) .lt

/-- A kernel accesses the nodes of its task through its parameters. -/
theorem accessesParams_kernel (hlists : task.ListsNodes) (hapart : task.NamesApart) (h : kernel task = .ok f) :
    f.AccessesParams task 1 := by
  obtain ⟨shape, b, out, thread, lowered, accs, hout, hparams, hlocals, hbody, htaken, hlowers⟩ :=
    exists_lowers_of_kernel hlists.isSome_nodeName? h
  have hnames : f.params.map Var.name = task.paramNames := hparams ▸ hlists.map_name_paramVar
  have hthread : thread.name ∉ f.params.map Var.name := by
    intro hmem
    obtain ⟨v, hv, heq⟩ := List.mem_map.mp hmem
    exact (htaken v hv).2 heq
  have hsome : ∀ entry ∈ task.params.zip task.paramTypes, entry.1.nodeName?.isSome :=
    fun entry hentry => hlists.isSome_nodeName? _ (List.of_mem_zip hentry).1
  -- the accesses of the lowered value
  have hposition : ∀ name v, (ParamMap.ofEntries (task.params.zip task.paramTypes)).lookup name = some v →
      ∃ i, task.position? name = some i ∧ f.params[i]? = some v := by
    intro name v hlookup
    obtain ⟨entry, hentry, rfl, rfl⟩ := ParamMap.exists_of_lookup_ofEntries hlookup
    rw [hparams]
    exact hapart.exists_position? hlists hentry (ParamMap.nodeName?_eq (hsome entry hentry))
  obtain ⟨hhoisted, hdirect⟩ := hlowers.accesses hposition (fun v hv => (htaken v hv).1)
    (List.forall_mem_singleton.mpr (hnames ▸ hapart.value))
  rw [Expr.readsAll_singleton] at hhoisted hdirect
  rw [List.flatMap_singleton] at hdirect
  -- the element is stored to the last parameter
  have hlast : f.params[task.params.length - 1]? = some out := by
    obtain ⟨ty, hzip⟩ := hlists.exists_getElem?
    obtain ⟨entry, hentry, rfl, hname⟩ := ParamMap.exists_of_lookup_ofEntries hout
    have hsame : entry.1.nodeName? = task.computation.toExpr.nodeName? := by
      rw [ParamMap.nodeName?_eq (hsome entry hentry), hname]
      rfl
    rw [hparams, List.getElem?_map, hzip, hapart.params entry hentry _ (List.mem_of_getElem? hzip) hsame]
    rfl
  have haxes : ∀ e ∈ task.computation.axes.map Expr.var, e.Avoids (f.params.map Var.name) :=
    List.forall_mem_map.mpr fun v hv => Expr.avoids_var (hnames ▸ hapart.axes v hv)
  have hbodies : Stmt.AllAccess f.params [body task.worker task.computation shape out thread lowered] task.accesses := by
    rw [body_eq]
    refine .letIn hthread (avoids_number task.worker) (.ifThen (avoids_guard hthread shape) (.lets ?_ ?_ (.block ?_)))
    · exact hnames ▸ hapart.axes
    · exact Expr.closedUnderArithmetic_avoids.unravelFrom (Expr.avoids_var hthread) true _ shape
    · exact hhoisted.append (.store hlast haxes hdirect)
  constructor
  · rw [hbody, List.replicate_one, List.flatten_singleton]
    exact hbodies
  · rw [hlocals]
    intro v hv hmem
    obtain ⟨w, hw, heq⟩ := List.mem_map.mp hmem
    exact hlowers.not_mem_taken v hv (heq ▸ (htaken w hw).1)

end GridKernel

/-! ## Transfers of a warp -/

/-- Nodes that are the same have the same name. -/
theorem Expr.names_eq_of_same {a b : Expr} (h : a.same b) : a.inputName? = b.inputName? ∧ a.nodeName? = b.nodeName? := by
  unfold Expr.same at h
  split at h
  case h_13 | h_14 =>
    simp only [Bool.and_eq_true] at h
    grind [Expr.inputName?, Expr.nodeName?]
  case h_15 =>
    simp only [Bool.and_eq_true] at h
    grind [Expr.inputName?, Expr.nodeName?]
  all_goals first | exact ⟨rfl, rfl⟩ | cases h

namespace WarpTransfer

variable {task : Task} {b : Binding} {i j : Nat} {f : Function}

theorem IsParam.exists_getElem? {index : Nat} {node : Expr} (h : IsParam task index node) :
    ∃ param, task.params[index]? = some param ∧ param.inputName? = node.inputName? ∧
      param.nodeName? = node.nodeName? := by
  obtain ⟨param, bound, hparam, hsame, hbound⟩ := h
  obtain ⟨hinput, hnode⟩ := Expr.names_eq_of_same hsame
  rcases hbound with rfl | hbound
  · exact ⟨param, hparam, hinput, hnode⟩
  · obtain ⟨hinput', hnode'⟩ := Expr.names_eq_of_same hbound
    exact ⟨param, hparam, hinput.trans hinput', hnode.trans hnode'⟩

/-- The copy is the last parameter, and the tile is one before it. -/
theorem Copies.lt_and_eq (h : Copies task b i j) (hlists : task.ListsNodes) :
    i < j ∧ j + 1 = task.params.length := by
  obtain ⟨inputs, hparams, hinputs⟩ := hlists.params
  obtain ⟨name, dtype, shape, v, w, -, hsource⟩ := h.source
  obtain ⟨source, hi, hsource, -⟩ := hsource.exists_getElem?
  obtain ⟨copy, hj, hcopy, -⟩ := h.copy.exists_getElem?
  have hlength : task.params.length = inputs.length + 1 := by
    rw [hparams, List.length_append, List.length_singleton]
  have hi' := (List.getElem?_eq_some_iff.mp hi).1
  have hj' := (List.getElem?_eq_some_iff.mp hj).1
  have hinput : i ≠ inputs.length := by
    rintro rfl
    rw [hparams, List.getElem?_concat_length] at hi
    cases hi
    cases hsource
  have hlast : ¬ j < inputs.length := by
    intro hlt
    rw [hparams, List.getElem?_append_left hlt] at hj
    have hname := hinputs copy (List.mem_of_getElem? hj)
    rw [hcopy] at hname
    cases hname
  omega

/-- The task has no other parameters than the two if and only if all of its parameters are tensors. -/
theorem Copies.length_eq_two_iff (h : Copies task b i j) (hlists : task.ListsNodes) :
    task.params.length = 2 ↔ ∀ ty ∈ task.paramTypes, ty.isTensorLike := by
  obtain ⟨hlt, hlast⟩ := h.lt_and_eq hlists
  constructor
  · intro hlength ty hty
    obtain ⟨index, hindex⟩ := List.mem_iff_getElem?.mp hty
    have hbound := (List.getElem?_eq_some_iff.mp hindex).1
    rw [hlists.types, hlength] at hbound
    obtain rfl | rfl : index = i ∨ index = j := by omega
    · obtain ⟨tensor, d, htype, -⟩ := h.shared
      cases hindex.symm.trans htype
      rfl
    · obtain ⟨tensor, d, htype, -⟩ := h.registers
      cases hindex.symm.trans htype
      rfl
  · intro htensors
    have hindex : ∀ index < task.params.length, index = i ∨ index = j := by
      intro index hindex
      have hbound : index < task.paramTypes.length := hlists.types ▸ hindex
      have htype : task.paramTypes[index]? = some task.paramTypes[index] := List.getElem?_eq_getElem hbound
      exact h.tensors index _ htype (htensors _ (List.mem_of_getElem? htype))
    have hfirst := hindex 0 (by omega)
    by_contra hlength
    have hsecond := hindex 1 (by omega)
    omega

theorem avoids_laneId {names : List String} : Primitive.laneId.Avoids names :=
  (Expr.avoids_call _ (List.forall_mem_nil _)).binary (Expr.avoids_const _ _) .mod

/-- A load reads the tile and writes to the registers. -/
theorem allAccess_load (t : Transfer) (shared registers : Var) (hlane : lane.name ∉ [shared, registers].map Var.name)
    (position : List Int64) : Stmt.AllAccess [shared, registers] [load t shared registers position] [1, 0] := by
  have hposition : ∀ e ∈ position.map Expr.int, e.Avoids ([shared, registers].map Var.name) :=
    List.forall_mem_map.mpr fun n _ => Expr.avoids_const _ _
  have hindices := Expr.closedUnderArithmetic_avoids.globalIndices t.tile (Expr.avoids_var hlane) position
  have helement : Accesses [shared, registers]
      (Expr.element (.var shared) (t.tile.globalIndices (.var lane) position)).preorder [0] := by
    refine .of_children ⟨rfl, List.forall_mem_nil _⟩ ?_
    rw [Expr.children, List.flatMap_cons]
    exact (Accesses.var rfl).append (.of_avoids hindices)
  refine .store rfl hposition ?_
  split
  · exact helement
  · refine .of_children ⟨rfl, List.forall_mem_nil _⟩ ?_
    rw [Expr.children, List.flatMap_singleton]
    exact helement

/-- The function takes what its task does if and only if all parameters of the task are tensors. -/
theorem takesParams_function_iff (hlists : task.ListsNodes) (hmatch : matchTask pattern task = .ok b)
    (h : function task b = .ok f) : f.TakesParams task ↔ ∀ ty ∈ task.paramTypes, ty.isTensorLike := by
  obtain ⟨i, j, hcopies⟩ := exists_copies_of_matchTask hmatch
  obtain ⟨t, ht, hf⟩ := bind_eq_ok_iff.mp h
  cases hf
  rw [← hcopies.length_eq_two_iff hlists]
  refine ⟨fun htakes => htakes.length_eq.symm, fun hlength => ⟨hlength.symm, ?_⟩⟩
  obtain ⟨hlt, hlast⟩ := hcopies.lt_and_eq hlists
  obtain ⟨rfl, rfl⟩ : i = 0 ∧ j = 1 := by omega
  obtain ⟨tensor, d, htype, -⟩ := hcopies.shared
  obtain ⟨tensor', d', htype', hd', hdtype'⟩ := hcopies.registers
  obtain ⟨-, -, -, -, -, hregister⟩ := Transfer.ofBinding_eq_ok ht
  obtain rfl := Option.some.inj (hregister.symm.trans hdtype')
  have htypes : task.paramTypes = [.tensor tensor, .tensor tensor'] := by
    have hlength' := hlists.types.trans hlength
    match hparamTypes : task.paramTypes, hlength' with
    | [_, _], _ =>
      rw [hparamTypes] at htype htype'
      cases htype
      cases htype'
      rfl
  have hregisters : (registerTileType t).scalarType? = some tensor'.dtype := by
    rw [hd']
    rfl
  change [(sharedTileType task b t).scalarType?, (registerTileType t).scalarType?] = _
  rw [hcopies.sharedTileType_eq htype, hregisters, htypes]
  rfl

/-- The function accesses the nodes of its task through its parameters, once for each register, if it takes what its task
does. -/
theorem exists_accessesParams_function (hlists : task.ListsNodes) (hmatch : matchTask pattern task = .ok b)
    (h : function task b = .ok f) (htakes : f.TakesParams task) : ∃ count, f.AccessesParams task count := by
  obtain ⟨i, j, hcopies⟩ := exists_copies_of_matchTask hmatch
  obtain ⟨t, -, hf⟩ := bind_eq_ok_iff.mp h
  cases hf
  have hlength : task.params.length = 2 := htakes.length_eq.symm
  obtain ⟨hlt, hlast⟩ := hcopies.lt_and_eq hlists
  obtain ⟨rfl, rfl⟩ : i = 0 ∧ j = 1 := by omega
  -- the task reads its first parameter and writes to its second
  obtain ⟨name, dtype, shape, v, w, hvalue, hsource⟩ := hcopies.source
  obtain ⟨source, hsource, -, hname⟩ := hsource.exists_getElem?
  have hposition : task.position? name = some 0 := by
    obtain ⟨hbound, hget⟩ := List.getElem?_eq_some_iff.mp hsource
    refine List.findIdx?_eq_some_iff_getElem.mpr ⟨hbound, ?_, fun k hk => absurd hk (Nat.not_lt_zero k)⟩
    rw [hget, hname]
    exact beq_self_eq_true _
  have hreads : task.computation.value.reads = ⟨[], [name]⟩ := by
    rw [hvalue]
    simp only [Expr.reads, Expr.readsAll]
    rfl
  have haccesses : task.accesses = [1, 0] := by
    rw [Task.accesses, hreads, hlength]
    simp [hposition]
  have hlane : lane.name ∉ ["smem", "regs"] := by decide
  refine ⟨(indices t.tile.localShape).length, ?_, List.forall_mem_nil _⟩
  rw [haccesses]
  exact .letIn hlane avoids_laneId (.block (.map fun position _ =>
    allAccess_load t ⟨"smem", sharedTileType task b t⟩ ⟨"regs", registerTileType t⟩ hlane position))

end WarpTransfer

/-! ## Dispatch -/

namespace Registry

variable {task : Task} {m : Module}

/-- The registry of the library makes modules of kernels for grids and of transfers of a warp. -/
theorem exists_of_dispatch_builtin (h : builtin.dispatch task = .ok m) : ∃ f, m.get? task.name = some f ∧
    ((task.worker ≠ .warp ∧ GridKernel.kernel task = .ok f) ∨
      (task.worker = .warp ∧ ∃ b, matchTask WarpTransfer.pattern task = .ok b ∧ WarpTransfer.function task b = .ok f)) := by
  obtain ⟨-, implementer, b, hselect, himplement, hfault⟩ := dispatch_eq_ok_iff.mp h
  obtain ⟨f, hf⟩ : ∃ f, m.get? task.name = some f := by
    rw [outputFault?] at hfault
    split at hfault
    · cases hfault
    · rename_i f hf
      exact ⟨f, hf⟩
  obtain ⟨-, -, -, hmatch, -⟩ := exists_eq_append_of_select hselect
  have haccepts : implementer.pattern.worker.accepts task.worker = true := by
    rw [matchTask] at hmatch
    split_ifs at hmatch with hrefused
    simpa using hrefused
  have hmember := mem_of_select hselect
  rw [builtin, List.mem_cons, List.mem_singleton] at hmember
  refine ⟨f, hf, ?_⟩
  rcases hmember with rfl | rfl
  · obtain ⟨kernel, hkernel, hmodule⟩ := bind_eq_ok_iff.mp himplement
    cases hmodule
    obtain rfl := List.mem_singleton.mp (List.mem_of_find?_eq_some hf)
    refine .inl ⟨fun hwarp => ?_, hkernel⟩
    rw [hwarp] at haccepts
    cases haccepts
  · obtain ⟨transfer, htransfer, hmodule⟩ := bind_eq_ok_iff.mp himplement
    cases hmodule
    obtain rfl := List.mem_singleton.mp (List.mem_of_find?_eq_some hf)
    refine .inr ⟨?_, b, hmatch, htransfer⟩
    cases hworker : task.worker with
    | warp => rfl
    | _ =>
      rw [hworker] at haccepts
      cases haccepts

/-- A transfer is dispatched to the implementer for warps. -/
theorem dispatch_transfer {b : Binding} {f : Function} (hresolved : task.checkResolved = .ok ())
    (hworker : task.worker = .warp) (hmatch : matchTask WarpTransfer.pattern task = .ok b)
    (hfunction : WarpTransfer.function task b = .ok f) : builtin.dispatch task = .ok ⟨[f]⟩ := by
  have hgrid : candidate? task GridKernel.implementer = none := by
    have haccepts : GridKernel.implementer.pattern.worker.accepts task.worker = false := by
      rw [hworker]
      rfl
    rw [candidate?, matchTask, haccepts]
    rfl
  have hwarp : candidate? task WarpTransfer.implementer = some (WarpTransfer.implementer, b) :=
    candidate?_eq_some_iff.mpr ⟨rfl, hmatch⟩
  have hselect : builtin.select task = .ok (WarpTransfer.implementer, b) := by
    rw [select, candidates_eq, builtin, List.filterMap_cons_none hgrid, List.filterMap_cons_some hwarp, List.filterMap_nil]
    rfl
  have himplement : WarpTransfer.implementer.implement task b = .ok ⟨[f]⟩ := by
    change (WarpTransfer.function task b >>= _) = _
    rw [hfunction]
    rfl
  have hfault : outputFault? task ⟨[f]⟩ = none := by
    obtain ⟨t, -, hf⟩ := bind_eq_ok_iff.mp hfunction
    cases hf
    exact outputFault?_singleton rfl rfl
  exact dispatch_eq_ok_iff.mpr ⟨hresolved, _, _, hselect, himplement, hfault⟩

/-- **Emitted functions keep the calling convention of the task.** What the registry of the library makes of a task, whose
parameters are its inputs and then its definition, has a function of the name of the task. It takes what the task does, in
the same order, unless it is a transfer of a warp for a task one of whose parameters is no tensor, which the transfer leaves
out. If it takes that, then all that it accesses are the nodes of the definition, each through the parameter at its
position: a kernel as often as the definition does, if the names of the task tell its nodes from each other and from its
variables, and a transfer once for each register. -/
theorem takesParams_dispatch (hlists : task.ListsNodes) (h : builtin.dispatch task = .ok m) :
    ∃ f, m.get? task.name = some f ∧
      (f.TakesParams task ↔ (task.worker = .warp → ∀ ty ∈ task.paramTypes, ty.isTensorLike)) ∧
      (f.TakesParams task → (task.worker ≠ .warp → task.NamesApart) →
        ∃ count, f.AccessesParams task count ∧ (task.worker ≠ .warp → count = 1)) := by
  obtain ⟨f, hf, ⟨hworker, hkernel⟩ | ⟨hworker, b, hmatch, hfunction⟩⟩ := exists_of_dispatch_builtin h
  · have htakes := GridKernel.takesParams_kernel hlists hkernel
    refine ⟨f, hf, iff_of_true htakes fun hwarp => absurd hwarp hworker, fun _ hapart => ⟨1, ?_, fun _ => rfl⟩⟩
    exact GridKernel.accessesParams_kernel hlists (hapart hworker) hkernel
  · have htakes := WarpTransfer.takesParams_function_iff hlists hmatch hfunction
    refine ⟨f, hf, htakes.trans ⟨fun htypes _ => htypes, fun htypes => htypes hworker⟩, fun htakes _ => ?_⟩
    obtain ⟨count, haccesses⟩ := WarpTransfer.exists_accessesParams_function hlists hmatch hfunction htakes
    exact ⟨count, haccesses, fun hgrid => absurd hworker hgrid⟩

/-- In the sums of the rows of a matrix the names tell the nodes and the variables apart. -/
theorem namesApart_rowSums : rowSums.NamesApart where
  params := by
    intro entry hentry entry' hentry' hname
    rcases List.mem_pair.mp hentry with rfl | rfl <;> rcases List.mem_pair.mp hentry' with rfl | rfl
    · rfl
    · exact absurd hname (by decide)
    · exact absurd hname (by decide)
    · rfl
  axes := List.forall_mem_singleton.mpr (by decide)
  value := by
    have hnames : rowSums.paramNames = ["x", "y"] := rfl
    have hvar {v : Var} (hv : v.name ∉ ["x", "y"]) : Expr.KeepsApart ["x", "y"] (.var v) :=
      .node rfl (List.forall_mem_singleton.mpr hv) (List.forall_mem_nil _)
    rw [hnames]
    refine .reduce (by decide) (List.forall_mem_singleton.mpr (Expr.avoids_const _ _)) (.node rfl (List.forall_mem_nil _) ?_)
    refine List.forall_mem_cons.mpr ⟨.input rfl, List.forall_mem_cons.mpr ⟨hvar (by decide), ?_⟩⟩
    exact List.forall_mem_singleton.mpr (hvar (by decide))

/-- The kernel for the sums of the rows of a matrix and the transfer of a tile keep the calling convention. -/
theorem takesParams_dispatch_rowSums :
    (rowSums.ListsNodes ∧ ∃ m f, builtin.dispatch rowSums = .ok m ∧ m.get? rowSums.name = some f ∧
      f.TakesParams rowSums ∧ f.AccessesParams rowSums 1) ∧
    (WarpTransfer.rowsTask.ListsNodes ∧ ∃ m f count, builtin.dispatch WarpTransfer.rowsTask = .ok m ∧
      m.get? WarpTransfer.rowsTask.name = some f ∧ f.TakesParams WarpTransfer.rowsTask ∧
        f.AccessesParams WarpTransfer.rowsTask count) := by
  have hsums : rowSums.ListsNodes := ⟨⟨[_], rfl, List.forall_mem_singleton.mpr rfl⟩, rfl⟩
  have hrows : WarpTransfer.rowsTask.ListsNodes := ⟨⟨[_], rfl, List.forall_mem_singleton.mpr rfl⟩, rfl⟩
  refine ⟨⟨hsums, ?_⟩, hrows, ?_⟩
  · obtain ⟨f, hkernel, hname, hworker⟩ : ∃ f, GridKernel.kernel rowSums = .ok f ∧ f.name = rowSums.name ∧
        f.worker = rowSums.worker := ⟨_, rfl, rfl, rfl⟩
    have hdispatch := dispatch_builtin rfl rfl hkernel hname hworker
    obtain ⟨g, hg, htakes, haccesses⟩ := takesParams_dispatch hsums hdispatch
    have htakes := htakes.mpr nofun
    obtain ⟨count, haccesses, hcount⟩ := haccesses htakes fun _ => namesApart_rowSums
    exact ⟨_, g, hdispatch, hg, htakes, hcount nofun ▸ haccesses⟩
  · obtain ⟨m, himplement⟩ := WarpTransfer.exists_implement_rows
    obtain ⟨f, hfunction, -⟩ := bind_eq_ok_iff.mp himplement
    have hdispatch := dispatch_transfer rfl rfl WarpTransfer.matchTask_rows hfunction
    obtain ⟨g, hg, htakes, haccesses⟩ := takesParams_dispatch hrows hdispatch
    have htakes := htakes.mpr fun _ => List.forall_mem_cons.mpr ⟨rfl, List.forall_mem_singleton.mpr rfl⟩
    obtain ⟨count, haccesses, -⟩ := haccesses htakes fun hworker => absurd rfl hworker
    exact ⟨_, g, count, hdispatch, hg, htakes, haccesses⟩

/-- A copy of a vector whose axis has the name of the vector. -/
def shadowedCopy : Task :=
  let input := TensorInput.ofShape "x" .float32 [4]
  let computation : TensorCompute := ⟨"y", Expr.ofShape [4], [.int "x"], input.elementAt [.var (.int "x")]⟩
  { name := "copy"
    computation
    params := [input.toExpr, computation.toExpr]
    paramTypes := [.tensor (.ofShape .global .float32 [4]), .tensor (.ofShape .global .float32 [4])]
    worker := .grid (some 1) (some 4) }

/-- The kernel of this task takes what the task does, but reads the vector where its name is that of the axis. -/
theorem not_accessesParams_dispatch_shadowedCopy : shadowedCopy.ListsNodes ∧
    ∃ m f, builtin.dispatch shadowedCopy = .ok m ∧ m.get? shadowedCopy.name = some f ∧
      f.TakesParams shadowedCopy ∧ ∀ count, ¬ f.AccessesParams shadowedCopy count := by
  have hlists : shadowedCopy.ListsNodes := ⟨⟨[_], rfl, List.forall_mem_singleton.mpr rfl⟩, rfl⟩
  obtain ⟨f, hkernel, hname, hworker, hparams, hbody⟩ : ∃ f, GridKernel.kernel shadowedCopy = .ok f ∧
      f.name = shadowedCopy.name ∧ f.worker = shadowedCopy.worker ∧ f.params.map Var.name = ["x", "y"] ∧
        ∃ v number test coordinate store,
          f.body = .letIn v number (.ite test (.letIn (.int "x") coordinate store) none) :=
    ⟨_, rfl, rfl, rfl, rfl, _, _, _, _, _, rfl⟩
  refine ⟨hlists, _, f, dispatch_builtin rfl rfl hkernel hname hworker, ?_,
    GridKernel.takesParams_kernel hlists hkernel, fun count haccesses => ?_⟩
  · simp [Module.get?, hname]
  · obtain ⟨v, number, test, coordinate, store, hbody⟩ := hbody
    have haxis : Stmt.letIn (.int "x") coordinate store ∈ f.body.preorder := by
      rw [hbody, Stmt.preorder_eq, Stmt.children, List.flatMap_singleton, Stmt.preorder_eq, Stmt.children,
        Option.toList_none, List.flatMap_singleton, Stmt.preorder_eq (.letIn (.int "x") coordinate store)]
      exact List.mem_cons_of_mem _ (List.mem_cons_of_mem _ List.mem_cons_self)
    have hapart := haccesses.body.own _ (List.mem_singleton_self _) _ haxis _ (List.mem_singleton_self _)
    rw [hparams] at hapart
    exact hapart List.mem_cons_self

/-- The transfer of a tile of `n` rows in shared memory, which takes the number of its rows. -/
def countedRows : Task :=
  let count := Expr.scalarInput "n" (.known .int32)
  let input := Expr.tensorInput "in" (.known .float32) (some [count, .int 4])
  let axes := [Var.int "i", Var.int "j"]
  let output : TensorCompute := ⟨"out", [.int 2, .int 2], axes, .element input (axes.map .var)⟩
  { name := "s2r"
    computation := output
    params := [input, count, output.toExpr]
    paramTypes :=
      [.tensor ⟨.known .shared, .known .float32, some [count, .int 4], none⟩, .ofDType .int32,
        .tensor (.ofShape (.register (.known ⟨[2, 2], .identity⟩)) .float32 [2, 2])]
    worker := .warp }

/-- What the pattern of the transfers stands for in `countedRows`. -/
def countedRowsBinding : Binding :=
  { exprs := [(3, .int 1), (2, .int 4), (1, .int 2), (0, .int 2)]
    dtypes := [(6, .float32), (5, .float32), (4, .float32)]
    tiles := [(7, ⟨[2, 2], .identity⟩)]
    nodes :=
      [("out", countedRows.computation.toExpr),
        ("in", .tensorInput "in" (.known .float32) (some [.scalarInput "n" (.known .int32), .int 4]))]
    vars := [("j", .int "j"), ("i", .int "i")]
    params := [0, 2] }

theorem matchTask_countedRows : matchTask WarpTransfer.pattern countedRows = .ok countedRowsBinding := by
  cbv
  rw [matchEach_nil]
  cbv
  rw [matchEach_nil]
  cbv
  rw [matchEach_nil]
  cbv

/-- The transfer of this task has no parameter for the number of the rows, although the type of its first one mentions it. -/
theorem not_takesParams_dispatch_countedRows : countedRows.ListsNodes ∧
    ∃ m f, builtin.dispatch countedRows = .ok m ∧ m.get? countedRows.name = some f ∧
      countedRows.paramNames = ["in", "n", "out"] ∧ f.params.map Var.name = ["smem", "regs"] ∧
        ¬ f.TakesParams countedRows := by
  have htransfer : WarpTransfer.Transfer.ofBinding countedRowsBinding =
      .ok ⟨[2, 2], ⟨[2, 2], .identity⟩, .float32, .float32⟩ := by
    unfold WarpTransfer.Transfer.ofBinding
    cbv
  have hfunction : ∃ f, WarpTransfer.function countedRows countedRowsBinding = .ok f ∧ f.name = countedRows.name ∧
      f.params.map Var.name = ["smem", "regs"] := ⟨_, bind_eq_ok_iff.mpr ⟨_, htransfer, rfl⟩, rfl, rfl⟩
  obtain ⟨f, hf, hname, hparams⟩ := hfunction
  have hlists : countedRows.ListsNodes :=
    ⟨⟨[_, _], rfl, List.forall_mem_cons.mpr ⟨rfl, List.forall_mem_singleton.mpr rfl⟩⟩, rfl⟩
  refine ⟨hlists, _, f, dispatch_transfer rfl rfl matchTask_countedRows hf, ?_, rfl, hparams, fun htakes => ?_⟩
  · simp [Module.get?, hname]
  · have hlength := congrArg List.length hparams
    rw [List.length_map, htakes.length_eq] at hlength
    cases hlength

end Registry

end TensorCompiler
