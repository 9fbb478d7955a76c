import TensorCompiler.Proofs.Kernel.Frame
import TensorCompiler.Proofs.Lowering.BoundsExpr
import TensorCompiler.Proofs.Number.Binary64

/-! # Simplification of functions by bounds

The invariant of a run is that the bounds of the scope hold of its variables. A statement keeps it, since it assigns
none of the variables that have bounds there; a loop puts its variable within the bounds that the analysis gives it.
So each statement that is simplified under the bounds of its scope runs as it did before.
-/

namespace TensorCompiler

variable {Address Memory : Type} {M : Machine Address Memory} {s : State Address Memory} {r : Run Address Memory}
  {env : Bounds}

/-- A number of iterations that is shown as a number that is not positive is not positive. -/
theorem Stmt.nonpos_of_isEmptyExtent {extent : Expr} {n : Int64} {memory : Memory} {vars : Vars Address}
    (h : isEmptyExtent extent) (hrun : extent.run M true memory vars = some (.scalar (.int n))) : n ≤ 0 := by
  unfold isEmptyExtent at h
  cases extent
  case const value d =>
    obtain ⟨heq, -⟩ := Expr.run_const_eq_some_iff.mp hrun
    obtain rfl := Datum.scalar.inj heq
    rcases (Bool.or_eq_true _ _).mp h with hlt | hzero
    · exact Int64.le_of_lt (Binary64.neg_of_ofInt64_lt (of_decide_eq_true hlt))
    · exact Int64.le_of_eq (Binary64.eq_zero_of_ofInt64_beq hzero)
  all_goals cases h

theorem iterations_of_nonpos {n : Int64} (h : n ≤ 0) : iterations n = [] := by
  have htoInt : n.toInt ≤ 0 := Int64.le_iff_toInt_le.mp h
  have hnat : n.toNatClampNeg = 0 := Int.toNat_of_nonpos htoInt
  rw [iterations, hnat]
  rfl

/-- The loop variable runs from zero to below the number of iterations. -/
theorem toInt_of_mem_iterations {n i : Int64} (h : i ∈ iterations n) : 0 ≤ i.toInt ∧ i.toInt < n.toInt := by
  obtain ⟨k, hk, rfl⟩ := List.mem_map.mp h
  have hlt : k < n.toInt.toNat := List.mem_range.mp hk
  have hbound := n.toInt_lt
  rw [Int64.toInt_ofNat_of_lt (by omega)]
  omega

/-- Only calls of primitives give something. -/
theorem Expr.isPrimitive_of_run {func : String} {args : List Expr} {strict : Bool} {memory : Memory}
    {vars : Vars Address} {δ : Datum Address} (h : (call func args).run M strict memory vars = some δ) :
    Primitive.isPrimitive func := by
  rw [Primitive.isPrimitive, Bool.or_eq_true]
  rcases run_call_eq_some_iff.mp h with ⟨hindex, -⟩ | ⟨-, values, v, -, hv, -⟩
  · exact Or.inl hindex
  · exact Or.inr (List.contains_iff_mem.mpr (Intrinsic.mem_names_of_eval? hv))

/-- A call of a function of the module is not folded. -/
theorem Expr.foldCall_of_not_isPrimitive {func : String} (h : Primitive.isPrimitive func = false) (args : List Expr) :
    foldCall func args = call func args := by
  rcases foldCall_cases func args with hsame | ⟨values, v, first, d, -, hv, -⟩
  · exact hsame
  · have hname : Primitive.isIntrinsic func = true := List.contains_iff_mem.mpr (Intrinsic.mem_names_of_eval? hv)
    rw [Primitive.isPrimitive, hname, Bool.or_true] at h
    cases h

/-! ## Constant folding of a statement -/

/-- A statement that is folded runs as it did before. -/
theorem Stmt.exec_foldNode {stmt : Stmt} (h : stmt.exec M true s = some r) :
    stmt.foldNode.exec M true s = some r := by
  cases stmt with
  | ite cond thenS elseS =>
    obtain ⟨c, hc, hbranch⟩ := exec_ite_eq_some_iff.mp h
    cases cond with
    | const value d =>
      obtain ⟨heq, -⟩ := Expr.run_const_eq_some_iff.mp hc
      obtain rfl := Datum.scalar.inj heq
      simp only [foldNode, Expr.value?]
      split_ifs at hbranch ⊢ <;> exact hbranch
    | _ => exact h
  | forRange v extent unroll body =>
    rw [foldNode]
    split_ifs with hempty
    · obtain ⟨n, hn, hloop⟩ := exec_forRange_eq_some_iff.mp h
      rw [iterations_of_nonpos (nonpos_of_isEmptyExtent hempty hn)] at hloop
      exact hloop
    · exact h
  | assert cond message =>
    obtain ⟨c, hc, rfl⟩ := exec_assert_eq_some_iff.mp h
    cases cond with
    | const value d =>
      obtain ⟨heq, -⟩ := Expr.run_const_eq_some_iff.mp hc
      obtain rfl := Datum.scalar.inj heq
      simp only [foldNode, Expr.value?]
      split_ifs with htrue
      · rfl
      · rw [if_neg htrue] at h
        exact h
    | _ => exact h
  | seq stmts =>
    rw [foldNode, exec_block, execAll_flattenAll fun stmt _ s => execAll_flatten stmt s]
    rwa [exec] at h
  | _ => exact h

/-! ## Bounds along a run -/

/-- Bounds of variables that a run does not change hold after it. -/
theorem Bounds.Holds.of_sameExcept {names : List String} {old new : Vars Address} (h : env.Holds M old)
    (hsame : Vars.SameExcept names old new) (hnames : ∀ x ∈ env.vars.map Prod.fst, x ∉ names) : env.Holds M new where
  threadIdx := h.threadIdx
  blockIdx := h.blockIdx
  blockDim := h.blockDim
  vars x I v n hI hlookup hn := by
    have hmem : x ∈ env.vars.map Prod.fst := by
      obtain ⟨before, after, heq, -⟩ := List.lookup_eq_some_iff.mp hI
      simp [heq]
    rw [hsame.lookup_eq (hnames x hmem)] at hlookup
    exact h.vars x I v n hI hlookup hn

namespace Stmt

/-- Whether the expressions of a statement are integral, it is no foreign code, and what it binds its body does not
assign. -/
def IsIntegralNode (stmt : Stmt) : Prop :=
  (∀ e ∈ stmt.exprs, e.IsIntegral) ∧
    match stmt with
    | asm .. | raw .. => False
    | letIn v _ body | forRange v _ _ body => v.name ∉ body.assigned
    | _ => True

/-- Whether all statements of a tree are integral. -/
def IsIntegral (stmt : Stmt) : Prop :=
  ∀ t ∈ stmt.preorder, t.IsIntegralNode

instance (stmt : Stmt) : Decidable stmt.IsIntegralNode := by
  unfold IsIntegralNode
  cases stmt <;> exact instDecidableAnd

instance (stmt : Stmt) : Decidable stmt.IsIntegral :=
  inferInstanceAs (Decidable (∀ t ∈ stmt.preorder, t.IsIntegralNode))

theorem IsIntegral.node {stmt : Stmt} (h : stmt.IsIntegral) : stmt.IsIntegralNode :=
  h stmt (mem_preorder_self stmt)

theorem IsIntegral.child {c stmt : Stmt} (h : stmt.IsIntegral) (hc : c ∈ stmt.children) : c.IsIntegral :=
  fun t ht => h t (mem_preorder_of_child hc ht)

/-- The bounds of a scope are of variables that a statement does not assign. -/
def KeepsBounds (stmt : Stmt) (env : Bounds) : Prop :=
  ∀ x ∈ env.vars.map Prod.fst, x ∉ stmt.assigned

theorem KeepsBounds.child {c stmt : Stmt} (h : stmt.KeepsBounds env) (hc : c ∈ stmt.children) : c.KeepsBounds env :=
  fun x hx hassigned => h x hx (assigned_of_child hc hassigned)

theorem KeepsBounds.bind {body : Stmt} {name : String} {I : Interval} (h : body.KeepsBounds env)
    (hname : name ∉ body.assigned) : body.KeepsBounds (env.bind name I) := by
  intro x hx
  rcases List.mem_cons.mp hx with rfl | hx
  · exact hname
  · exact h x hx

/-- A run keeps the bounds of its scope. -/
theorem KeepsBounds.holds_exec {stmt : Stmt} {strict : Bool} (h : stmt.KeepsBounds env) (hholds : env.Holds M s.vars)
    (hexec : stmt.exec M strict s = some r) : env.Holds M r.state.vars :=
  hholds.of_sameExcept (sameExcept_exec hexec) h

theorem simplifyAllBounds_eq [FloatOps] (env : Bounds) (stmts : List Stmt) :
    simplifyAllBounds env stmts = stmts.map (simplifyBounds env) := by
  induction stmts with
  | nil => rfl
  | cons stmt stmts ih => rw [simplifyAllBounds, ih, List.map_cons]

theorem execIteration_simplifyBounds {v : Var} {extent : Expr} {body : Stmt} {n i : Int64}
    (hbody : ∀ env, body.KeepsBounds env → ∀ (s : State Address Memory) r, env.Holds M s.vars →
      body.exec M true s = some r → (body.simplifyBounds env).exec M true s = some r)
    (hkeeps : body.KeepsBounds env) (hname : v.name ∉ body.assigned) (hholds : env.Holds M s.vars)
    (hn : (extent.interval env).Contains n.toInt) (hi : i ∈ iterations n)
    (hexec : execIteration M true v body i s = some r) :
    execIteration M true v (body.simplifyBounds (env.bind v.name (.below (extent.interval env).hi))) i s = some r ∧
      env.Holds M r.state.vars := by
  obtain ⟨t, ht, rfl⟩ := Option.map_eq_some_iff.mp hexec
  obtain ⟨hnonneg, hlt⟩ := toInt_of_mem_iterations hi
  have hvar : (env.bind v.name (.below (extent.interval env).hi)).Holds M (s.bind v.name (.scalar (.int i))).vars := by
    refine hholds.bind fun w m hw hm => ?_
    cases hw
    cases hm
    refine Interval.contains_below hnonneg fun k hk => ?_
    have := hn.2 k hk
    omega
  constructor
  · exact Option.map_eq_some_iff.mpr ⟨t, hbody _ (hkeeps.bind hname) _ t hvar ht, rfl⟩
  · exact hholds.of_sameExcept (sameExcept_exec ht).tail hkeeps

/-- A statement that is simplified under the bounds of its scope runs as it did before. -/
theorem IsIntegral.exec_simplifyBounds {stmt : Stmt} (h : stmt.IsIntegral) (hkeeps : stmt.KeepsBounds env)
    (hholds : env.Holds M s.vars) (hexec : stmt.exec M true s = some r) :
    (stmt.simplifyBounds env).exec M true s = some r := by
  induction stmt using Stmt.induct generalizing env s r with
  | node stmt ih =>
    obtain ⟨hexprs, hnode⟩ := h.node
    have hexpr {e : Expr} (he : e ∈ stmt.exprs) {δ : Datum Address} (hrun : e.run M true s.memory s.vars = some δ) :
        (e.simplifyBounds env).run M true s.memory s.vars = some δ :=
      (hexprs e he).run_simplifyBounds FloatOps.separatesUnits_binary64 hholds hrun
    have hchild {c : Stmt} (hc : c ∈ stmt.children) (hexec : c.exec M true s = some r) :
        (c.simplifyBounds env).exec M true s = some r :=
      ih c hc (h.child hc) (hkeeps.child hc) hholds hexec
    cases stmt with
    | eval e =>
      by_cases hcall : ∀ func args, e = .call func args → Primitive.isPrimitive func
      · obtain ⟨⟨δ, hδ⟩, rfl⟩ := (exec_eval_eq_some_iff hcall).mp hexec
        have hδ' := hexpr (by simp [exprs]) hδ
        refine (exec_eval_eq_some_iff fun func args heq => ?_).mpr ⟨⟨δ, hδ'⟩, rfl⟩
        have heq' : e.simplifyBounds env = .call func args := heq
        rw [heq'] at hδ'
        exact Expr.isPrimitive_of_run hδ'
      · obtain ⟨func, args, rfl, hfunc⟩ : ∃ func args, e = .call func args ∧ Primitive.isPrimitive func = false := by
          simpa using hcall
        obtain ⟨δs, memory, hδs, hinvoke, rfl⟩ := (exec_eval_call_eq_some_iff hfunc).mp hexec
        have hargs : (Expr.call func args).simplifyBounds env = .call func (args.map (Expr.simplifyBounds env)) := by
          rw [Expr.simplifyBounds, Expr.simplifyAllBounds_eq]
          exact Expr.foldCall_of_not_isPrimitive hfunc _
        change (eval ((Expr.call func args).simplifyBounds env)).exec M true s = _
        rw [hargs]
        refine (exec_eval_call_eq_some_iff hfunc).mpr ⟨δs, memory, ?_, hinvoke, rfl⟩
        rw [List.forall₂_map_left_iff]
        refine forall₂_imp_of_mem hδs fun arg harg δ hδ => ?_
        have hint : arg.IsIntegral := (hexprs (.call func args) (by simp [exprs])).child harg
        exact hint.run_simplifyBounds FloatOps.separatesUnits_binary64 hholds hδ
    | assign v value =>
      obtain ⟨δ, vars, hδ, hset, rfl⟩ := exec_assign_eq_some_iff.mp hexec
      exact exec_assign_eq_some_iff.mpr ⟨δ, vars, hexpr (by simp [exprs]) hδ, hset, rfl⟩
    | store buf indices value =>
      obtain ⟨a, is, v, memory, ha, his, hv, hstore, rfl⟩ := exec_store_eq_some_iff.mp hexec
      refine exec_store_eq_some_iff.mpr ⟨a, is, v, memory, hexpr (by simp [exprs]) ha, ?_,
        hexpr (by simp [exprs]) hv, hstore, rfl⟩
      rw [List.forall₂_map_left_iff]
      exact forall₂_imp_of_mem his fun i hi n => hexpr (by simp [exprs, hi])
    | letIn v value body =>
      obtain ⟨δ, t, hδ, hbody, rfl⟩ := exec_letIn_eq_some_iff.mp hexec
      have hδ' := hexpr (by simp [exprs]) hδ
      rw [simplifyBounds]
      refine exec_foldNode (exec_letIn_eq_some_iff.mpr ⟨δ, t, hδ', ?_, rfl⟩)
      refine ih body (by simp [children]) (h.child (by simp [children]))
        ((hkeeps.child (by simp [children])).bind hnode) (hholds.bind ?_) hbody
      rintro w n rfl hn
      exact Expr.contains_interval hholds hδ' hn
    | forRange v extent unroll body =>
      obtain ⟨n, hn, hloop⟩ := exec_forRange_eq_some_iff.mp hexec
      have hn' := hexpr (by simp [exprs]) hn
      rw [simplifyBounds]
      refine exec_foldNode (exec_forRange_eq_some_iff.mpr ⟨n, hn', ?_⟩)
      refine (runLoop_mono (fun s => env.Holds M s.vars) _ (fun i hi s r hs hiter => ?_) hholds hloop).1
      refine execIteration_simplifyBounds (fun env hk s r hs hexec => ?_) (hkeeps.child (by simp [children])) hnode hs
        (Expr.contains_interval hholds hn' rfl) hi hiter
      exact ih body (by simp [children]) (h.child (by simp [children])) hk hs hexec
    | ite cond thenS elseS =>
      obtain ⟨c, hc, hbranch⟩ := exec_ite_eq_some_iff.mp hexec
      have hc' := hexpr (by simp [exprs]) hc
      cases elseS with
      | none =>
        rw [simplifyBounds]
        refine exec_foldNode (exec_ite_eq_some_iff.mpr ⟨c, hc', ?_⟩)
        split_ifs at hbranch ⊢
        · exact hchild (by simp [children]) hbranch
        · exact hbranch
      | some elseS =>
        rw [simplifyBounds]
        refine exec_foldNode (exec_ite_eq_some_iff.mpr ⟨c, hc', ?_⟩)
        split_ifs at hbranch ⊢
        · exact hchild (by simp [children]) hbranch
        · exact hchild (by simp [children]) hbranch
    | assert cond message =>
      obtain ⟨c, hc, rfl⟩ := exec_assert_eq_some_iff.mp hexec
      rw [simplifyBounds, mapOwnExprs]
      · exact exec_foldNode (exec_assert_eq_some_iff.mpr ⟨c, hexpr (by simp [exprs]) hc, rfl⟩)
      all_goals simp
    | ret value =>
      cases value with
      | none => exact hexec
      | some e =>
        obtain ⟨δ, hδ, rfl⟩ := exec_ret_eq_some_iff.mp hexec
        exact exec_ret_eq_some_iff.mpr ⟨δ, hexpr (by simp [exprs]) hδ, rfl⟩
    | seq stmts =>
      rw [simplifyBounds, simplifyAllBounds_eq]
      refine exec_foldNode ?_
      rw [exec] at hexec ⊢
      have hall : List.Forall₂ (fun stmt stmt' => ∀ t r, env.Holds M t.vars → stmt.exec M true t = some r →
          stmt'.exec M true t = some r ∧ env.Holds M r.state.vars) stmts (stmts.map (simplifyBounds env)) := by
        rw [List.forall₂_map_right_iff]
        refine List.forall₂_same.mpr fun stmt hstmt t r ht hexec => ?_
        exact ⟨ih stmt hstmt (h.child hstmt) (hkeeps.child hstmt) ht hexec, (hkeeps.child hstmt).holds_exec ht hexec⟩
      exact (execAll_mono (fun s => env.Holds M s.vars) hall hholds hexec).1
    | asm | raw => exact hnode.elim

end Stmt

/-! ## Functions -/

namespace Worker

/-- The number of blocks that a worker fixes. -/
def fixedGridDim? : Worker → Option UInt32
  | grid gridDim _ => gridDim
  | _ => none

/-- The number of threads of a block that a worker fixes. -/
def fixedBlockDim? : Worker → Option UInt32
  | grid _ blockDim | threadBlock blockDim => blockDim
  | _ => none

end Worker

/-- Whether the hardware indices of a machine are ones that a thread of a worker may see. -/
structure Machine.RunsOn (M : Machine Address Memory) (worker : Worker) : Prop where
  threadIdx_nonneg : 0 ≤ M.threadIdx.toInt
  threadIdx_lt : ∀ n, worker.fixedBlockDim? = some n → M.threadIdx.toInt < n.toNat
  blockIdx_nonneg : 0 ≤ M.blockIdx.toInt
  blockIdx_lt : ∀ n, worker.fixedGridDim? = some n → M.blockIdx.toInt < n.toNat
  blockDim_eq : ∀ n, worker.fixedBlockDim? = some n → M.blockDim.toInt = n.toNat
  blockDim_pos : worker.fixedBlockDim? = none → 1 ≤ M.blockDim.toInt

namespace Bounds

variable {worker : Worker}

theorem ofWorker_threadIdx :
    (ofWorker worker).threadIdx = .below (worker.fixedBlockDim?.map fun n => (n.toNat : Int)) := by
  cases worker <;> rfl

theorem ofWorker_blockIdx :
    (ofWorker worker).blockIdx = .below (worker.fixedGridDim?.map fun n => (n.toNat : Int)) := by
  cases worker <;> rfl

theorem ofWorker_blockDim :
    (ofWorker worker).blockDim = (worker.fixedBlockDim?.map fun n => .exact (n.toNat : Int)).getD (.atLeast 1) := by
  cases worker
  case grid gridDim blockDim => cases blockDim <;> rfl
  case threadBlock blockDim => cases blockDim <;> rfl
  all_goals rfl

/-- The bounds that a worker gives hold at the start of a run on it. -/
theorem holds_ofWorker (h : M.RunsOn worker) (vars : Vars Address) : (ofWorker worker).Holds M vars where
  threadIdx := by
    rw [ofWorker_threadIdx]
    refine Interval.contains_below h.threadIdx_nonneg fun k hk => ?_
    obtain ⟨n, hn, rfl⟩ := Option.map_eq_some_iff.mp hk
    exact h.threadIdx_lt n hn
  blockIdx := by
    rw [ofWorker_blockIdx]
    refine Interval.contains_below h.blockIdx_nonneg fun k hk => ?_
    obtain ⟨n, hn, rfl⟩ := Option.map_eq_some_iff.mp hk
    exact h.blockIdx_lt n hn
  blockDim := by
    rw [ofWorker_blockDim]
    cases hdim : worker.fixedBlockDim? with
    | none => exact Interval.contains_atLeast (h.blockDim_pos hdim)
    | some n =>
      rw [Option.map_some, Option.getD_some, h.blockDim_eq n hdim]
      exact Interval.contains_exact _
  vars x I v n hI := by cases hI

end Bounds

/-- Simplification by bounds is sound: a run of the body in which nothing overflows and the values fit their types is a
run of the simplified body, with the same events in the same order and the same end. -/
theorem Function.exec_body_simplifyBounds {f : Function} (hbody : f.body.IsIntegral) (hworker : M.RunsOn f.worker)
    (hexec : f.body.exec M true s = some r) :
    f.body.exec M false s = some r ∧ f.simplifyBounds.body.exec M false s = some r := by
  have hkeeps : f.body.KeepsBounds (.ofWorker f.worker) := by
    intro x hx
    cases hx
  have hstrict := hbody.exec_simplifyBounds hkeeps (Bounds.holds_ofWorker hworker s.vars) hexec
  exact ⟨Stmt.exec_of_strict hexec, Stmt.exec_of_strict hstrict⟩

/-- A thread that runs alone and whose memory only takes stores: the list of what was stored where, latest first. -/
def writeOnly : Machine (String × List Int64) (List ((String × List Int64) × Value)) where
  threadIdx := 0
  blockIdx := 0
  blockDim := 1
  element a indices := (a.1, a.2 ++ indices)
  load _ _ := none
  store memory a v := some ((a, v) :: memory)
  invoke _ _ _ := none

theorem writeOnly_runsOn : writeOnly.RunsOn .thread where
  threadIdx_nonneg := by decide
  threadIdx_lt _ h := by cases h
  blockIdx_nonneg := by decide
  blockIdx_lt _ h := by cases h
  blockDim_eq _ h := by cases h
  blockDim_pos _ := by decide

/-- A loop of two iterations with a guard and a remainder that the bounds of its variable decide. -/
def guardedStore : Function where
  name := "guarded_store"
  worker := .thread
  params := [⟨"out", .pointer (.ofDType .int32)⟩]
  body := .forRange (.int "i") (.int 2) none <|
    .ite (.lt (.var (.int "i")) (.int 4))
      (.store (.var ⟨"out", .pointer (.ofDType .int32)⟩) [.var (.int "i") % .int 8] (.var (.int "i"))) none

/-- Without the guard and the remainder the loop still stores its two numbers. -/
theorem guardedStore_exec_simplifyBounds :
    guardedStore.body.IsIntegral ∧ writeOnly.RunsOn guardedStore.worker ∧
      guardedStore.simplifyBounds.body.exec writeOnly false ⟨[("out", .address ("out", []))], []⟩ = some
        { state := ⟨[("out", .address ("out", []))], [(("out", [1]), .int 1), (("out", [0]), .int 0)]⟩
          events := [.store ("out", []) [0] (.int 0), .store ("out", []) [1] (.int 1)] } :=
  ⟨by decide, writeOnly_runsOn, (Function.exec_body_simplifyBounds (by decide) writeOnly_runsOn rfl).2⟩

/-- What a function returns that starts with nothing. -/
def Function.returned? (f : Function) : Option Value :=
  (f.body.exec writeOnly false ⟨[], []⟩).bind fun r =>
    match r.halt with
    | some (.returned (some (.scalar v))) => some v
    | _ => none

/-- Values that do not fit their types are not kept: a root at an integer type, a literal of a fraction at an integer
type, and a truth value under the name of an integer. -/
theorem returned?_simplifyBounds_ne :
    (let root : Function := { name := "root", worker := .thread, body := .ret (some (.call "sqrt" [.int 2])) }
     root.body.IsIntegral ∧ root.returned? = some (.float (FloatOps.sqrt (Binary64.ofInt64 2))) ∧
       root.simplifyBounds.returned? = some (.int 1)) ∧
    (let negated : Function := { name := "negated", worker := .thread, body := .ret (some (-.const (.float 2.5) .int32)) }
     negated.body.IsIntegral ∧ negated.returned? = some (.float (FloatOps.neg 2.5)) ∧
       negated.simplifyBounds.returned? = some (.int (-2))) ∧
    (let flag : Function :=
      { name := "flag"
        worker := .thread
        body := .letIn (.int "b") (.bool true) (.ret (some (.var (.int "b") + .int 0))) }
     flag.body.IsIntegral ∧ flag.returned? = some (.float (FloatOps.add 1.0 (Binary64.ofInt64 0))) ∧
       flag.simplifyBounds.returned? = some (.bool true)) := by
  have hcast (x : Float) : (Value.float x).cast .int32 = .int (Binary64.truncate x) := rfl
  have hroot : Binary64.truncate (FloatOps.sqrt (Binary64.ofInt64 2)) = 1 := by decide +kernel
  have hnegated : Binary64.truncate (FloatOps.neg 2.5) = -2 := by decide +kernel
  refine ⟨⟨by decide, rfl, ?_⟩, ⟨by decide, rfl, ?_⟩, by decide, rfl, ?_⟩
  · change some ((Value.float (FloatOps.sqrt (Binary64.ofInt64 2))).cast .int32) = _
    rw [hcast, hroot]
  · change some ((Value.float (FloatOps.neg 2.5)).cast .int32) = _
    rw [hcast, hnegated]
  · rfl

end TensorCompiler
