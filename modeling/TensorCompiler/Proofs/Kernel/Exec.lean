import TensorCompiler.Proofs.Kernel.Eval
import TensorCompiler.Proofs.Stmt.Traversal
import TensorCompiler.Stmt.Folding

/-! # What a statement does in a run

For each kind of statement, the runs of its parts that make up its run. From these: a strict run is a run, nested
sequences may be joined, and a run leaves what it does not assign.
-/

namespace TensorCompiler

variable {Address Memory : Type}

/-! ## One run after the other -/

namespace Run

variable {r r' : Run Address Memory} {f g : State Address Memory → Option (Run Address Memory)}

theorem andThen_eq_some_iff :
    r.andThen f = some r' ↔
      (r.halt ≠ none ∧ r' = r) ∨
        (r.halt = none ∧ ∃ t, f r.state = some t ∧ r' = { t with events := r.events ++ t.events }) := by
  unfold andThen
  cases r.halt with
  | some why => simp [eq_comm]
  | none =>
    simp only [Option.map_eq_some_iff, ne_eq, not_true_eq_false, false_and, true_and, false_or]
    exact exists_congr fun t => and_congr_right fun _ => eq_comm

theorem andThen_done : r.andThen (fun s => some { state := s }) = some r := by
  obtain ⟨state, events, halt⟩ := r
  cases halt <;> simp [andThen]

theorem andThen_assoc : (r.andThen f).bind (·.andThen g) = r.andThen fun s => (f s).bind (·.andThen g) := by
  obtain ⟨state, events, halt⟩ := r
  cases halt with
  | some why => simp [andThen]
  | none =>
    cases hf : f state with
    | none => simp [andThen, hf]
    | some t =>
      obtain ⟨state', events', halt'⟩ := t
      cases halt' with
      | some why => simp [andThen, hf]
      | none => simp [andThen, hf, Function.comp_def]

end Run

/-- A loop whose body may be replaced in the states that satisfy an invariant may be replaced. -/
theorem runLoop_mono (Inv : State Address Memory → Prop)
    {body : Int64 → State Address Memory → Option (Run Address Memory)}
    (body' : Int64 → State Address Memory → Option (Run Address Memory)) {is : List Int64} {s : State Address Memory}
    {r : Run Address Memory}
    (hstep : ∀ i ∈ is, ∀ s r, Inv s → body i s = some r → body' i s = some r ∧ Inv r.state)
    (hs : Inv s) (h : runLoop body is s = some r) : runLoop body' is s = some r ∧ Inv r.state := by
  induction is generalizing s r with
  | nil =>
    cases h
    exact ⟨rfl, hs⟩
  | cons i is ih =>
    obtain ⟨t, hbody, hrest⟩ := Option.bind_eq_some_iff.mp h
    obtain ⟨hbody', ht⟩ := hstep i List.mem_cons_self s t hs hbody
    have htail : ∀ i ∈ is, ∀ s r, Inv s → body i s = some r → body' i s = some r ∧ Inv r.state :=
      fun i hi => hstep i (List.mem_cons_of_mem _ hi)
    rcases Run.andThen_eq_some_iff.mp hrest with ⟨hhalt, rfl⟩ | ⟨hhalt, u, hu, rfl⟩
    · refine ⟨Option.bind_eq_some_iff.mpr ⟨r, hbody', ?_⟩, ht⟩
      exact Run.andThen_eq_some_iff.mpr (Or.inl ⟨hhalt, rfl⟩)
    · obtain ⟨hu', hInv⟩ := ih htail ht hu
      refine ⟨Option.bind_eq_some_iff.mpr ⟨t, hbody', ?_⟩, hInv⟩
      exact Run.andThen_eq_some_iff.mpr (Or.inr ⟨hhalt, u, hu', rfl⟩)

namespace Stmt

/-! ## Runs of statements -/

variable [FloatOps] {M : Machine Address Memory} {strict : Bool} {s : State Address Memory} {r : Run Address Memory}

theorem execAll_append (ss ts : List Stmt) (s : State Address Memory) :
    execAll M strict (ss ++ ts) s = (execAll M strict ss s).bind fun r => r.andThen (execAll M strict ts) := by
  induction ss generalizing s with
  | nil =>
    simp only [List.nil_append, execAll, Option.bind_some, Run.andThen]
    cases execAll M strict ts s <;> simp
  | cons first rest ih =>
    simp only [List.cons_append, execAll, Option.bind_assoc]
    congr 1
    funext r
    rw [Run.andThen_assoc]
    congr 1
    funext s
    exact ih s

theorem execAll_singleton (stmt : Stmt) (s : State Address Memory) :
    execAll M strict [stmt] s = stmt.exec M strict s := by
  simp only [execAll]
  cases stmt.exec M strict s with
  | none => rfl
  | some r => exact Run.andThen_done

theorem exec_block (stmts : List Stmt) (s : State Address Memory) :
    (block stmts).exec M strict s = execAll M strict stmts s := by
  unfold block
  split
  · exact (execAll_singleton _ s).symm
  · rw [exec]

theorem execAll_flattenAll {stmts : List Stmt}
    (h : ∀ stmt ∈ stmts, ∀ s, execAll M strict stmt.flatten s = stmt.exec M strict s) (s : State Address Memory) :
    execAll M strict (flattenAll stmts) s = execAll M strict stmts s := by
  induction stmts generalizing s with
  | nil => rfl
  | cons stmt stmts ih =>
    rw [flattenAll, execAll_append, h stmt List.mem_cons_self, execAll]
    congr 1
    funext r
    congr 1
    funext s
    exact ih (fun stmt hstmt => h stmt (List.mem_cons_of_mem _ hstmt)) s

/-- A statement runs as the statements that it consists of when nested sequences are opened. -/
theorem execAll_flatten (stmt : Stmt) (s : State Address Memory) :
    execAll M strict stmt.flatten s = stmt.exec M strict s := by
  induction stmt using Stmt.induct generalizing s with
  | node stmt ih =>
    cases stmt
    case seq stmts =>
      rw [flatten, exec]
      exact execAll_flattenAll ih s
    all_goals exact execAll_singleton _ s

theorem exec_assign_eq_some_iff {v : Var} {value : Expr} :
    (assign v value).exec M strict s = some r ↔
      ∃ δ vars, value.run M strict s.memory s.vars = some δ ∧ s.vars.set? v.name δ = some vars ∧
        r = { state := { s with vars }, events := [.assign v.name δ] } := by
  simp only [exec, Option.bind_eq_bind, Option.bind_eq_some_iff, Option.some.injEq, exists_and_left, eq_comm (b := r)]

theorem exec_store_eq_some_iff {buf value : Expr} {indices : List Expr} :
    (store buf indices value).exec M strict s = some r ↔
      ∃ a is v memory, buf.run M strict s.memory s.vars = some (.address a) ∧
        List.Forall₂ (fun e n => e.run M strict s.memory s.vars = some (.scalar (.int n))) indices is ∧
          value.run M strict s.memory s.vars = some (.scalar v) ∧ M.store s.memory (M.element a is) v = some memory ∧
            r = { state := { s with memory }, events := [.store a is v] } := by
  simp only [exec, Option.bind_eq_bind, Option.bind_eq_some_iff, Option.some.injEq, Datum.address?_eq_some_iff,
    Datum.scalar?_eq_some_iff, Expr.runIndices_eq_some_iff]
  constructor
  · rintro ⟨_, ha, a, rfl, is, his, _, hv, v, rfl, memory, hstore, rfl⟩
    exact ⟨a, is, v, memory, ha, his, hv, hstore, rfl⟩
  · rintro ⟨a, is, v, memory, ha, his, hv, hstore, rfl⟩
    exact ⟨_, ha, a, rfl, is, his, _, hv, v, rfl, memory, hstore, rfl⟩

theorem exec_letIn_eq_some_iff {v : Var} {value : Expr} {body : Stmt} :
    (letIn v value body).exec M strict s = some r ↔
      ∃ δ t, value.run M strict s.memory s.vars = some δ ∧ body.exec M strict (s.bind v.name δ) = some t ∧
        r = t.leave := by
  simp only [exec, Option.bind_eq_bind, Option.bind_eq_some_iff, Option.some.injEq, exists_and_left, eq_comm (b := r)]

/-- The run of a loop body for one value of the loop variable. -/
def execIteration (M : Machine Address Memory) (strict : Bool) (v : Var) (body : Stmt) (i : Int64)
    (s : State Address Memory) : Option (Run Address Memory) :=
  (body.exec M strict (s.bind v.name (.scalar (.int i)))).map Run.leave

theorem exec_forRange_eq_some_iff {v : Var} {extent : Expr} {unroll : Option Bool} {body : Stmt} :
    (forRange v extent unroll body).exec M strict s = some r ↔
      ∃ n, extent.run M strict s.memory s.vars = some (.scalar (.int n)) ∧
        runLoop (execIteration M strict v body) (iterations n) s = some r := by
  simp only [exec, Option.bind_eq_bind, Option.bind_eq_some_iff, Datum.int?_eq_some_iff]
  constructor
  · rintro ⟨_, hn, n, rfl, hloop⟩
    exact ⟨n, hn, hloop⟩
  · rintro ⟨n, hn, hloop⟩
    exact ⟨_, hn, n, rfl, hloop⟩

theorem exec_ite_eq_some_iff {cond : Expr} {thenS : Stmt} {elseS : Option Stmt} :
    (ite cond thenS elseS).exec M strict s = some r ↔
      ∃ c, cond.run M strict s.memory s.vars = some (.scalar c) ∧
        if c.truthy then thenS.exec M strict s = some r else (elseS.getD (seq [])).exec M strict s = some r := by
  cases elseS with
  | none =>
    simp only [exec, execAll, Option.bind_eq_bind, Option.bind_eq_some_iff, Datum.scalar?_eq_some_iff,
      Option.getD_none]
    constructor
    · rintro ⟨_, hc, c, rfl, h⟩
      exact ⟨c, hc, by cases ht : c.truthy <;> simpa [ht] using h⟩
    · rintro ⟨c, hc, h⟩
      exact ⟨_, hc, c, rfl, by cases ht : c.truthy <;> simpa [ht] using h⟩
  | some elseS =>
    simp only [exec, Option.bind_eq_bind, Option.bind_eq_some_iff, Datum.scalar?_eq_some_iff, Option.getD_some]
    constructor
    · rintro ⟨_, hc, c, rfl, h⟩
      exact ⟨c, hc, by cases ht : c.truthy <;> simpa [ht] using h⟩
    · rintro ⟨c, hc, h⟩
      exact ⟨_, hc, c, rfl, by cases ht : c.truthy <;> simpa [ht] using h⟩

theorem exec_assert_eq_some_iff {cond : Expr} {message : String} :
    (assert cond message).exec M strict s = some r ↔
      ∃ c, cond.run M strict s.memory s.vars = some (.scalar c) ∧
        r = { state := s, halt := if c.truthy then none else some (.failed message) } := by
  simp only [exec, Option.bind_eq_bind, Option.bind_eq_some_iff, Datum.scalar?_eq_some_iff, Option.some.injEq]
  constructor
  · rintro ⟨_, hc, c, rfl, rfl⟩
    exact ⟨c, hc, rfl⟩
  · rintro ⟨c, hc, rfl⟩
    exact ⟨_, hc, c, rfl, rfl⟩

theorem exec_ret_eq_some_iff {e : Expr} :
    (ret (some e)).exec M strict s = some r ↔
      ∃ δ, e.run M strict s.memory s.vars = some δ ∧ r = { state := s, halt := some (.returned (some δ)) } := by
  simp only [exec, Option.bind_eq_bind, Option.bind_eq_some_iff, Option.some.injEq, eq_comm (b := r)]

/-- An evaluation that is no call of a function of the module only evaluates. -/
theorem exec_eval_eq_some_iff {e : Expr} (he : ∀ func args, e = .call func args → Primitive.isPrimitive func) :
    (eval e).exec M strict s = some r ↔
      (∃ δ, e.run M strict s.memory s.vars = some δ) ∧ r = { state := s } := by
  have hrun : (eval e).exec M strict s = (e.run M strict s.memory s.vars).map fun _ => { state := s } := by
    rw [exec]
    cases e
    case call func args => rw [execEval, if_pos (he func args rfl)]
    all_goals rfl
  rw [hrun, Option.map_eq_some_iff]
  constructor
  · rintro ⟨δ, hδ, rfl⟩
    exact ⟨⟨δ, hδ⟩, rfl⟩
  · rintro ⟨⟨δ, hδ⟩, rfl⟩
    exact ⟨δ, hδ, rfl⟩

theorem exec_eval_call_eq_some_iff {func : String} {args : List Expr} (hfunc : Primitive.isPrimitive func = false) :
    (eval (.call func args)).exec M strict s = some r ↔
      ∃ δs memory, List.Forall₂ (fun e δ => e.run M strict s.memory s.vars = some δ) args δs ∧
        M.invoke func δs s.memory = some memory ∧
          r = { state := { s with memory }, events := [.call func δs] } := by
  rw [exec, execEval, hfunc]
  simp only [Bool.false_eq_true, if_false, Option.bind_eq_bind, Option.bind_eq_some_iff, Option.some.injEq,
    Expr.runAll_eq_some_iff, exists_and_left, eq_comm (b := r)]

/-! ## Strict runs -/

/-- Statements that may be replaced one by one in the states that satisfy an invariant may be replaced. -/
theorem execAll_mono (Inv : State Address Memory → Prop) {stmts stmts' : List Stmt} {strict' : Bool}
    {s : State Address Memory} {r : Run Address Memory}
    (h : List.Forall₂ (fun stmt stmt' => ∀ s r, Inv s → stmt.exec M strict s = some r →
      stmt'.exec M strict' s = some r ∧ Inv r.state) stmts stmts')
    (hs : Inv s) (hexec : execAll M strict stmts s = some r) :
    execAll M strict' stmts' s = some r ∧ Inv r.state := by
  induction h generalizing s r with
  | nil =>
    cases hexec
    exact ⟨rfl, hs⟩
  | @cons stmt stmt' stmts stmts' hstmt _ ih =>
    obtain ⟨t, ht, hrest⟩ := Option.bind_eq_some_iff.mp hexec
    obtain ⟨ht', hInv⟩ := hstmt s t hs ht
    rcases Run.andThen_eq_some_iff.mp hrest with ⟨hhalt, rfl⟩ | ⟨hhalt, u, hu, rfl⟩
    · refine ⟨Option.bind_eq_some_iff.mpr ⟨r, ht', ?_⟩, hInv⟩
      exact Run.andThen_eq_some_iff.mpr (Or.inl ⟨hhalt, rfl⟩)
    · obtain ⟨hu', hInv'⟩ := ih hInv hu
      refine ⟨Option.bind_eq_some_iff.mpr ⟨t, ht', ?_⟩, hInv'⟩
      exact Run.andThen_eq_some_iff.mpr (Or.inr ⟨hhalt, u, hu', rfl⟩)

/-- A strict run is a run. -/
theorem exec_of_strict {stmt : Stmt} (h : stmt.exec M true s = some r) : stmt.exec M false s = some r := by
  induction stmt using Stmt.induct generalizing s r with
  | node stmt ih =>
    cases stmt with
    | eval e =>
      by_cases hcall : ∀ func args, e = .call func args → Primitive.isPrimitive func
      · obtain ⟨⟨δ, hδ⟩, rfl⟩ := (exec_eval_eq_some_iff hcall).mp h
        exact (exec_eval_eq_some_iff hcall).mpr ⟨⟨δ, Expr.run_of_strict hδ⟩, rfl⟩
      · obtain ⟨func, args, rfl, hfunc⟩ : ∃ func args, e = .call func args ∧ Primitive.isPrimitive func = false := by
          simpa using hcall
        obtain ⟨δs, memory, hδs, hinvoke, rfl⟩ := (exec_eval_call_eq_some_iff hfunc).mp h
        refine (exec_eval_call_eq_some_iff hfunc).mpr ⟨δs, memory, ?_, hinvoke, rfl⟩
        exact hδs.imp fun _ _ => Expr.run_of_strict
    | assign v value =>
      obtain ⟨δ, vars, hδ, hset, rfl⟩ := exec_assign_eq_some_iff.mp h
      exact exec_assign_eq_some_iff.mpr ⟨δ, vars, Expr.run_of_strict hδ, hset, rfl⟩
    | store buf indices value =>
      obtain ⟨a, is, v, memory, ha, his, hv, hstore, rfl⟩ := exec_store_eq_some_iff.mp h
      exact exec_store_eq_some_iff.mpr ⟨a, is, v, memory, Expr.run_of_strict ha,
        his.imp fun _ _ => Expr.run_of_strict, Expr.run_of_strict hv, hstore, rfl⟩
    | letIn v value body =>
      obtain ⟨δ, t, hδ, hbody, rfl⟩ := exec_letIn_eq_some_iff.mp h
      exact exec_letIn_eq_some_iff.mpr
        ⟨δ, t, Expr.run_of_strict hδ, ih body (by simp [children]) hbody, rfl⟩
    | forRange v extent unroll body =>
      obtain ⟨n, hn, hloop⟩ := exec_forRange_eq_some_iff.mp h
      refine exec_forRange_eq_some_iff.mpr ⟨n, Expr.run_of_strict hn, ?_⟩
      refine (runLoop_mono (fun _ => True) _ ?_ trivial hloop).1
      intro i _ s r _ hiter
      obtain ⟨t, ht, rfl⟩ := Option.map_eq_some_iff.mp hiter
      exact ⟨Option.map_eq_some_iff.mpr ⟨t, ih body (by simp [children]) ht, rfl⟩, trivial⟩
    | ite cond thenS elseS =>
      obtain ⟨c, hc, hbranch⟩ := exec_ite_eq_some_iff.mp h
      refine exec_ite_eq_some_iff.mpr ⟨c, Expr.run_of_strict hc, ?_⟩
      split_ifs at hbranch ⊢
      · exact ih thenS (by simp [children]) hbranch
      · cases elseS with
        | none => exact hbranch
        | some elseS => exact ih elseS (by simp [children]) hbranch
    | assert cond message =>
      obtain ⟨c, hc, rfl⟩ := exec_assert_eq_some_iff.mp h
      exact exec_assert_eq_some_iff.mpr ⟨c, Expr.run_of_strict hc, rfl⟩
    | ret value =>
      cases value with
      | none => exact h
      | some e =>
        obtain ⟨δ, hδ, rfl⟩ := exec_ret_eq_some_iff.mp h
        exact exec_ret_eq_some_iff.mpr ⟨δ, Expr.run_of_strict hδ, rfl⟩
    | seq stmts =>
      rw [exec] at h ⊢
      have hall : List.Forall₂ (fun stmt stmt' => ∀ s r, True → stmt.exec M true s = some r →
          stmt'.exec M false s = some r ∧ True) stmts stmts :=
        List.forall₂_same.mpr fun stmt hstmt s r _ hexec => ⟨ih stmt hstmt hexec, trivial⟩
      exact (execAll_mono (fun _ => True) hall trivial h).1
    | asm | raw => cases h

end Stmt

end TensorCompiler
