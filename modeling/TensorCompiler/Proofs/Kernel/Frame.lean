import TensorCompiler.Proofs.Kernel.Exec

/-! # What a run leaves as it is

A run changes only what the variables hold that it assigns; which variables there are, and in which order, it
leaves. A variable of an enclosing scope is hidden by an inner one of its name, so this is said place by place.
-/

namespace TensorCompiler

variable {Address Memory : Type}

namespace Vars

variable {names names' : List String} {old new newer : Vars Address} {name : String} {δ : Datum Address}

/-- Whether two lists of variables are the same up to what the given names hold. -/
def SameExcept (names : List String) (old new : Vars Address) : Prop :=
  List.Forall₂ (fun o n => n.1 = o.1 ∧ (o.1 ∉ names → n = o)) old new

theorem SameExcept.refl (names : List String) (vars : Vars Address) : SameExcept names vars vars :=
  List.forall₂_same.mpr fun _ _ => ⟨rfl, fun _ => rfl⟩

theorem SameExcept.mono (hsub : ∀ x ∈ names, x ∈ names') (h : SameExcept names old new) :
    SameExcept names' old new :=
  h.imp fun _ _ hentry => ⟨hentry.1, fun hnot => hentry.2 fun hmem => hnot (hsub _ hmem)⟩

theorem SameExcept.trans (h : SameExcept names old new) (h' : SameExcept names new newer) :
    SameExcept names old newer := by
  induction h generalizing newer with
  | nil => exact h'
  | cons hentry _ ih =>
    cases h' with
    | cons hentry' hrest =>
      refine List.Forall₂.cons ⟨hentry'.1.trans hentry.1, fun hnot => ?_⟩ (ih hrest)
      have heq := hentry.2 hnot
      rw [hentry'.2 (heq ▸ hnot), heq]

theorem SameExcept.lookup_eq (h : SameExcept names old new) (hname : name ∉ names) :
    new.lookup name = old.lookup name := by
  induction h with
  | nil => rfl
  | @cons o n old new hentry _ ih =>
    rw [List.lookup_cons, List.lookup_cons, hentry.1, ih]
    cases hx : name == o.1 with
    | false => rfl
    | true =>
      obtain rfl := eq_of_beq hx
      rw [hentry.2 hname]

theorem SameExcept.tail {x : String × Datum Address} (h : SameExcept names (x :: old) new) :
    SameExcept names old new.tail := by
  cases h with
  | cons _ hrest => exact hrest

/-- Assigning changes what one variable of the name holds. -/
theorem sameExcept_set? (h : old.set? name δ = some new) : SameExcept [name] old new := by
  induction old generalizing new with
  | nil => cases h
  | cons entry old ih =>
    obtain ⟨x, held⟩ := entry
    rw [set?] at h
    split at h
    · rename_i hx
      cases h
      exact List.Forall₂.cons ⟨rfl, fun hnot => absurd (List.mem_singleton.mpr hx) hnot⟩ (SameExcept.refl _ _)
    · obtain ⟨rest, hrest, rfl⟩ := Option.map_eq_some_iff.mp h
      exact List.Forall₂.cons ⟨rfl, fun _ => rfl⟩ (ih hrest)

end Vars

namespace Stmt

/-- The name that a statement assigns itself. -/
def target? : Stmt → Option String
  | assign v _ => some v.name
  | _ => none

/-- The names that a statement or a part of it assigns. -/
def assigned (stmt : Stmt) : List String :=
  stmt.preorder.filterMap target?

theorem assigned_of_child {c stmt : Stmt} {x : String} (hc : c ∈ stmt.children) (hx : x ∈ c.assigned) :
    x ∈ stmt.assigned := by
  obtain ⟨t, ht, hname⟩ := List.mem_filterMap.mp hx
  exact List.mem_filterMap.mpr ⟨t, mem_preorder_of_child hc ht, hname⟩

variable [FloatOps] {M : Machine Address Memory} {strict : Bool} {s : State Address Memory} {r : Run Address Memory}

/-- A run leaves what it does not assign. -/
theorem sameExcept_exec {stmt : Stmt} (h : stmt.exec M strict s = some r) :
    Vars.SameExcept stmt.assigned s.vars r.state.vars := by
  induction stmt using Stmt.induct generalizing s r with
  | node stmt ih =>
    have hchild {c : Stmt} (hc : c ∈ stmt.children) {s : State Address Memory} {r : Run Address Memory}
        (h : c.exec M strict s = some r) : Vars.SameExcept stmt.assigned s.vars r.state.vars :=
      (ih c hc h).mono fun _ hx => assigned_of_child hc hx
    cases stmt with
    | eval e =>
      by_cases hcall : ∀ func args, e = .call func args → Primitive.isPrimitive func
      · obtain ⟨-, rfl⟩ := (exec_eval_eq_some_iff hcall).mp h
        exact Vars.SameExcept.refl _ _
      · obtain ⟨func, args, rfl, hfunc⟩ : ∃ func args, e = .call func args ∧ Primitive.isPrimitive func = false := by
          simpa using hcall
        obtain ⟨δs, memory, -, -, rfl⟩ := (exec_eval_call_eq_some_iff hfunc).mp h
        exact Vars.SameExcept.refl _ _
    | assign v value =>
      obtain ⟨δ, vars, -, hset, rfl⟩ := exec_assign_eq_some_iff.mp h
      exact (Vars.sameExcept_set? hset).mono fun x hx => List.mem_filterMap.mpr
        ⟨assign v value, mem_preorder_self _, by rw [List.mem_singleton.mp hx]; rfl⟩
    | store buf indices value =>
      obtain ⟨a, is, v, memory, -, -, -, -, rfl⟩ := exec_store_eq_some_iff.mp h
      exact Vars.SameExcept.refl _ _
    | letIn v value body =>
      obtain ⟨δ, t, -, hbody, rfl⟩ := exec_letIn_eq_some_iff.mp h
      exact (hchild (by simp [children]) hbody).tail
    | forRange v extent unroll body =>
      obtain ⟨n, -, hloop⟩ := exec_forRange_eq_some_iff.mp h
      refine (runLoop_mono (fun t => Vars.SameExcept _ s.vars t.vars) (execIteration M strict v body) ?_
        (Vars.SameExcept.refl _ _) hloop).2
      intro i _ t r ht hiter
      obtain ⟨u, hu, rfl⟩ := Option.map_eq_some_iff.mp hiter
      exact ⟨hiter, ht.trans (hchild (by simp [children]) hu).tail⟩
    | ite cond thenS elseS =>
      obtain ⟨c, -, hbranch⟩ := exec_ite_eq_some_iff.mp h
      split_ifs at hbranch
      · exact hchild (by simp [children]) hbranch
      · cases elseS with
        | none =>
          cases hbranch
          exact Vars.SameExcept.refl _ _
        | some elseS => exact hchild (by simp [children]) hbranch
    | assert cond message =>
      obtain ⟨c, -, rfl⟩ := exec_assert_eq_some_iff.mp h
      exact Vars.SameExcept.refl _ _
    | ret value =>
      cases value with
      | none =>
        cases h
        exact Vars.SameExcept.refl _ _
      | some e =>
        obtain ⟨δ, -, rfl⟩ := exec_ret_eq_some_iff.mp h
        exact Vars.SameExcept.refl _ _
    | seq stmts =>
      rw [exec] at h
      have hall : List.Forall₂ (fun stmt stmt' => ∀ t r, Vars.SameExcept (seq stmts).assigned s.vars t.vars →
          stmt.exec M strict t = some r →
            stmt'.exec M strict t = some r ∧ Vars.SameExcept (seq stmts).assigned s.vars r.state.vars) stmts stmts :=
        List.forall₂_same.mpr fun stmt hstmt t r ht hexec => ⟨hexec, ht.trans (hchild hstmt hexec)⟩
      exact (execAll_mono (fun t => Vars.SameExcept _ s.vars t.vars) hall (Vars.SameExcept.refl _ _) h).2
    | asm | raw => cases h

end Stmt

end TensorCompiler
