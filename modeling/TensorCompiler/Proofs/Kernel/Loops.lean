import TensorCompiler.Proofs.Expr.Points
import TensorCompiler.Proofs.Kernel.Frame
import TensorCompiler.Proofs.Stmt.Builder

/-! # Runs of loops

Most of what a kernel does only assigns local variables: such a run goes to its end and changes nothing but what these
variables hold. Loops over several axes run their body at the points of the grid in row-major order, so what a variable
collects there is a fold over the points.
-/

namespace TensorCompiler

variable {Address Memory : Type}

/-! ## Runs that only assign -/

/-- The buffer, the indices and the value of a store. -/
def Event.store? : Event Address → Option (Address × List Int64 × Value)
  | store buffer indices v => some (buffer, indices, v)
  | _ => none

namespace Run

variable {names names' : List String} {s : State Address Memory} {r t : Run Address Memory}

/-- The stores of a run, in their order. -/
def stores (r : Run Address Memory) : List (Address × List Int64 × Value) :=
  r.events.filterMap Event.store?

/-- A run with what happened before it in front. -/
def followedBy (r t : Run Address Memory) : Run Address Memory :=
  { t with events := r.events ++ t.events }

theorem stores_followedBy (r t : Run Address Memory) : (r.followedBy t).stores = r.stores ++ t.stores :=
  List.filterMap_append

theorem andThen_eq_followedBy {next : State Address Memory → Option (Run Address Memory)} (hr : r.halt = none)
    (ht : next r.state = some t) : r.andThen next = some (r.followedBy t) :=
  andThen_eq_some_iff.mpr (Or.inr ⟨hr, t, ht, rfl⟩)

/-- Whether a run goes to its end and leaves everything as it is but what variables of the given names hold. -/
structure Assigns (names : List String) (s : State Address Memory) (r : Run Address Memory) : Prop where
  halt : r.halt = none
  memory : r.state.memory = s.memory
  vars : Vars.SameExcept names s.vars r.state.vars
  stores : r.stores = []

namespace Assigns

theorem done (names : List String) (s : State Address Memory) : Assigns names s { state := s } :=
  ⟨rfl, rfl, Vars.SameExcept.refl _ _, rfl⟩

theorem mono (h : Assigns names s r) (hsub : ∀ x ∈ names, x ∈ names') : Assigns names' s r :=
  ⟨h.halt, h.memory, h.vars.mono hsub, h.stores⟩

theorem followedBy (h : Assigns names s r) (ht : Assigns names r.state t) : Assigns names s (r.followedBy t) where
  halt := ht.halt
  memory := ht.memory.trans h.memory
  vars := h.vars.trans ht.vars
  stores := by rw [stores_followedBy, h.stores, ht.stores, List.append_nil]

theorem leave {name : String} {δ : Datum Address} (h : Assigns names (s.bind name δ) r) : Assigns names s r.leave :=
  ⟨h.halt, h.memory, h.vars.tail, h.stores⟩

end Assigns

end Run

namespace Vars

theorem lookup_cons_of_ne {x name : String} (h : x ≠ name) (δ : Datum Address) (vars : Vars Address) :
    List.lookup name ((x, δ) :: vars) = vars.lookup name := by
  rw [List.lookup_cons, beq_false_of_ne h.symm]

/-- A variable that is there can be assigned. -/
theorem exists_set? {vars : Vars Address} {name : String} (h : name ∈ vars.map Prod.fst) (δ : Datum Address) :
    ∃ new, vars.set? name δ = some new ∧ new.lookup name = some δ := by
  induction vars with
  | nil => cases h
  | cons entry vars ih =>
    obtain ⟨x, held⟩ := entry
    by_cases hx : x = name
    · subst hx
      exact ⟨_, if_pos rfl, List.lookup_cons_self⟩
    · obtain ⟨new, hnew, hlookup⟩ := ih ((List.mem_cons.mp h).resolve_left (Ne.symm hx))
      refine ⟨(x, held) :: new, ?_, ?_⟩
      · rw [set?, if_neg hx, hnew]
        rfl
      · rw [lookup_cons_of_ne hx]
        exact hlookup

theorem SameExcept.map_fst {names : List String} {old new : Vars Address} (h : SameExcept names old new) :
    new.map Prod.fst = old.map Prod.fst :=
  map_eq_of_forall₂ h fun _ _ hentry => hentry.1

theorem SameExcept.cons {names : List String} {old new : Vars Address} (h : SameExcept names old new)
    (entry : String × Datum Address) : SameExcept names (entry :: old) (entry :: new) :=
  List.Forall₂.cons ⟨rfl, fun _ => rfl⟩ h

/-- Outside of the scope of its innermost variable a run has left the others as inside of it. -/
theorem SameExcept.lookup_tail {names : List String} {old new : Vars Address} {x name : String} {δ : Datum Address}
    (h : SameExcept names ((x, δ) :: old) new) (hne : x ≠ name) : new.tail.lookup name = new.lookup name := by
  obtain ⟨entry, rest, hentry, -, rfl⟩ := List.forall₂_cons_left_iff.mp h
  obtain ⟨y, held⟩ := entry
  obtain rfl : y = x := hentry.1
  exact (lookup_cons_of_ne hne held rest).symm

/-- The variables with the axes bound to coordinates, the last axis innermost. -/
def bindAll (vars : Vars Address) : List Var → List Int64 → Vars Address
  | v :: vs, n :: ns => bindAll ((v.name, .scalar (.int n)) :: vars) vs ns
  | _, _ => vars

theorem mem_map_fst_bindAll {vars : Vars Address} {x : String} (h : x ∈ vars.map Prod.fst) (axes : List Var)
    (point : List Int64) : x ∈ (vars.bindAll axes point).map Prod.fst := by
  induction axes generalizing vars point with
  | nil => exact h
  | cons v axes ih =>
    cases point with
    | nil => exact h
    | cons n point =>
      rw [bindAll]
      refine ih ?_ point
      rw [List.map_cons]
      exact List.mem_cons_of_mem _ h

end Vars

/-- The state inside the scopes of axes. -/
def State.bindAll (s : State Address Memory) (axes : List Var) (point : List Int64) : State Address Memory :=
  { s with vars := s.vars.bindAll axes point }

/-! ## Loops -/

/-- What each iteration keeps and adds, a loop keeps and adds up. -/
theorem exists_runLoop {σ : Type} {P : σ → State Address Memory → Prop} {step : σ → Int64 → σ}
    {body : Int64 → State Address Memory → Option (Run Address Memory)} {names : List String} {is : List Int64}
    (hbody : ∀ i ∈ is, ∀ a s, P a s → ∃ r, body i s = some r ∧ r.Assigns names s ∧ P (step a i) r.state)
    {a : σ} {s : State Address Memory} (h : P a s) :
    ∃ r, runLoop body is s = some r ∧ r.Assigns names s ∧ P (is.foldl step a) r.state := by
  induction is generalizing a s with
  | nil => exact ⟨_, rfl, .done names s, h⟩
  | cons i is ih =>
    obtain ⟨r, hr, hassigns, hP⟩ := hbody i List.mem_cons_self a s h
    obtain ⟨t, ht, hassigns', hP'⟩ := ih (fun i hi => hbody i (List.mem_cons_of_mem _ hi)) hP
    refine ⟨r.followedBy t, ?_, hassigns.followedBy hassigns', hP'⟩
    rw [runLoop, hr]
    exact Run.andThen_eq_followedBy hassigns.halt ht

/-- Whether a state is another one but for some variables, one of which holds an integer. -/
structure State.Collects (s t : State Address Memory) (names : List String) (name : String) (n : Int64) : Prop where
  memory : t.memory = s.memory
  vars : Vars.SameExcept names s.vars t.vars
  held : t.vars.lookup name = some (.scalar (.int n))

theorem State.Collects.assigns {s t : State Address Memory} {r : Run Address Memory} {names : List String} {name : String}
    {m n : Int64} (h : s.Collects t names name m) (hr : r.Assigns names t)
    (hheld : r.state.vars.lookup name = some (.scalar (.int n))) : s.Collects r.state names name n :=
  ⟨hr.memory.trans h.memory, h.vars.trans hr.vars, hheld⟩

theorem cons_mem_grid {extent i : Int64} {extents point : List Int64} (hi : i ∈ iterations extent)
    (hpoint : point ∈ grid extents) : i :: point ∈ grid (extent :: extents) := by
  obtain ⟨n, hn, rfl⟩ := List.mem_map.mp hi
  exact List.mem_flatMap.mpr ⟨n, hn, List.mem_map_of_mem hpoint⟩

/-- A fold over a grid goes through the first coordinates, and for each of them through the others. -/
theorem foldl_grid_cons {σ : Type} (step : σ → List Int64 → σ) (extent : Int64) (extents : List Int64) (a : σ) :
    (grid (extent :: extents)).foldl step a =
      (iterations extent).foldl (fun a i => (grid extents).foldl (fun a point => step a (i :: point)) a) a := by
  rw [grid, iterations, List.foldl_flatMap, List.foldl_map]
  simp only [List.foldl_map]

namespace Stmt

variable [FloatOps] {M : Machine Address Memory} {strict : Bool} {s t : State Address Memory} {r : Run Address Memory}

theorem execAll_cons {stmt : Stmt} {stmts : List Stmt} {u : Run Address Memory} (hr : stmt.exec M strict s = some r)
    (hhalt : r.halt = none) (hu : execAll M strict stmts r.state = some u) :
    execAll M strict (stmt :: stmts) s = some (r.followedBy u) := by
  rw [execAll, hr]
  exact Run.andThen_eq_followedBy hhalt hu

/-- An assignment to a variable that is there. -/
theorem exists_exec_assign {v : Var} {value : Expr} {δ : Datum Address}
    (hvalue : value.run M strict s.memory s.vars = some δ) (hv : v.name ∈ s.vars.map Prod.fst) :
    ∃ r, (assign v value).exec M strict s = some r ∧ r.Assigns [v.name] s ∧ r.state.vars.lookup v.name = some δ := by
  obtain ⟨vars, hset, hlookup⟩ := Vars.exists_set? hv δ
  exact ⟨_, exec_assign_eq_some_iff.mpr ⟨δ, vars, hvalue, hset, rfl⟩, ⟨rfl, rfl, Vars.sameExcept_set? hset, rfl⟩, hlookup⟩

/-- Loops run their body at each point of the grid, and a variable collects what the body makes of it there. -/
theorem exists_exec_loops {axes : List Var} {shape : List Expr} {extents : List Int64} {body : Stmt}
    {names : List String} {name : String} {step : Int64 → List Int64 → Int64} {a : Int64}
    (hlength : axes.length = shape.length)
    (hshape : List.Forall₂ (fun e n => ∀ memory vars, e.run M strict memory vars = some (.scalar (.int n))) shape extents)
    (haxes : ∀ v ∈ axes, v.name ≠ name)
    (hbody : ∀ point ∈ grid extents, ∀ a t, (s.bindAll axes point).Collects t names name a →
      ∃ r, body.exec M strict t = some r ∧ r.Assigns names t ∧
        r.state.vars.lookup name = some (.scalar (.int (step a point))))
    (ht : s.Collects t names name a) :
    ∃ r, (loops axes shape body).exec M strict t = some r ∧ r.Assigns names t ∧
      s.Collects r.state names name ((grid extents).foldl step a) := by
  induction axes generalizing s t shape extents step a with
  | nil =>
    obtain rfl := List.length_eq_zero_iff.mp hlength.symm
    obtain rfl := List.forall₂_nil_left_iff.mp hshape
    obtain ⟨r, hr, hassigns, hheld⟩ := hbody [] (List.mem_singleton_self _) a t ht
    exact ⟨r, hr, hassigns, ht.assigns hassigns hheld⟩
  | cons v axes ih =>
    obtain ⟨e, shape, rfl⟩ := List.exists_cons_of_length_eq_add_one hlength.symm
    obtain ⟨extent, extents, hextent, hrest, rfl⟩ := List.forall₂_cons_left_iff.mp hshape
    have hv : v.name ≠ name := haxes v List.mem_cons_self
    -- one iteration: the inner loops inside the scope of the outermost axis
    have hiteration : ∀ i ∈ iterations extent, ∀ a t, s.Collects t names name a →
        ∃ r, execIteration M strict v (loops axes shape body) i t = some r ∧ r.Assigns names t ∧
          s.Collects r.state names name ((grid extents).foldl (fun a point => step a (i :: point)) a) := by
      intro i hi a t ht
      have hbound : (s.bind v.name (.scalar (.int i))).Collects (t.bind v.name (.scalar (.int i))) names name a :=
        ⟨ht.memory, ht.vars.cons _, (Vars.lookup_cons_of_ne hv _ _).trans ht.held⟩
      obtain ⟨r, hr, hassigns, hcollects⟩ := ih (Nat.succ.inj hlength) hrest
        (fun v hv => haxes v (List.mem_cons_of_mem _ hv))
        (fun point hpoint => hbody (i :: point) (cons_mem_grid hi hpoint)) hbound
      refine ⟨r.leave, Option.map_eq_some_iff.mpr ⟨r, hr, rfl⟩, hassigns.leave, hcollects.memory, hcollects.vars.tail, ?_⟩
      exact (hcollects.vars.lookup_tail hv).trans hcollects.held
    obtain ⟨r, hr, hassigns, hcollects⟩ := exists_runLoop hiteration ht
    refine ⟨r, ?_, hassigns, ?_⟩
    · exact exec_forRange_eq_some_iff.mpr ⟨extent, hextent _ _, hr⟩
    · rw [foldl_grid_cons]
      exact hcollects

/-- Statements in a nest of loops run as their block does. -/
theorem execAll_nest_append (axes : List Var) (shape : List Expr) (stmts stmts' : List Stmt) :
    execAll M strict (nest axes shape stmts ++ stmts') s =
      execAll M strict (loops axes shape (.block stmts) :: stmts') s := by
  simp only [nest, loops]
  cases axes.zip shape with
  | nil =>
    change execAll M strict (stmts ++ stmts') s = execAll M strict (.block stmts :: stmts') s
    rw [execAll_append, execAll, exec_block]
  | cons entry entries => rfl

/-! ## Bindings -/

/-- Bindings of values that depend on one variable only, which none of them hides. -/
theorem exists_exec_lets {vs : List Var} {values : List Expr} {ns : List Int64} {name : String} {body : Stmt}
    (hvs : ∀ v ∈ vs, v.name ≠ name) (hlength : vs.length = values.length)
    (hvalues : ∀ vars : Vars Address, vars.lookup name = s.vars.lookup name →
      List.Forall₂ (fun e n => e.run M strict s.memory vars = some (.scalar (.int n))) values ns)
    (hbody : body.exec M strict (s.bindAll vs ns) = some r) :
    ∃ t, (lets vs values body).exec M strict s = some t ∧ t.events = r.events ∧ t.halt = r.halt ∧
      t.state.memory = r.state.memory := by
  induction vs generalizing s values ns with
  | nil =>
    exact ⟨r, hbody, rfl, rfl, rfl⟩
  | cons v vs ih =>
    obtain ⟨value, values, rfl⟩ := List.exists_cons_of_length_eq_add_one hlength.symm
    have hv : v.name ≠ name := hvs v List.mem_cons_self
    cases hvalues s.vars rfl with
    | @cons _ n _ ns hn _ =>
      have hkept (vars : Vars Address) (h : vars.lookup name = (s.bind v.name (.scalar (.int n))).vars.lookup name) :
          vars.lookup name = s.vars.lookup name := by
        rw [h]
        exact Vars.lookup_cons_of_ne hv _ _
      obtain ⟨t, ht, hevents, hhalt, hmemory⟩ := ih (s := s.bind v.name (.scalar (.int n)))
        (fun v hv => hvs v (List.mem_cons_of_mem _ hv)) (Nat.succ.inj hlength)
        (fun vars h => (List.forall₂_cons.mp (hvalues vars (hkept vars h))).2) hbody
      exact ⟨t.leave, exec_letIn_eq_some_iff.mpr ⟨_, t, hn, ht, rfl⟩, hevents, hhalt, hmemory⟩

end Stmt

end TensorCompiler
