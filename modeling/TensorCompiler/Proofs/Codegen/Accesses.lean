import TensorCompiler.Proofs.Codegen.KernelNames

/-! # Accesses to parameters

Code refers to the inputs of a definition through parameters. Lowering turns each read of an input into a use of the
parameter that stands for it, and moves those of a reduction in front of the value that it was in. The uses are listed in
the order of the code, by the positions of the parameters; in a value whose variables keep apart from the parameters they
are the reads of the definition, each at the position of the input.
-/

namespace TensorCompiler

/-! ## Nodes that are no accesses -/

namespace Expr

/-- The variables that a node names: the one that it reads, or those that it binds. -/
def ownVars : Expr → List Var
  | var v | letIn v _ _ => [v]
  | compute _ _ axes _ | reduce _ _ axes _ => axes
  | _ => []

/-- Whether a node is none of a task and names no variable by one of the given names. -/
structure IsApart (names : List String) (node : Expr) : Prop where
  nodeName?_eq : node.nodeName? = none
  own : ∀ v ∈ node.ownVars, v.name ∉ names

/-- Whether this holds of all nodes of an expression. -/
def Avoids (names : List String) (e : Expr) : Prop :=
  ∀ node ∈ e.preorder, node.IsApart names

variable {names : List String} {e : Expr}

theorem avoids_iff : e.Avoids names ↔ e.IsApart names ∧ ∀ c ∈ e.children, c.Avoids names := by
  rw [Avoids, preorder_eq, List.forall_mem_cons, List.forall_mem_flatMap]
  rfl

theorem avoids_const (value : Value) (d : DType) : (const value d).Avoids names :=
  avoids_iff.mpr ⟨⟨rfl, List.forall_mem_nil _⟩, List.forall_mem_nil _⟩

theorem avoids_var {v : Var} (h : v.name ∉ names) : (var v).Avoids names :=
  avoids_iff.mpr ⟨⟨rfl, List.forall_mem_singleton.mpr h⟩, List.forall_mem_nil _⟩

theorem avoids_call (func : String) {args : List Expr} (h : ∀ arg ∈ args, arg.Avoids names) :
    (call func args).Avoids names :=
  avoids_iff.mpr ⟨⟨rfl, List.forall_mem_nil _⟩, h⟩

theorem Avoids.binary {lhs rhs : Expr} (hl : lhs.Avoids names) (hr : rhs.Avoids names) (op : BinaryOp) :
    (binary op lhs rhs).Avoids names :=
  avoids_iff.mpr ⟨⟨rfl, List.forall_mem_nil _⟩, List.forall_mem_cons.mpr ⟨hl, List.forall_mem_singleton.mpr hr⟩⟩

theorem closedUnderArithmetic_avoids : ClosedUnderArithmetic (Avoids names) where
  int n := avoids_const (.int n) .int32
  binary _ hl hr := hl.binary hr _

end Expr

/-! ## Accesses of code -/

/-- `Accesses params nodes positions`: those of the nodes that use the variables `params` use the ones at the `positions`,
one after the other, and the rest keep apart from them. -/
inductive Accesses (params : List Var) : List Expr → List Nat → Prop
  | nil : Accesses params [] []
  | param {i : Nat} {v : Var} {nodes : List Expr} {positions : List Nat} (hv : params[i]? = some v)
      (hrest : Accesses params nodes positions) : Accesses params (.var v :: nodes) (i :: positions)
  | apart {node : Expr} {nodes : List Expr} {positions : List Nat} (hnode : node.IsApart (params.map Var.name))
      (hrest : Accesses params nodes positions) : Accesses params (node :: nodes) positions

namespace Accesses

variable {params : List Var} {nodes nodes' : List Expr} {positions positions' : List Nat}

theorem append (h : Accesses params nodes positions) (h' : Accesses params nodes' positions') :
    Accesses params (nodes ++ nodes') (positions ++ positions') := by
  induction h with
  | nil => exact h'
  | param hv _ ih => exact .param hv ih
  | apart hnode _ ih => exact .apart hnode ih

theorem of_isApart (h : ∀ node ∈ nodes, node.IsApart (params.map Var.name)) : Accesses params nodes [] := by
  induction nodes with
  | nil => exact .nil
  | cons node nodes ih =>
    obtain ⟨hnode, hnodes⟩ := List.forall_mem_cons.mp h
    exact .apart hnode (ih hnodes)

/-- Expressions that avoid the names of the parameters access none. -/
theorem of_avoids {es : List Expr} (h : ∀ e ∈ es, e.Avoids (params.map Var.name)) :
    Accesses params (es.flatMap Expr.preorder) [] :=
  of_isApart (List.forall_mem_flatMap.mpr h)

/-- A node that keeps apart leaves the accesses of its parts. -/
theorem of_children {e : Expr} (he : e.IsApart (params.map Var.name))
    (h : Accesses params (e.children.flatMap Expr.preorder) positions) : Accesses params e.preorder positions := by
  rw [Expr.preorder_eq]
  exact .apart he h

theorem var {i : Nat} {v : Var} (hv : params[i]? = some v) : Accesses params (Expr.var v).preorder [i] := by
  rw [Expr.preorder_eq]
  exact .param hv .nil

/-- Combining with an accumulator of another name adds no access. -/
theorem combine (kind : ReduceKind) {acc : Var} (hacc : acc.name ∉ params.map Var.name) {value : Expr}
    (h : Accesses params value.preorder positions) :
    Accesses params (kind.combine (.var acc) value).preorder positions := by
  have hown : ∀ v ∈ (Expr.var acc).ownVars, v.name ∉ params.map Var.name := List.forall_mem_singleton.mpr hacc
  have hparts : Accesses params ([.var acc, value].flatMap Expr.preorder) positions := by
    rw [List.flatMap_cons, List.flatMap_singleton]
    exact (of_isApart (Expr.avoids_var hacc)).append h
  cases kind <;> exact of_children ⟨rfl, List.forall_mem_nil _⟩ hparts

end Accesses

namespace Stmt

/-- The variables that a statement names besides those in its expressions: the one that it assigns to or binds. -/
def ownVars : Stmt → List Var
  | assign v _ | letIn v _ _ | forRange v _ _ _ => [v]
  | _ => []

theorem exprNodes_eq (s : Stmt) : s.exprNodes = s.exprs.flatMap Expr.preorder ++ s.children.flatMap exprNodes := by
  rw [exprNodes, preorder_eq, List.flatMap_cons, List.flatMap_assoc]
  rfl

/-- Whether statements access variables at the given positions and neither bind nor assign to one of their names. -/
structure AllAccess (params : List Var) (stmts : List Stmt) (positions : List Nat) : Prop where
  nodes : Accesses params (stmts.flatMap exprNodes) positions
  own : ∀ s ∈ stmts, ∀ t ∈ s.preorder, ∀ v ∈ t.ownVars, v.name ∉ params.map Var.name

namespace AllAccess

variable {params : List Var} {stmts stmts' : List Stmt} {positions positions' : List Nat} {s body : Stmt}

theorem nil : AllAccess params [] [] :=
  ⟨.nil, List.forall_mem_nil _⟩

theorem append (h : AllAccess params stmts positions) (h' : AllAccess params stmts' positions') :
    AllAccess params (stmts ++ stmts') (positions ++ positions') where
  nodes := by
    rw [List.flatMap_append]
    exact h.nodes.append h'.nodes
  own := List.forall_mem_append.mpr ⟨h.own, h'.own⟩

/-- Statements that each make the same accesses make them one after the other. -/
theorem map {α : Type} {g : α → Stmt} {xs : List α} (h : ∀ x ∈ xs, AllAccess params [g x] positions) :
    AllAccess params (xs.map g) (List.replicate xs.length positions).flatten := by
  induction xs with
  | nil => exact .nil
  | cons x xs ih =>
    obtain ⟨hx, hxs⟩ := List.forall_mem_cons.mp h
    exact hx.append (ih hxs)

/-- A statement accesses what its own expressions access, and then what the statements in it do. -/
theorem singleton (hexprs : Accesses params (s.exprs.flatMap Expr.preorder) positions)
    (hown : ∀ v ∈ s.ownVars, v.name ∉ params.map Var.name) (hchildren : AllAccess params s.children positions') :
    AllAccess params [s] (positions ++ positions') where
  nodes := by
    rw [List.flatMap_singleton, exprNodes_eq]
    exact hexprs.append hchildren.nodes
  own := by
    rw [List.forall_mem_singleton, preorder_eq, List.forall_mem_cons, List.forall_mem_flatMap]
    exact ⟨hown, hchildren.own⟩

theorem assign {v : Var} (hv : v.name ∉ params.map Var.name) {value : Expr}
    (h : Accesses params value.preorder positions) : AllAccess params [.assign v value] positions := by
  have hexprs : Accesses params ((Stmt.assign v value).exprs.flatMap Expr.preorder) positions := by
    rw [exprs, List.flatMap_singleton]
    exact h
  exact List.append_nil positions ▸ singleton hexprs (List.forall_mem_singleton.mpr hv) .nil

/-- What the statements in a statement access, whose own expressions access nothing. -/
theorem inside (hexprs : ∀ e ∈ s.exprs, e.Avoids (params.map Var.name))
    (hown : ∀ v ∈ s.ownVars, v.name ∉ params.map Var.name) (h : AllAccess params s.children positions) :
    AllAccess params [s] positions :=
  singleton (.of_avoids hexprs) hown h

theorem seq (h : AllAccess params stmts positions) : AllAccess params [.seq stmts] positions :=
  inside (List.forall_mem_nil _) (List.forall_mem_nil _) h

theorem block (h : AllAccess params stmts positions) : AllAccess params [.block stmts] positions :=
  match stmts with
  | [_] => h
  | [] | _ :: _ :: _ => h.seq

theorem letIn {v : Var} {value : Expr} (hv : v.name ∉ params.map Var.name) (hvalue : value.Avoids (params.map Var.name))
    (h : AllAccess params [body] positions) : AllAccess params [.letIn v value body] positions :=
  inside (List.forall_mem_singleton.mpr hvalue) (List.forall_mem_singleton.mpr hv) h

theorem forRange {v : Var} {extent : Expr} (unroll : Option Bool) (hv : v.name ∉ params.map Var.name)
    (hextent : extent.Avoids (params.map Var.name)) (h : AllAccess params [body] positions) :
    AllAccess params [.forRange v extent unroll body] positions :=
  inside (List.forall_mem_singleton.mpr hextent) (List.forall_mem_singleton.mpr hv) h

theorem ifThen {cond : Expr} (hcond : cond.Avoids (params.map Var.name)) (h : AllAccess params [body] positions) :
    AllAccess params [.ite cond body none] positions :=
  inside (List.forall_mem_singleton.mpr hcond) (List.forall_mem_nil _) h

/-- A store accesses the tensor that it writes to, and then what its value does. -/
theorem store {i : Nat} {v : Var} (hv : params[i]? = some v) {indices : List Expr}
    (hindices : ∀ e ∈ indices, e.Avoids (params.map Var.name)) {value : Expr} (h : Accesses params value.preorder positions) :
    AllAccess params [.store (.var v) indices value] (i :: positions) := by
  have hexprs : Accesses params ((Stmt.store (.var v) indices value).exprs.flatMap Expr.preorder) (i :: positions) := by
    rw [exprs, List.cons_append, List.flatMap_cons, List.flatMap_append, List.flatMap_singleton]
    exact (Accesses.var hv).append ((Accesses.of_avoids hindices).append h)
  exact List.append_nil (i :: positions) ▸ singleton hexprs (List.forall_mem_nil _) .nil

section

variable {axes : List Var} {exprs : List Expr} (haxes : ∀ v ∈ axes, v.name ∉ params.map Var.name)
  (hexprs : ∀ e ∈ exprs, e.Avoids (params.map Var.name))

include haxes hexprs

theorem lets (h : AllAccess params [body] positions) : AllAccess params [Stmt.lets axes exprs body] positions := by
  refine List.foldrRecOn (motive := fun s => AllAccess params [s] positions) (axes.zip exprs) _ h ?_
  intro inner hinner entry hentry
  obtain ⟨haxis, hexpr⟩ := List.of_mem_zip hentry
  exact letIn (haxes _ haxis) (hexprs _ hexpr) hinner

theorem loops (h : AllAccess params [body] positions) : AllAccess params [Stmt.loops axes exprs body] positions := by
  refine List.foldrRecOn (motive := fun s => AllAccess params [s] positions) (axes.zip exprs) _ h ?_
  intro inner hinner entry hentry
  obtain ⟨haxis, hexpr⟩ := List.of_mem_zip hentry
  exact forRange none (haxes _ haxis) (hexprs _ hexpr) hinner

theorem nest (h : AllAccess params stmts positions) : AllAccess params (Stmt.nest axes exprs stmts) positions := by
  unfold Stmt.nest
  split_ifs
  · exact h
  · exact loops haxes hexprs h.block

end

end AllAccess

end Stmt

/-! ## Reads of a definition -/

/-- The inputs that a value reads, by name: those that its reductions read, whose code stands in front of it, and those that
it reads itself. -/
structure Reads where
  hoisted : List String
  direct : List String

namespace Reads

/-- The reads of two values, one after the other. -/
def append (r s : Reads) : Reads :=
  ⟨r.hoisted ++ s.hoisted, r.direct ++ s.direct⟩

instance : Append Reads := ⟨append⟩

variable (r s t : Reads)

theorem hoisted_append : (r ++ s).hoisted = r.hoisted ++ s.hoisted := rfl

theorem direct_append : (r ++ s).direct = r.direct ++ s.direct := rfl

theorem append_nil : r ++ (⟨[], []⟩ : Reads) = r := by
  change Reads.mk _ _ = r
  rw [List.append_nil, List.append_nil]

end Reads

mutual

/-- The reads of a value. -/
def Expr.reads : Expr → Reads
  | .tensorInput name _ _ | .scalarInput name _ => ⟨[], [name]⟩
  | .reduce _ _ _ value => ⟨value.reads.hoisted ++ value.reads.direct, []⟩
  | .unary _ arg | .cast _ arg | .deref arg | .addr arg | .ref arg => arg.reads
  | .binary _ lhs rhs => lhs.reads ++ rhs.reads
  | .letIn _ value body => value.reads ++ body.reads
  | .ite cond thenE elseE => cond.reads ++ (thenE.reads ++ elseE.reads)
  | .element base indices => base.reads ++ Expr.readsAll indices
  | .call _ args => Expr.readsAll args
  | _ => ⟨[], []⟩

/-- The reads of several values, one after the other. -/
def Expr.readsAll : List Expr → Reads
  | [] => ⟨[], []⟩
  | e :: es => e.reads ++ Expr.readsAll es

end

namespace Expr

variable {names : List String} {e : Expr}

theorem readsAll_singleton (e : Expr) : readsAll [e] = e.reads := by
  rw [readsAll, readsAll, Reads.append_nil]

theorem reads_of_isPlain (he : e.isPlain) : e.reads = readsAll e.children := by
  cases e with
  | tensorInput | scalarInput | compute | reduce => cases he
  | _ => simp only [reads, readsAll, children, Reads.append_nil]

theorem reads_of_inputName? {name : String} (h : e.inputName? = some name) : e.reads = ⟨[], [name]⟩ := by
  cases e with
  | tensorInput | scalarInput =>
    cases h
    rw [reads]
  | _ => cases h

/-- Whether the variables of a value keep apart from parameters of the given names: it neither reads nor binds one of such a
name, nor do the extents of its reductions, which are copied as they are and refer to no node. -/
inductive KeepsApart (names : List String) : Expr → Prop
  | input {e : Expr} {name : String} (hname : e.inputName? = some name) : KeepsApart names e
  | node {e : Expr} (hplain : e.isPlain) (hown : ∀ v ∈ e.ownVars, v.name ∉ names)
      (hparts : ∀ c ∈ e.children, KeepsApart names c) : KeepsApart names e
  | reduce {kind : ReduceKind} {shape : List Expr} {axes : List Var} {value : Expr} (haxes : ∀ v ∈ axes, v.name ∉ names)
      (hshape : ∀ extent ∈ shape, extent.Avoids names) (hvalue : KeepsApart names value) :
      KeepsApart names (.reduce kind shape axes value)

theorem KeepsApart.of_isPlain (h : e.KeepsApart names) (he : e.isPlain) :
    (∀ v ∈ e.ownVars, v.name ∉ names) ∧ ∀ c ∈ e.children, c.KeepsApart names := by
  cases h with
  | input hname =>
    cases e with
    | tensorInput | scalarInput => cases he
    | _ => cases hname
  | node _ hown hparts => exact ⟨hown, hparts⟩
  | reduce => cases he

theorem KeepsApart.of_reduce {kind : ReduceKind} {shape : List Expr} {axes : List Var} {value : Expr}
    (h : KeepsApart names (Expr.reduce kind shape axes value)) :
    (∀ v ∈ axes, v.name ∉ names) ∧ (∀ extent ∈ shape, extent.Avoids names) ∧ value.KeepsApart names := by
  cases h with
  | input hname => cases hname
  | node hplain => cases hplain
  | reduce haxes hshape hvalue => exact ⟨haxes, hshape, hvalue⟩

theorem isApart_withChildren (he : e.isPlain) (hown : ∀ v ∈ e.ownVars, v.name ∉ names) (values : List Expr) :
    (e.withChildren values).IsApart names := by
  have hsame : (e.withChildren values).nodeName? = e.nodeName? ∧ (e.withChildren values).ownVars = e.ownVars := by
    unfold withChildren
    split <;> exact ⟨rfl, rfl⟩
  refine ⟨hsame.1.trans ?_, hsame.2 ▸ hown⟩
  cases e with
  | tensorInput | scalarInput | compute | reduce => cases he
  | _ => rfl

end Expr

/-! ## Lowering -/

section

variable {vars : List Var}

/-- The division of a sum by the number of its values accesses nothing. -/
theorem Reduction.allAccess_divide {kind : ReduceKind} {d : DType} {acc : Var} {shape : List Expr} {divide : List Stmt}
    (hacc : acc.name ∉ vars.map Var.name) (h : Reduction.divide kind d acc shape = .ok divide) :
    Stmt.AllAccess vars divide [] := by
  cases kind with
  | avg =>
    obtain ⟨count, -, hresult⟩ := bind_eq_ok_iff.mp h
    cases hresult
    exact .assign hacc (.of_isApart ((Expr.avoids_var hacc).binary (Expr.avoids_const _ _) .div))
  | sum | max | min =>
    cases h
    exact .nil

/-- The code of a reduction accesses what the code of its value does. -/
theorem Reduction.allAccess_toStmt {kind : ReduceKind} {d : DType} {acc : Var} {shape : List Expr} {axes : List Var}
    {combined : Lowered Expr} {divide : List Stmt} {hoisted direct : List Nat} (hacc : acc.name ∉ vars.map Var.name)
    (haxes : ∀ v ∈ axes, v.name ∉ vars.map Var.name) (hshape : ∀ extent ∈ shape, extent.Avoids (vars.map Var.name))
    (hprelude : Stmt.AllAccess vars combined.prelude hoisted) (hvalue : Accesses vars combined.value.preorder direct)
    (hdivide : Reduction.divide kind d acc shape = .ok divide) :
    Stmt.AllAccess vars [toStmt kind d acc shape axes combined divide] (hoisted ++ direct) := by
  have hstart : Stmt.AllAccess vars [.assign acc (.literal (kind.init d) d)] [] :=
    .assign hacc (.of_isApart (Expr.avoids_const _ _))
  have hstep := hprelude.append (.assign hacc (hvalue.combine kind hacc))
  have hall := (hstart.append (hstep.nest haxes hshape)).append (allAccess_divide hacc hdivide)
  rw [List.nil_append, List.append_nil] at hall
  rw [toStmt_eq_nest]
  exact hall.block

end

namespace Lowers

variable {params : ParamMap} {b : FunctionBuilder} {es values : List Expr} {prelude : List Stmt} {accs : List Var}

theorem length_values (h : Lowers params b es prelude values accs) : es.length = values.length := by
  induction h with
  | nil => rfl
  | input _ _ _ ih => exact congrArg (· + 1) ih
  | node _ _ _ _ ih => exact congrArg (· + 1) ih
  | reduce _ _ _ _ _ _ ih => exact congrArg (· + 1) ih

/-- What values are lowered to accesses the parameters where the values read inputs: the statements in front for the reads of
the reductions, the lowered values for the others. -/
theorem accesses (h : Lowers params b es prelude values accs) {vars : List Var} {position? : String → Option Nat}
    (hparams : ∀ name v, params.lookup name = some v → ∃ i, position? name = some i ∧ vars[i]? = some v)
    (htaken : ∀ v ∈ vars, v.name ∈ b.taken) (hes : ∀ e ∈ es, e.KeepsApart (vars.map Var.name)) :
    Stmt.AllAccess vars prelude ((Expr.readsAll es).hoisted.filterMap position?) ∧
      Accesses vars (values.flatMap Expr.preorder) ((Expr.readsAll es).direct.filterMap position?) := by
  induction h with
  | nil => exact ⟨.nil, .nil⟩
  | @input b e name v es values prelude accs hname hparam _ ih =>
    obtain ⟨i, hi, hv⟩ := hparams name v hparam
    obtain ⟨hhoisted, hdirect⟩ := ih htaken (List.forall_mem_cons.mp hes).2
    rw [Expr.readsAll, Expr.reads_of_inputName? hname, Reads.hoisted_append, Reads.direct_append, List.filterMap_append,
      List.filterMap_append, List.filterMap_cons_some hi, List.flatMap_cons]
    exact ⟨hhoisted, (Accesses.var hv).append hdirect⟩
  | @node b e es values values' prelude prelude' accs accs' hplain hparts _ ihparts ihrest =>
    obtain ⟨he, hes⟩ := List.forall_mem_cons.mp hes
    obtain ⟨hown, hchildren⟩ := he.of_isPlain hplain
    obtain ⟨hhoisted, hdirect⟩ := ihparts htaken hchildren
    obtain ⟨hhoisted', hdirect'⟩ := ihrest
      (fun v hv => FunctionBuilder.mem_taken_withLocals.mpr (.inr (htaken v hv))) hes
    rw [Expr.readsAll, Expr.reads_of_isPlain hplain, Reads.hoisted_append, Reads.direct_append, List.filterMap_append,
      List.filterMap_append, List.flatMap_cons]
    rw [← Expr.children_withChildren hparts.length_values.symm] at hdirect
    have hnode := Accesses.of_children (Expr.isApart_withChildren hplain hown values) hdirect
    exact ⟨hhoisted.append hhoisted', hnode.append hdirect'⟩
  | @reduce b kind shape axes value combined d acc divide es values' prelude prelude' accs accs' _ hacc _ hdivide _ ihvalue
      ihrest =>
    obtain ⟨he, hes⟩ := List.forall_mem_cons.mp hes
    have hnew : acc.name ∉ vars.map Var.name := by
      rintro hmem
      obtain ⟨v, hv, hname⟩ := List.mem_map.mp hmem
      have htaken := htaken v hv
      rw [hname, hacc] at htaken
      exact freshName_not_mem b.taken "acc" htaken
    obtain ⟨haxes, hshape, hvalue⟩ := he.of_reduce
    obtain ⟨hhoisted, hdirect⟩ := ihvalue
      (fun v hv => FunctionBuilder.mem_taken_withLocals.mpr (.inr (htaken v hv))) (List.forall_mem_singleton.mpr hvalue)
    obtain ⟨hhoisted', hdirect'⟩ := ihrest
      (fun v hv => FunctionBuilder.mem_taken_withLocals.mpr (.inr (htaken v hv))) hes
    rw [Expr.readsAll_singleton] at hhoisted hdirect
    rw [List.flatMap_singleton] at hdirect
    rw [Expr.readsAll, Expr.reads, Reads.hoisted_append, Reads.direct_append, List.filterMap_append, List.filterMap_append,
      List.filterMap_append, List.flatMap_cons]
    have hstmt := @Reduction.allAccess_toStmt vars kind d acc shape axes ⟨prelude, combined⟩ divide _ _ hnew haxes hshape
      hhoisted hdirect hdivide
    exact ⟨hstmt.append hhoisted', (Accesses.of_isApart (Expr.avoids_var hnew)).append hdirect'⟩

end Lowers

end TensorCompiler
