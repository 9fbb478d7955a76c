import TensorCompiler.Proofs.Codegen.Dispatch
import TensorCompiler.Proofs.Expr.HoleFree
import TensorCompiler.Proofs.Stmt.Traversal

/-! # Generated code has no holes

A task that passes the test of the registry has no hole, except in the types of the variables that it binds. If these are
resolved too, the implementers of the library generate code in which no hole and no pattern node occurs. Every step of
code generation keeps this: the builders of statements and functions collect parts without holes, lowering makes such
statements and values of such an expression, and types are copied from the parameters or are known element types.

The test alone does not suffice: the kernel of a task binds the axes under the types that they have there.
-/

namespace TensorCompiler

/-! ## Statements and functions -/

namespace Stmt

/-- The variables that a statement itself names: those that it binds or assigns to. -/
def vars : Stmt → List Var
  | assign v _ | letIn v _ _ | forRange v _ _ _ => [v]
  | _ => []

/-- Whether the expressions and variables of a statement itself have no holes. -/
def OwnHoleFree (s : Stmt) : Prop :=
  (∀ v ∈ s.vars, v.ty.isHoleFree = true) ∧ ∀ e ∈ s.exprs, e.isHoleFree = true

/-- Whether a statement and those inside it have no holes. -/
def IsHoleFree (s : Stmt) : Prop :=
  ∀ t ∈ s.preorder, t.OwnHoleFree

theorem isHoleFree_iff {s : Stmt} : s.IsHoleFree ↔ s.OwnHoleFree ∧ ∀ c ∈ s.children, c.IsHoleFree := by
  rw [IsHoleFree, preorder_eq, List.forall_mem_cons]
  simp only [List.mem_flatMap, IsHoleFree]
  refine and_congr_right fun _ => ⟨fun h c hc t ht => h t ⟨c, hc, ht⟩, ?_⟩
  rintro h t ⟨c, hc, ht⟩
  exact h c hc t ht

variable {v : Var} {e : Expr} {body : Stmt} {stmts : List Stmt}

theorem isHoleFree_assign (hv : v.ty.isHoleFree = true) (he : e.isHoleFree = true) : (assign v e).IsHoleFree :=
  isHoleFree_iff.mpr ⟨⟨List.forall_mem_singleton.mpr hv, List.forall_mem_singleton.mpr he⟩, nofun⟩

theorem isHoleFree_store {buf : Expr} {indices : List Expr} (hbuf : buf.isHoleFree = true)
    (hindices : ∀ i ∈ indices, i.isHoleFree = true) (he : e.isHoleFree = true) : (store buf indices e).IsHoleFree := by
  refine isHoleFree_iff.mpr ⟨⟨nofun, ?_⟩, nofun⟩
  exact List.forall_mem_append.mpr ⟨List.forall_mem_cons.mpr ⟨hbuf, hindices⟩, List.forall_mem_singleton.mpr he⟩

theorem isHoleFree_letIn (hv : v.ty.isHoleFree = true) (he : e.isHoleFree = true) (hbody : body.IsHoleFree) :
    (letIn v e body).IsHoleFree :=
  isHoleFree_iff.mpr ⟨⟨List.forall_mem_singleton.mpr hv, List.forall_mem_singleton.mpr he⟩,
    List.forall_mem_singleton.mpr hbody⟩

theorem isHoleFree_forRange {unroll : Option Bool} (hv : v.ty.isHoleFree = true) (he : e.isHoleFree = true)
    (hbody : body.IsHoleFree) : (forRange v e unroll body).IsHoleFree :=
  isHoleFree_iff.mpr ⟨⟨List.forall_mem_singleton.mpr hv, List.forall_mem_singleton.mpr he⟩,
    List.forall_mem_singleton.mpr hbody⟩

theorem isHoleFree_ifThen (he : e.isHoleFree = true) (hbody : body.IsHoleFree) : (ite e body none).IsHoleFree :=
  isHoleFree_iff.mpr ⟨⟨nofun, List.forall_mem_singleton.mpr he⟩, List.forall_mem_singleton.mpr hbody⟩

theorem isHoleFree_block (h : ∀ s ∈ stmts, s.IsHoleFree) : (block stmts).IsHoleFree := by
  unfold block
  split
  · exact h _ (List.mem_singleton_self _)
  · exact isHoleFree_iff.mpr ⟨⟨nofun, nofun⟩, h⟩

end Stmt

/-- Whether the types and the body of a function have no holes. -/
structure Function.IsHoleFree (f : Function) : Prop where
  params : ∀ v ∈ f.params, v.ty.isHoleFree = true
  locals : ∀ v ∈ f.locals, v.ty.isHoleFree = true
  retType : f.retType.isHoleFree = true
  body : f.body.IsHoleFree

/-! ## Builders -/

/-- Whether the head of a scope has no holes. -/
def Scope.IsHoleFree : Scope → Prop
  | letIn v e | forRange v e _ => v.ty.isHoleFree = true ∧ e.isHoleFree = true
  | ifThen e => e.isHoleFree = true

theorem Scope.IsHoleFree.wrap {scope : Scope} {body : Stmt} (h : scope.IsHoleFree) (hbody : body.IsHoleFree) :
    (scope.wrap body).IsHoleFree := by
  cases scope with
  | letIn v e => exact Stmt.isHoleFree_letIn h.1 h.2 hbody
  | forRange v e unroll => exact Stmt.isHoleFree_forRange h.1 h.2 hbody
  | ifThen e => exact Stmt.isHoleFree_ifThen h hbody

namespace StmtBuilder

/-- Whether what a builder has collected has no holes. -/
structure IsHoleFree (b : StmtBuilder) : Prop where
  scopes : ∀ entry ∈ b.scopes, entry.1.IsHoleFree ∧ ∀ s ∈ entry.2, s.IsHoleFree
  root : ∀ s ∈ b.root, s.IsHoleFree

namespace IsHoleFree

variable {b : StmtBuilder} {stmts : List Stmt}

theorem empty : IsHoleFree {} :=
  ⟨nofun, nofun⟩

theorem append (h : b.IsHoleFree) {s : Stmt} (hs : s.IsHoleFree) : (b.append s).IsHoleFree := by
  have hlast (body : List Stmt) (hbody : ∀ t ∈ body, t.IsHoleFree) : ∀ t ∈ body ++ [s], t.IsHoleFree :=
    List.forall_mem_append.mpr ⟨hbody, List.forall_mem_singleton.mpr hs⟩
  rw [StmtBuilder.append]
  split
  · exact ⟨h.scopes, hlast _ h.root⟩
  · rename_i scope body outer hscopes
    have hopen := h.scopes
    rw [hscopes, List.forall_mem_cons] at hopen
    exact ⟨List.forall_mem_cons.mpr ⟨⟨hopen.1.1, hlast _ hopen.1.2⟩, hopen.2⟩, h.root⟩

theorem appendAll (h : b.IsHoleFree) (hstmts : ∀ s ∈ stmts, s.IsHoleFree) : (b.appendAll stmts).IsHoleFree := by
  induction stmts generalizing b with
  | nil => exact h
  | cons s stmts ih =>
    obtain ⟨hs, hrest⟩ := List.forall_mem_cons.mp hstmts
    exact ih (h.append hs) hrest

theorem enter (h : b.IsHoleFree) {scope : Scope} (hscope : scope.IsHoleFree) : (b.enter scope).IsHoleFree :=
  ⟨List.forall_mem_cons.mpr ⟨⟨hscope, nofun⟩, h.scopes⟩, h.root⟩

/-- Scopes that are entered one after the other. -/
theorem foldl_enter {α : Type} (h : b.IsHoleFree) {items : List α} {scope : α → Scope}
    (hscopes : ∀ x ∈ items, (scope x).IsHoleFree) :
    (items.foldl (fun b x => StmtBuilder.enter b (scope x)) b).IsHoleFree := by
  induction items generalizing b with
  | nil => exact h
  | cons x items ih =>
    obtain ⟨hx, hrest⟩ := List.forall_mem_cons.mp hscopes
    exact ih (h.enter hx) hrest

theorem leave (h : b.IsHoleFree) : b.leave.IsHoleFree := by
  rw [StmtBuilder.leave]
  split
  · exact h
  · rename_i scope body outer hscopes
    have hopen := h.scopes
    rw [hscopes, List.forall_mem_cons] at hopen
    have houter : IsHoleFree { b with scopes := outer } := ⟨hopen.2, h.root⟩
    exact houter.append (hopen.1.1.wrap (Stmt.isHoleFree_block hopen.1.2))

theorem leaveTimes (h : b.IsHoleFree) (n : Nat) : (StmtBuilder.leaveTimes n b).IsHoleFree := by
  induction n generalizing b with
  | zero => exact h
  | succ n ih => exact ih h.leave

theorem finish (h : b.IsHoleFree) : b.finish.IsHoleFree :=
  Stmt.isHoleFree_block (h.leaveTimes _).root

end IsHoleFree

end StmtBuilder

/-! ## Lowering -/

theorem Expr.allHoleFree_iff {es : List Expr} : allHoleFree es = true ↔ ∀ e ∈ es, e.isHoleFree = true := by
  induction es with
  | nil => simp [allHoleFree]
  | cons e es ih => rw [allHoleFree, Bool.and_eq_true, ih, List.forall_mem_cons]

theorem Var.allHoleFree_iff {vars : List Var} : allHoleFree vars = true ↔ ∀ v ∈ vars, v.ty.isHoleFree = true := by
  induction vars with
  | nil => simp [allHoleFree]
  | cons v vars ih =>
    obtain ⟨name, ty⟩ := v
    rw [allHoleFree, Bool.and_eq_true, ih, List.forall_mem_cons]

theorem CodegenM.bind_eq_ok_iff {α β : Type} {x : CodegenM α} {f : α → CodegenM β} {b : FunctionBuilder}
    {r : β × FunctionBuilder} : (x >>= f) b = .ok r ↔ ∃ a b', x b = .ok (a, b') ∧ f a b' = .ok r := by
  change (x b >>= fun p => f p.1 p.2) = _ ↔ _
  rw [TensorCompiler.bind_eq_ok_iff, Prod.exists]

theorem CodegenM.ofOption_eq_ok_iff {α : Type} {error : Error} {x : Option α} {a : α} {b b' : FunctionBuilder} :
    CodegenM.ofOption error x b = .ok (a, b') ↔ x = some a ∧ b = b' := by
  cases x with
  | none => exact ⟨nofun, nofun⟩
  | some a' =>
    change Except.ok (a', b) = Except.ok (a, b') ↔ _
    simp

/-- What every step keeps, a fold of steps keeps. -/
theorem CodegenM.foldlM_invariant {α β : Type} {f : β → α → CodegenM β} {P : β → FunctionBuilder → Prop} {items : List α}
    (hstep : ∀ x ∈ items, ∀ {acc acc' : β} {b b' : FunctionBuilder}, P acc b → f acc x b = .ok (acc', b') → P acc' b')
    {acc acc' : β} {b b' : FunctionBuilder} (hstart : P acc b) (h : items.foldlM f acc b = .ok (acc', b')) : P acc' b' := by
  induction items generalizing acc b with
  | nil =>
    cases h
    exact hstart
  | cons x items ih =>
    rw [List.foldlM_cons] at h
    obtain ⟨next, b₁, hx, hrest⟩ := CodegenM.bind_eq_ok_iff.mp h
    exact ih (fun y hy => hstep y (List.mem_cons_of_mem x hy)) (hstep x List.mem_cons_self hstart hx) hrest

theorem CodegenM.lift_eq_ok_iff {α : Type} {x : Except Error α} {a : α} {b b' : FunctionBuilder} :
    (liftM x : CodegenM α) b = .ok (a, b') ↔ x = .ok a ∧ b = b' := by
  cases x with
  | error e => exact ⟨nofun, nofun⟩
  | ok a' =>
    change Except.ok (a', b) = Except.ok (a, b') ↔ _
    simp

/-- Whether the types of a function under construction have no holes. -/
structure FunctionBuilder.IsHoleFree (b : FunctionBuilder) : Prop where
  params : ∀ v ∈ b.function.params, v.ty.isHoleFree = true
  locals : ∀ v ∈ b.function.locals, v.ty.isHoleFree = true
  retType : b.function.retType.isHoleFree = true

theorem FunctionBuilder.IsHoleFree.declareLocal {b : FunctionBuilder} (h : b.IsHoleFree) {ty : Ty}
    (hty : ty.isHoleFree = true) (hint : String) : ((FunctionBuilder.declareLocal hint ty).run b).2.IsHoleFree :=
  ⟨h.params, List.forall_mem_append.mpr ⟨h.locals, List.forall_mem_singleton.mpr hty⟩, h.retType⟩

/-- Whether a lowered expression has no holes. -/
structure Lowered.IsHoleFree (lowered : Lowered Expr) : Prop where
  prelude : ∀ s ∈ lowered.prelude, s.IsHoleFree
  value : lowered.value.isHoleFree = true

/-- Whether several lowered expressions have no holes. -/
structure Lowered.AllHoleFree (lowered : Lowered (List Expr)) : Prop where
  prelude : ∀ s ∈ lowered.prelude, s.IsHoleFree
  value : Expr.allHoleFree lowered.value = true

theorem ReduceKind.isHoleFree_combine (kind : ReduceKind) {acc value : Expr} (hacc : acc.isHoleFree = true)
    (hvalue : value.isHoleFree = true) : (kind.combine acc value).isHoleFree = true := by
  have hadd : (acc + value).isHoleFree = true := by
    change (acc.isHoleFree && value.isHoleFree) = true
    rw [hacc, hvalue, Bool.and_self]
  have hcall (func : String) : (Expr.call func [acc, value]).isHoleFree = true := by
    simp [Expr.isHoleFree, Expr.allHoleFree, hacc, hvalue]
  cases kind with
  | sum | avg => exact hadd
  | max | min => exact hcall _

namespace Reduction

variable {kind : ReduceKind} {dtype : DType} {acc : Var} {shape : List Expr} {axes : List Var} {combined : Lowered Expr}
  {divide : List Stmt}

theorem isHoleFree_divide (hacc : acc.ty.isHoleFree = true) (h : Reduction.divide kind dtype acc shape = .ok divide) :
    ∀ s ∈ divide, s.IsHoleFree := by
  cases kind with
  | avg =>
    obtain ⟨count, -, hresult⟩ := bind_eq_ok_iff.mp h
    cases hresult
    refine List.forall_mem_singleton.mpr (Stmt.isHoleFree_assign hacc ?_)
    change ((Expr.var acc).isHoleFree && true) = true
    rw [Expr.isHoleFree_var, hacc, Bool.and_self]
  | sum | max | min =>
    cases h
    exact nofun

theorem isHoleFree_toStmt (hacc : acc.ty.isHoleFree = true) (hshape : ∀ e ∈ shape, e.isHoleFree = true)
    (haxes : ∀ v ∈ axes, v.ty.isHoleFree = true) (hcombined : combined.IsHoleFree)
    (hdivide : ∀ s ∈ divide, s.IsHoleFree) : (toStmt kind dtype acc shape axes combined divide).IsHoleFree := by
  have hstep : (Stmt.assign acc (kind.combine (.var acc) combined.value)).IsHoleFree :=
    Stmt.isHoleFree_assign hacc (kind.isHoleFree_combine ((Expr.isHoleFree_var acc).trans hacc) hcombined.value)
  have hscopes : ∀ entry ∈ axes.zip shape, (Scope.forRange entry.1 entry.2 none).IsHoleFree := by
    rintro ⟨v, e⟩ hentry
    obtain ⟨hv, he⟩ := List.of_mem_zip hentry
    exact ⟨haxes v hv, hshape e he⟩
  have hstart : StmtBuilder.IsHoleFree (StmtBuilder.append {} (.assign acc (Expr.literal (kind.init dtype) dtype))) :=
    StmtBuilder.IsHoleFree.empty.append (Stmt.isHoleFree_assign hacc rfl)
  have hbody := (hstart.foldl_enter hscopes).appendAll
    (List.forall_mem_append.mpr ⟨hcombined.prelude, List.forall_mem_singleton.mpr hstep⟩)
  exact ((hbody.leaveTimes axes.length).appendAll hdivide).finish

end Reduction

namespace ParamMap

variable {params : ParamMap}

/-- Whether the types of the parameters have no holes. -/
def IsHoleFree (params : ParamMap) : Prop :=
  ∀ entry ∈ params, entry.2.ty.isHoleFree = true

theorem IsHoleFree.lookup (hparams : params.IsHoleFree) {name : String} {v : Var} (h : params.lookup name = some v) :
    v.ty.isHoleFree = true := by
  obtain ⟨before, after, hmap, -⟩ := List.lookup_eq_some_iff.mp h
  exact hparams (name, v) (by simp [hmap])

theorem IsHoleFree.read (hparams : params.IsHoleFree) {name : String} {e : Expr} (h : params.read name = .ok e) :
    e.isHoleFree = true := by
  rw [ParamMap.read] at h
  split at h
  · rename_i v hlookup
    cases h
    exact (Expr.isHoleFree_var v).trans (hparams.lookup hlookup)
  · cases h

end ParamMap

namespace Expr

variable {params : ParamMap}

mutual

/-- Lowering an expression without holes gives statements and a value without holes. -/
theorem isHoleFree_lower (hparams : params.IsHoleFree) :
    ∀ (e : Expr) {b b' : FunctionBuilder} {lowered : Lowered Expr}, e.isHoleFree = true → b.IsHoleFree →
      e.lower params b = .ok (lowered, b') → b'.IsHoleFree ∧ lowered.IsHoleFree
  | .tensorInput name _ _, b, b', lowered, _, hb, h | .scalarInput name _, b, b', lowered, _, hb, h => by
    rw [Expr.lower] at h
    obtain ⟨e, b₁, hread, hresult⟩ := CodegenM.bind_eq_ok_iff.mp h
    obtain ⟨hvalue, rfl⟩ := CodegenM.lift_eq_ok_iff.mp hread
    cases hresult
    exact ⟨hb, nofun, hparams.read hvalue⟩
  | .compute .., _, _, _, _, _, h => by
    rw [Expr.lower] at h
    cases h
  | .reduce kind shape axes value, b, b', lowered, he, hb, h => by
    simp only [isHoleFree, Bool.and_eq_true, allHoleFree_iff, Var.allHoleFree_iff] at he
    rw [Expr.lower] at h
    obtain ⟨dtype, b₁, hdtype, hrest⟩ := CodegenM.bind_eq_ok_iff.mp h
    obtain ⟨-, rfl⟩ := CodegenM.lift_eq_ok_iff.mp hdtype
    obtain ⟨acc, b₂, hdeclare, hrest⟩ := CodegenM.bind_eq_ok_iff.mp hrest
    obtain ⟨hb₂, hacc⟩ : b₂.IsHoleFree ∧ acc.ty.isHoleFree = true := by
      cases hdeclare
      exact ⟨hb.declareLocal rfl "acc", rfl⟩
    obtain ⟨combined, b₃, hvalue, hrest⟩ := CodegenM.bind_eq_ok_iff.mp hrest
    obtain ⟨hb₃, hcombined⟩ := isHoleFree_lower hparams value he.2 hb₂ hvalue
    obtain ⟨divide, b₄, hlift, hresult⟩ := CodegenM.bind_eq_ok_iff.mp hrest
    obtain ⟨hdivide, rfl⟩ := CodegenM.lift_eq_ok_iff.mp hlift
    cases hresult
    have hstmt : (Reduction.toStmt kind dtype acc shape axes combined divide).IsHoleFree :=
      Reduction.isHoleFree_toStmt hacc he.1.1 he.1.2 hcombined (Reduction.isHoleFree_divide hacc hdivide)
    exact ⟨hb₃, List.forall_mem_singleton.mpr hstmt, (isHoleFree_var acc).trans hacc⟩
  | .unary _ arg, b, b', lowered, he, hb, h | .deref arg, b, b', lowered, he, hb, h
  | .addr arg, b, b', lowered, he, hb, h | .ref arg, b, b', lowered, he, hb, h => by
    rw [Expr.lower] at h
    obtain ⟨l, b₁, harg, hresult⟩ := CodegenM.bind_eq_ok_iff.mp h
    cases hresult
    obtain ⟨hb₁, hl⟩ := isHoleFree_lower hparams arg he hb harg
    exact ⟨hb₁, hl.prelude, hl.value⟩
  | .cast target arg, b, b', lowered, he, hb, h => by
    rw [isHoleFree, Bool.and_eq_true] at he
    rw [Expr.lower] at h
    obtain ⟨l, b₁, harg, hresult⟩ := CodegenM.bind_eq_ok_iff.mp h
    cases hresult
    obtain ⟨hb₁, hl⟩ := isHoleFree_lower hparams arg he.2 hb harg
    exact ⟨hb₁, hl.prelude, by rw [isHoleFree, he.1, hl.value, Bool.and_self]⟩
  | .binary op lhs rhs, b, b', lowered, he, hb, h => by
    rw [isHoleFree, Bool.and_eq_true] at he
    rw [Expr.lower] at h
    obtain ⟨l, b₁, hlhs, h⟩ := CodegenM.bind_eq_ok_iff.mp h
    obtain ⟨r, b₂, hrhs, hresult⟩ := CodegenM.bind_eq_ok_iff.mp h
    cases hresult
    obtain ⟨hb₁, hl⟩ := isHoleFree_lower hparams lhs he.1 hb hlhs
    obtain ⟨hb₂, hr⟩ := isHoleFree_lower hparams rhs he.2 hb₁ hrhs
    exact ⟨hb₂, List.forall_mem_append.mpr ⟨hl.prelude, hr.prelude⟩, by rw [isHoleFree, hl.value, hr.value, Bool.and_self]⟩
  | .letIn ⟨_, _⟩ value body, b, b', lowered, he, hb, h => by
    simp only [isHoleFree, Bool.and_eq_true] at he
    rw [Expr.lower] at h
    obtain ⟨l, b₁, hvalue, h⟩ := CodegenM.bind_eq_ok_iff.mp h
    obtain ⟨r, b₂, hbody, hresult⟩ := CodegenM.bind_eq_ok_iff.mp h
    cases hresult
    obtain ⟨hb₁, hl⟩ := isHoleFree_lower hparams value he.1.2 hb hvalue
    obtain ⟨hb₂, hr⟩ := isHoleFree_lower hparams body he.2 hb₁ hbody
    exact ⟨hb₂, List.forall_mem_append.mpr ⟨hl.prelude, hr.prelude⟩, by
      simp only [isHoleFree, he.1.1, hl.value, hr.value, Bool.and_self]⟩
  | .ite cond thenE elseE, b, b', lowered, he, hb, h => by
    simp only [isHoleFree, Bool.and_eq_true] at he
    rw [Expr.lower] at h
    obtain ⟨c, b₁, hcond, h⟩ := CodegenM.bind_eq_ok_iff.mp h
    obtain ⟨l, b₂, hthen, h⟩ := CodegenM.bind_eq_ok_iff.mp h
    obtain ⟨r, b₃, helse, hresult⟩ := CodegenM.bind_eq_ok_iff.mp h
    cases hresult
    obtain ⟨hb₁, hc⟩ := isHoleFree_lower hparams cond he.1.1 hb hcond
    obtain ⟨hb₂, hl⟩ := isHoleFree_lower hparams thenE he.1.2 hb₁ hthen
    obtain ⟨hb₃, hr⟩ := isHoleFree_lower hparams elseE he.2 hb₂ helse
    exact ⟨hb₃, List.forall_mem_append.mpr ⟨List.forall_mem_append.mpr ⟨hc.prelude, hl.prelude⟩, hr.prelude⟩, by
      simp only [isHoleFree, hc.value, hl.value, hr.value, Bool.and_self]⟩
  | .element base indices, b, b', lowered, he, hb, h => by
    rw [isHoleFree, Bool.and_eq_true] at he
    rw [Expr.lower] at h
    obtain ⟨l, b₁, hbase, h⟩ := CodegenM.bind_eq_ok_iff.mp h
    obtain ⟨is, b₂, hindices, hresult⟩ := CodegenM.bind_eq_ok_iff.mp h
    cases hresult
    obtain ⟨hb₁, hl⟩ := isHoleFree_lower hparams base he.1 hb hbase
    obtain ⟨hb₂, his⟩ := allHoleFree_lowerAll hparams indices he.2 hb₁ hindices
    exact ⟨hb₂, List.forall_mem_append.mpr ⟨hl.prelude, his.prelude⟩, by
      rw [isHoleFree, hl.value, his.value, Bool.and_self]⟩
  | .call func args, b, b', lowered, he, hb, h => by
    rw [Expr.lower] at h
    obtain ⟨l, b₁, hargs, hresult⟩ := CodegenM.bind_eq_ok_iff.mp h
    cases hresult
    obtain ⟨hb₁, hl⟩ := allHoleFree_lowerAll hparams args he hb hargs
    exact ⟨hb₁, hl.prelude, hl.value⟩
  | .var v, b, b', lowered, he, hb, h => by
    rw [lower_var] at h
    cases h
    exact ⟨hb, nofun, he⟩
  | .const v d, b, b', lowered, he, hb, h => by
    rw [lower_const] at h
    cases h
    exact ⟨hb, nofun, he⟩
  | .any _, _, _, _, he, _, _ | .anyCompute .., _, _, _, he, _, _ | .anyReduce _, _, _, _, he, _, _ =>
    absurd he Bool.false_ne_true

theorem allHoleFree_lowerAll (hparams : params.IsHoleFree) :
    ∀ (es : List Expr) {b b' : FunctionBuilder} {lowered : Lowered (List Expr)}, allHoleFree es = true →
      b.IsHoleFree → lowerAll params es b = .ok (lowered, b') → b'.IsHoleFree ∧ lowered.AllHoleFree
  | [], b, b', lowered, _, hb, h => by
    rw [lowerAll_nil] at h
    cases h
    exact ⟨hb, nofun, rfl⟩
  | e :: es, b, b', lowered, he, hb, h => by
    rw [allHoleFree, Bool.and_eq_true] at he
    rw [Expr.lowerAll] at h
    obtain ⟨l, b₁, hfirst, h⟩ := CodegenM.bind_eq_ok_iff.mp h
    obtain ⟨ls, b₂, hrest, hresult⟩ := CodegenM.bind_eq_ok_iff.mp h
    cases hresult
    obtain ⟨hb₁, hl⟩ := isHoleFree_lower hparams e he.1 hb hfirst
    obtain ⟨hb₂, hls⟩ := allHoleFree_lowerAll hparams es he.2 hb₁ hrest
    exact ⟨hb₂, List.forall_mem_append.mpr ⟨hl.prelude, hls.prelude⟩, by
      rw [allHoleFree, hl.value, hls.value, Bool.and_self]⟩

end

end Expr

end TensorCompiler
