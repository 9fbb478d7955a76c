import TensorCompiler.Proofs.Task.RenamedTask

/-! # A match binds all that a pattern leaves open

Every place of a pattern where a placeholder may stand is one that matching visits: the expressions of the definition, the
element types of inputs, shapes and strides, the types that a cast names, and all fields of the types of required
parameters. So a match that succeeds leaves none of them unbound. The types of variables are no such places, since a
variable is matched by its name.

A required parameter of a valid pattern is a node of the definition and therefore bound once the definition is matched. If
it is reported as missing, then its node is there and no parameter of the task with a type is that node.
-/

namespace TensorCompiler

/-! ## What a pattern leaves open -/

/-- A field of a type that a pattern leaves open: an element type, a scope, or the registers of a scope. -/
inductive OpenField where
  | dtype (id : Hole)
  | scope (id : Hole)
  | tile (id : Hole)
  deriving DecidableEq

def OpenField.ofDType : ScalarType → List OpenField
  | .known _ => []
  | .hole id => [.dtype id]

def OpenField.ofScope : Slot MemoryScope → List OpenField
  | .hole id => [.scope id]
  | .known (.register (.hole id)) => [.tile id]
  | .known _ => []

mutual

/-- The fields that are open in a pattern, in the order in which they are matched. -/
def Expr.openFields : Expr → List OpenField
  | .unary _ arg | .deref arg | .addr arg | .ref arg => arg.openFields
  | .binary _ lhs rhs => lhs.openFields ++ rhs.openFields
  | .letIn _ value body => value.openFields ++ body.openFields
  | .ite cond thenE elseE => cond.openFields ++ (thenE.openFields ++ elseE.openFields)
  | .element base indices => base.openFields ++ Expr.allOpenFields indices
  | .call _ args => Expr.allOpenFields args
  | .cast target arg => target.openFields ++ arg.openFields
  | .scalarInput _ dtype => OpenField.ofDType dtype
  | .tensorInput _ dtype shape => OpenField.ofDType dtype ++ Expr.shapeOpenFields shape
  | .compute _ shape _ value | .reduce _ shape _ value => Expr.allOpenFields shape ++ value.openFields
  | .var _ | .const .. | .any _ | .anyCompute .. | .anyReduce _ => []

def Expr.allOpenFields : List Expr → List OpenField
  | [] => []
  | e :: es => e.openFields ++ Expr.allOpenFields es

def Expr.shapeOpenFields : Option (List Expr) → List OpenField
  | none => []
  | some es => Expr.allOpenFields es

def TensorType.openFields : TensorType → List OpenField
  | ⟨scope, dtype, shape, strides⟩ =>
    OpenField.ofScope scope ++ (OpenField.ofDType dtype ++ (Expr.shapeOpenFields shape ++ Expr.shapeOpenFields strides))

def Ty.openFields : Ty → List OpenField
  | .scalar dtype => OpenField.ofDType dtype
  | .tensor type | .tensorPointer type => type.openFields
  | .pointer base | .reference base => base.openFields
  | .void => []

end

/-- The open fields of a pattern, those of its definition before those of its templates. -/
def TaskPattern.openFields (pattern : TaskPattern) : List OpenField :=
  pattern.computation.openFields ++ pattern.requiredTypes.flatMap Ty.openFields

namespace Binding

/-- Whether the value of an open field is known. -/
def Knows (b : Binding) : OpenField → Prop
  | .dtype id => ∃ dtype, b.dtype? (.hole id) = some dtype
  | .scope id => ∃ scope, b.scope? (.hole id) = some scope
  | .tile id => ∃ tile, b.tile? (.register (.hole id)) = some tile

/-- Whether placeholders and open fields are bound. -/
structure Fills (b : Binding) (placeholders : List Placeholder) (fields : List OpenField) : Prop where
  has : ∀ k ∈ placeholders, b.Has k
  knows : ∀ f ∈ fields, b.Knows f

/-- Whether each named node of an expression is bound to a node of another one. -/
def Finds (b : Binding) (p t : Expr) : Prop :=
  ∀ n ∈ p.preorder, ∀ name, n.nodeName? = some name →
    ∃ node ∈ t.preorder, node.nodeName?.isSome ∧ StandsFor (b.node? name) node

/-- Whether each named node of several expressions is bound to a node of several others. -/
def FindsAll (b : Binding) (ps ts : List Expr) : Prop :=
  ∀ p ∈ ps, ∃ t ∈ ts, b.Finds p t

variable {b : Binding} {ks ks' : List Placeholder} {fs fs' : List OpenField} {p t : Expr} {ps ps' ts ts' : List Expr}
  {name : String}

theorem Fills.nil : b.Fills [] [] :=
  ⟨fun _ hk => (List.not_mem_nil hk).elim, fun _ hf => (List.not_mem_nil hf).elim⟩

theorem Fills.append (h : b.Fills ks fs) (h' : b.Fills ks' fs') : b.Fills (ks ++ ks') (fs ++ fs') :=
  ⟨List.forall_mem_append.mpr ⟨h.has, h'.has⟩, List.forall_mem_append.mpr ⟨h.knows, h'.knows⟩⟩

theorem Fills.node (h : b.Fills ks fs) (hnode : StandsFor (b.node? name) t) : b.Fills (ks ++ [.node name]) fs := by
  refine ⟨List.forall_mem_append.mpr ⟨h.has, List.forall_mem_singleton.mpr ?_⟩, h.knows⟩
  obtain ⟨_, hbound, -⟩ := hnode
  exact Option.isSome_iff_exists.mpr ⟨_, hbound⟩

theorem fills_flatMap {α : Type} {xs : List α} {K : α → List Placeholder} {F : α → List OpenField}
    (h : ∀ x ∈ xs, b.Fills (K x) (F x)) : b.Fills (xs.flatMap K) (xs.flatMap F) := by
  constructor
  · intro k hk
    obtain ⟨x, hx, hk⟩ := List.mem_flatMap.mp hk
    exact (h x hx).has k hk
  · intro f hf
    obtain ⟨x, hx, hf⟩ := List.mem_flatMap.mp hf
    exact (h x hx).knows f hf

theorem FindsAll.nil : b.FindsAll [] ts :=
  fun _ hp => (List.not_mem_nil hp).elim

theorem FindsAll.cons (h : b.Finds p t) (hs : b.FindsAll ps ts) : b.FindsAll (p :: ps) (t :: ts) := by
  intro q hq
  rcases List.mem_cons.mp hq with rfl | hq
  · exact ⟨t, List.mem_cons_self, h⟩
  · obtain ⟨u, hu, hfinds⟩ := hs q hq
    exact ⟨u, List.mem_cons_of_mem _ hu, hfinds⟩

theorem FindsAll.append (h : b.FindsAll ps ts) (h' : b.FindsAll ps' ts') : b.FindsAll (ps ++ ps') (ts ++ ts') := by
  intro q hq
  rcases List.mem_append.mp hq with hq | hq
  · obtain ⟨u, hu, hfinds⟩ := h q hq
    exact ⟨u, List.mem_append_left _ hu, hfinds⟩
  · obtain ⟨u, hu, hfinds⟩ := h' q hq
    exact ⟨u, List.mem_append_right _ hu, hfinds⟩

/-- A named node at the root is bound to the root, the others to nodes below. -/
theorem FindsAll.root (h : b.FindsAll p.children t.children)
    (hroot : ∀ name, p.nodeName? = some name → t.nodeName?.isSome ∧ StandsFor (b.node? name) t) : b.Finds p t := by
  intro n hn name hname
  by_cases hne : n = p
  · subst hne
    exact ⟨t, Expr.mem_preorder_self t, hroot name hname⟩
  · obtain ⟨c, hc, hn⟩ := Expr.exists_child_of_mem_preorder hn hne
    obtain ⟨u, hu, hfinds⟩ := h c hc
    obtain ⟨node, hnode, hfound⟩ := hfinds n hn name hname
    exact ⟨node, Expr.mem_preorder_of_child hu hnode, hfound⟩

/-- What matching an expression leaves: all that is open in the pattern is bound, and its named nodes are found. -/
structure Covers (b : Binding) (p t : Expr) : Prop where
  fills : b.Fills p.placeholders p.openFields
  finds : b.Finds p t

/-- What matching several expressions leaves. -/
structure CoversAll (b : Binding) (ps ts : List Expr) : Prop where
  fills : b.Fills (Expr.allPlaceholders ps) (Expr.allOpenFields ps)
  finds : b.FindsAll ps ts

/-- What matching the extents of a shape leaves, if there are any. -/
structure CoversShape (b : Binding) (p t : Option (List Expr)) : Prop where
  fills : b.Fills (Expr.shapePlaceholders p) (Expr.shapeOpenFields p)
  finds : b.FindsAll (p.getD []) (t.getD [])

/-- At a node with a name, which is bound to the node that it is matched with. -/
theorem Covers.of_named (hname : p.nodeName? = some name) (hfills : b.Fills p.placeholders p.openFields)
    (h : b.FindsAll p.children t.children) (hnode : StandsFor (b.node? name) t) (ht : t.nodeName?.isSome) : b.Covers p t := by
  refine ⟨hfills, h.root fun name' hp => ⟨ht, ?_⟩⟩
  rw [hname] at hp
  exact Option.some.inj hp ▸ hnode

/-- At a node without a name. -/
theorem Covers.of_children (hfills : b.Fills p.placeholders p.openFields) (h : b.FindsAll p.children t.children)
    (hname : p.nodeName? = none) : b.Covers p t :=
  ⟨hfills, h.root fun name hp => by rw [hname] at hp; cases hp⟩

end Binding

/-! ## Steps -/

namespace MatchM

/-- Whether a step from `b` establishes `P` where it succeeds, and reports no missing parameter where it fails. -/
def Resolves (m : MatchM Unit) (b : Binding) (P : Binding → Prop) : Prop :=
  m.Establishes b P ∧ m.run b ≠ .error .missingParam

variable {m m' : MatchM Unit} {b : Binding} {P Q : Binding → Prop}

/-- Two steps one after the other fail where the first one does, or where the second one does after it. -/
theorem run_bind_eq_error_iff {e : Mismatch} : (m >>= fun _ => m').run b = .error e ↔
    m.run b = .error e ∨ ∃ c, m.run b = .ok ((), c) ∧ m'.run c = .error e := by
  rw [StateT.run_bind]
  cases hfirst : m.run b with
  | error e' =>
    constructor
    · intro h
      exact .inl (congrArg Except.error (Except.error.inj h))
    · rintro (h | ⟨_, h, -⟩)
      · exact congrArg Except.error (Except.error.inj h)
      · cases h
  | ok r =>
    constructor
    · intro h
      exact .inr ⟨r.2, rfl, h⟩
    · rintro (h | ⟨_, h, hsecond⟩)
      · cases h
      · cases h
        exact hsecond

theorem Resolves.imp (h : m.Resolves b P) (himp : ∀ c, P c → Q c) : m.Resolves b Q :=
  ⟨h.1.imp himp, h.2⟩

theorem resolves_pure (hP : ∀ c, P c) : (pure () : MatchM Unit).Resolves b P :=
  ⟨establishes_pure hP, nofun⟩

theorem run_throw_ne {e : Mismatch} (he : e ≠ .missingParam) : (throw e : MatchM Unit).run b ≠ .error .missingParam :=
  fun h => he (Except.error.inj h)

theorem resolves_throw {e : Mismatch} (he : e ≠ .missingParam) : (throw e : MatchM Unit).Resolves b P :=
  ⟨establishes_throw e, run_throw_ne he⟩

theorem resolves_of_eq_throw (h : m = throw Mismatch.form) : m.Resolves b P :=
  h ▸ resolves_throw nofun

theorem Resolves.seq (h : m.Resolves b P) (h' : ∀ c, m'.Resolves c Q) :
    (m >>= fun _ => m').Resolves b fun c => P c ∧ Q c := by
  refine ⟨h.1.seq fun c _ _ => (h' c).1, fun hrun => ?_⟩
  rcases run_bind_eq_error_iff.mp hrun with hfirst | ⟨c, -, hsecond⟩
  · exact h.2 hfirst
  · exact (h' c).2 hsecond

theorem run_check_ne {condition : Bool} : (check condition).run b ≠ .error .missingParam := by
  cases condition with
  | true => nofun
  | false => exact run_throw_ne nofun

theorem resolves_check {condition : Bool} (hP : ∀ c, P c) : (check condition).Resolves b P :=
  ⟨establishes_check fun _ => hP, run_check_ne⟩

theorem Resolves.guarded {condition : Bool} (h : m.Resolves b P) :
    (check condition >>= fun _ => m).Resolves b P := by
  cases condition with
  | true => exact h
  | false => exact resolves_throw nofun

/-- A key that is bound to something else is a mismatch of form. -/
theorem run_bindKey_ne {κ α : Type} [BEq κ] {same : α → α → Bool} {key : κ} {value : α} (map : Binding → List (κ × α))
    (put : Binding → List (κ × α) → Binding) :
    (do
      let b ← get
      let xs ← bindKey same (map b) key value
      set (put b xs) : MatchM Unit).run b ≠ .error .missingParam := by
  intro hrun
  rw [StateT.run_bind, StateT.run_get, pure_bind, StateT.run_bind] at hrun
  cases hbind : bindKey same (map b) key value with
  | ok xs =>
    rw [hbind] at hrun
    cases hrun
  | error e =>
    have he : e = .form := by
      unfold bindKey at hbind
      split at hbind
      · split_ifs at hbind
        exact (Except.error.inj hbind).symm
      · cases hbind
    rw [hbind, he] at hrun
    cases hrun

theorem resolves_bindExpr (id : Hole) (e : Expr) : (bindExpr id e).Resolves b fun c => c.Fills [.hole id] [] := by
  refine ⟨(establishes_bindExpr id e).imp fun c h => ⟨List.forall_mem_singleton.mpr ?_, nofun⟩,
    run_bindKey_ne Binding.exprs fun b exprs => { b with exprs }⟩
  obtain ⟨_, hbound, -⟩ := h
  exact Option.isSome_iff_exists.mpr ⟨_, hbound⟩

theorem resolves_bindNode (name : String) (node : Expr) :
    (bindNode name node).Resolves b fun c => StandsFor (c.node? name) node :=
  ⟨establishes_bindNode name node, run_bindKey_ne Binding.nodes fun b nodes => { b with nodes }⟩

theorem resolves_bindVar (v w : Var) : (bindVar v.name w).Resolves b fun c => c.Fills [.var v.name] [] := by
  refine ⟨(establishes_bindVar v.name w).imp fun c h => ⟨List.forall_mem_singleton.mpr ?_, nofun⟩,
    run_bindKey_ne Binding.vars fun b vars => { b with vars }⟩
  obtain ⟨_, hbound, -⟩ := h
  exact Option.isSome_iff_exists.mpr ⟨_, hbound⟩

end MatchM

/-! ## Matching -/

section

open MatchM

variable {b : Binding}

theorem resolves_matchDType (p t : ScalarType) : (matchDType p t).Resolves b fun c => c.Fills [] (OpenField.ofDType p) := by
  refine ⟨(establishes_matchDType p t).imp fun c h => ⟨nofun, fun f hf => ?_⟩, ?_⟩
  · obtain ⟨dtype, hbound, -⟩ := h
    cases p with
    | known => cases hf
    | hole id =>
      rw [List.mem_singleton.mp hf]
      exact ⟨dtype, hbound⟩
  · cases t with
    | hole => cases p <;> exact run_throw_ne (e := .form) nofun
    | known dtype =>
      cases p with
      | known expected => exact run_check_ne
      | hole id => exact run_bindKey_ne Binding.dtypes fun b dtypes => { b with dtypes }

theorem resolves_matchScope (p t : Slot MemoryScope) : (matchScope p t).Resolves b fun c => c.Fills [] (OpenField.ofScope p) := by
  refine ⟨(establishes_matchScope p t).imp fun c h => ⟨nofun, fun f hf => ?_⟩, ?_⟩
  · cases h with
    | hole h =>
      rw [List.mem_singleton.mp hf]
      exact ⟨_, h⟩
    | tile h =>
      rw [List.mem_singleton.mp hf]
      exact ⟨_, h⟩
    | @known scope hclosed =>
      cases scope with
      | register slot =>
        cases slot with
        | known => cases hf
        | hole id => exact absurd rfl (hclosed id)
      | _ => cases hf
  · unfold matchScope
    split
    · exact run_throw_ne nofun
    · split
      · exact run_bindKey_ne Binding.scopes fun b scopes => { b with scopes }
      · split
        · exact run_bindKey_ne Binding.tiles fun b tiles => { b with tiles }
        · exact run_throw_ne nofun
      · exact run_check_ne

theorem resolves_matchAxes (ps ts : List Var) :
    (matchAxes ps ts).Resolves b fun c => c.Fills (ps.map fun v => .var v.name) [] := by
  induction ps generalizing b ts with
  | nil =>
    cases ts with
    | nil => exact resolves_pure fun _ => .nil
    | cons => exact resolves_throw nofun
  | cons p ps ih =>
    cases ts with
    | nil => exact resolves_throw nofun
    | cons t ts => exact ((resolves_bindVar p t).seq fun c => ih ts).imp fun c h => h.1.append h.2

/-- An occurrence of a variable is compared only. -/
theorem resolves_matchVar (v w : Var) : (matchVar v w).Resolves b fun c => c.Fills [] [] := by
  have hcheck (condition : Bool) : (check condition).Resolves b fun c => c.Fills [] [] := resolves_check fun _ => .nil
  unfold Resolves Establishes
  rw [run_matchVar]
  cases b.vars.lookup v.name with
  | none => exact hcheck _
  | some bound => exact hcheck _

theorem resolves_matchExprs {ps ts : List Expr} {P : Binding → Prop}
    (h : ps.length = ts.length → (matchEach ps ts).Resolves b P) : (matchExprs ps ts).Resolves b P := by
  rw [matchExprs]
  split_ifs with hlength
  · exact h (eq_of_beq hlength)
  · exact resolves_of_eq_throw rfl

mutual

theorem resolves_matchExpr (p t : Expr) {b : Binding} : (matchExpr p t).Resolves b (Binding.Covers · p t) := by
  cases p with
  | any hole =>
    rw [matchExpr]
    exact (resolves_bindExpr hole t).imp fun c h => .of_children h .nil rfl
  | anyCompute rank allowReduce =>
    cases t with
    | compute name shape axes value =>
      rw [matchExpr]
      exact .guarded (resolves_check fun c => .of_children .nil .nil rfl)
    | _ => exact resolves_of_eq_throw (by simp only [matchExpr])
  | anyReduce kind =>
    cases t with
    | reduce kind' shape axes value =>
      rw [matchExpr]
      exact resolves_check fun c => .of_children .nil .nil rfl
    | _ => exact resolves_of_eq_throw (by simp only [matchExpr])
  | var v =>
    cases t with
    | var w =>
      rw [matchExpr]
      exact (resolves_matchVar v w).imp fun c h => .of_children h .nil rfl
    | _ => exact resolves_of_eq_throw (by simp only [matchExpr])
  | const value dtype =>
    cases t with
    | const value' dtype' =>
      rw [matchExpr]
      exact resolves_check fun c => .of_children .nil .nil rfl
    | _ => exact resolves_of_eq_throw (by simp only [matchExpr])
  | unary op arg =>
    cases t with
    | unary op' arg' =>
      rw [matchExpr]
      exact .guarded ((resolves_matchExpr arg arg').imp fun c h => .of_children h.fills (.cons h.finds .nil) rfl)
    | _ => exact resolves_of_eq_throw (by simp only [matchExpr])
  | binary op lhs rhs =>
    cases t with
    | binary op' lhs' rhs' =>
      rw [matchExpr]
      exact .guarded (((resolves_matchExpr lhs lhs').seq fun _ => resolves_matchExpr rhs rhs').imp fun c h =>
        .of_children (h.1.fills.append h.2.fills) (.cons h.1.finds (.cons h.2.finds .nil)) rfl)
    | _ => exact resolves_of_eq_throw (by simp only [matchExpr])
  | letIn v value body =>
    cases t with
    | letIn v' value' body' =>
      rw [matchExpr]
      exact ((resolves_matchExpr value value').seq fun _ => (resolves_bindVar v v').seq fun _ =>
        resolves_matchExpr body body').imp fun c h => .of_children
          (h.1.fills.append (h.2.1.append h.2.2.fills)) (.cons h.1.finds (.cons h.2.2.finds .nil)) rfl
    | _ => exact resolves_of_eq_throw (by simp only [matchExpr])
  | ite cond thenE elseE =>
    cases t with
    | ite cond' thenE' elseE' =>
      rw [matchExpr]
      exact ((resolves_matchExpr cond cond').seq fun _ => (resolves_matchExpr thenE thenE').seq fun _ =>
        resolves_matchExpr elseE elseE').imp fun c h => .of_children
          (h.1.fills.append (h.2.1.fills.append h.2.2.fills))
          (.cons h.1.finds (.cons h.2.1.finds (.cons h.2.2.finds .nil))) rfl
    | _ => exact resolves_of_eq_throw (by simp only [matchExpr])
  | element base indices =>
    cases t with
    | element base' indices' =>
      rw [matchExpr]
      exact ((resolves_matchExpr base base').seq fun _ => resolves_matchExprs (resolves_matchEach indices indices')).imp
        fun c h => .of_children (h.1.fills.append h.2.fills) (.cons h.1.finds h.2.finds) rfl
    | _ => exact resolves_of_eq_throw (by simp only [matchExpr])
  | call func args =>
    cases t with
    | call func' args' =>
      rw [matchExpr]
      exact .guarded ((resolves_matchExprs (resolves_matchEach args args')).imp fun c h =>
        .of_children h.fills h.finds rfl)
    | _ => exact resolves_of_eq_throw (by simp only [matchExpr])
  | cast target arg =>
    cases t with
    | cast target' arg' =>
      rw [matchExpr]
      exact ((resolves_matchTy target target').seq fun _ => resolves_matchExpr arg arg').imp fun c h =>
        .of_children (h.1.append h.2.fills) (.cons h.2.finds .nil) rfl
    | _ => exact resolves_of_eq_throw (by simp only [matchExpr])
  | deref arg =>
    cases t with
    | deref arg' =>
      rw [matchExpr]
      exact (resolves_matchExpr arg arg').imp fun c h => .of_children h.fills (.cons h.finds .nil) rfl
    | _ => exact resolves_of_eq_throw (by simp only [matchExpr])
  | addr arg =>
    cases t with
    | addr arg' =>
      rw [matchExpr]
      exact (resolves_matchExpr arg arg').imp fun c h => .of_children h.fills (.cons h.finds .nil) rfl
    | _ => exact resolves_of_eq_throw (by simp only [matchExpr])
  | ref arg =>
    cases t with
    | ref arg' =>
      rw [matchExpr]
      exact (resolves_matchExpr arg arg').imp fun c h => .of_children h.fills (.cons h.finds .nil) rfl
    | _ => exact resolves_of_eq_throw (by simp only [matchExpr])
  | scalarInput name dtype =>
    cases t with
    | scalarInput name' dtype' =>
      rw [matchExpr]
      exact ((resolves_matchDType dtype dtype').seq fun _ => resolves_bindNode name _).imp fun c h =>
        .of_named rfl (h.1.node h.2) .nil h.2 rfl
    | _ => exact resolves_of_eq_throw (by simp only [matchExpr])
  | tensorInput name dtype shape =>
    cases t with
    | tensorInput name' dtype' shape' =>
      rw [matchExpr]
      exact ((resolves_matchDType dtype dtype').seq fun _ => (resolves_matchShape shape shape').seq fun _ =>
        resolves_bindNode name _).imp fun c h =>
          .of_named rfl ((h.1.append h.2.1.fills).node h.2.2) h.2.1.finds h.2.2 rfl
    | _ => exact resolves_of_eq_throw (by simp only [matchExpr])
  | compute name shape axes value =>
    cases t with
    | compute name' shape' axes' value' =>
      rw [matchExpr]
      exact ((resolves_matchExprs (resolves_matchEach shape shape')).seq fun _ => (resolves_matchAxes axes axes').seq
        fun _ => (resolves_matchExpr value value').seq fun _ => resolves_bindNode name _).imp fun c h =>
          .of_named rfl (h.1.fills.append (h.2.1.append (h.2.2.1.fills.node h.2.2.2)))
            (h.1.finds.append (.cons h.2.2.1.finds .nil)) h.2.2.2 rfl
    | _ => exact resolves_of_eq_throw (by simp only [matchExpr])
  | reduce kind shape axes value =>
    cases t with
    | reduce kind' shape' axes' value' =>
      rw [matchExpr]
      exact .guarded (((resolves_matchExprs (resolves_matchEach shape shape')).seq fun _ =>
        (resolves_matchAxes axes axes').seq fun _ => resolves_matchExpr value value').imp fun c h => .of_children
          (h.1.fills.append (h.2.1.append h.2.2.fills)) (h.1.finds.append (.cons h.2.2.finds .nil)) rfl)
    | _ => exact resolves_of_eq_throw (by simp only [matchExpr])
termination_by structural p

theorem resolves_matchEach (ps ts : List Expr) {b : Binding} (hlength : ps.length = ts.length) :
    (matchEach ps ts).Resolves b (Binding.CoversAll · ps ts) := by
  cases ps with
  | nil =>
    cases ts with
    | nil =>
      rw [matchEach_nil]
      exact resolves_pure fun _ => ⟨.nil, .nil⟩
    | cons => cases hlength
  | cons p ps =>
    cases ts with
    | nil => cases hlength
    | cons t ts =>
      rw [matchEach]
      exact ((resolves_matchExpr p t).seq fun _ => resolves_matchEach ps ts (Nat.succ.inj hlength)).imp
        fun c h => ⟨h.1.fills.append h.2.fills, .cons h.1.finds h.2.finds⟩
termination_by structural ps

theorem resolves_matchShape (p t : Option (List Expr)) {b : Binding} :
    (matchShape p t).Resolves b (Binding.CoversShape · p t) := by
  cases p with
  | none =>
    rw [matchShape]
    exact resolves_pure fun _ => ⟨.nil, .nil⟩
  | some ps =>
    cases t with
    | none => exact resolves_of_eq_throw (by simp only [matchShape])
    | some ts =>
      rw [matchShape]
      exact (resolves_matchExprs (resolves_matchEach ps ts)).imp fun c h => ⟨h.fills, h.finds⟩
termination_by structural p

theorem resolves_matchTy (p t : Ty) {b : Binding} :
    (matchTy p t).Resolves b fun c => c.Fills p.placeholders p.openFields := by
  cases p with
  | scalar dtype =>
    cases t with
    | scalar dtype' =>
      rw [matchTy]
      exact resolves_matchDType dtype dtype'
    | _ => exact resolves_of_eq_throw (by simp only [matchTy])
  | tensor type =>
    cases t with
    | tensor type' =>
      rw [matchTy]
      exact resolves_matchTensorType type type'
    | _ => exact resolves_of_eq_throw (by simp only [matchTy])
  | tensorPointer type =>
    cases t with
    | tensorPointer type' =>
      rw [matchTy]
      exact resolves_matchTensorType type type'
    | _ => exact resolves_of_eq_throw (by simp only [matchTy])
  | pointer base =>
    cases t with
    | pointer base' =>
      rw [matchTy]
      exact resolves_matchTy base base'
    | _ => exact resolves_of_eq_throw (by simp only [matchTy])
  | reference base =>
    cases t with
    | reference base' =>
      rw [matchTy]
      exact resolves_matchTy base base'
    | _ => exact resolves_of_eq_throw (by simp only [matchTy])
  | void =>
    cases t with
    | void =>
      rw [matchTy]
      exact resolves_pure fun _ => .nil
    | _ => exact resolves_of_eq_throw (by simp only [matchTy])
termination_by structural p

theorem resolves_matchTensorType (p t : TensorType) {b : Binding} :
    (matchTensorType p t).Resolves b fun c => c.Fills p.placeholders p.openFields := by
  obtain ⟨memory, dtype, shape, strides⟩ := p
  rw [matchTensorType.eq_def]
  refine ((resolves_matchScope memory t.scope).seq fun _ => (resolves_matchDType dtype t.dtype).seq fun _ =>
    (resolves_matchShape shape t.shape).seq fun c => ?_).imp
      (P := fun c => _ ∧ _ ∧ _ ∧ c.Fills (Expr.shapePlaceholders strides) (Expr.shapeOpenFields strides))
      fun c h => h.1.append (h.2.1.append (h.2.2.1.fills.append h.2.2.2))
  cases strides with
  | none => exact resolves_pure fun _ => .nil
  | some expected =>
    cases t.effectiveStrides? with
    | none => exact resolves_throw nofun
    | some actual => exact (resolves_matchExprs (resolves_matchEach expected actual)).imp fun c h => h.fills
termination_by structural p

end

/-! ## Required parameters -/

/-- Whether a node is a parameter of a task and the parameter has a type. -/
def Task.HasTyped (task : Task) (node : Expr) : Prop :=
  ∃ (index : Nat) (given : Expr), task.params[index]? = some given ∧ given.same node ∧ task.paramTypes[index]?.isSome

variable {task : Task} {b' : Binding} {pairs : List (Expr × Ty)}

/-- The step for one required parameter binds what its template leaves open and adds one position. -/
theorem fills_of_matchParam {param : Expr} {template : Ty} (hrun : (matchParam task param template).run b = .ok ((), b')) :
    b.Extends b' ∧ b'.params.length = b.params.length + 1 ∧
      ∀ c, b'.Extends c → c.Fills template.placeholders template.openFields := by
  obtain ⟨_, _, index, _, type, extended, _, _, _, _, _, hmatch, rfl⟩ := matchParam_inv hrun
  obtain ⟨hext, hparams, hfills⟩ := (resolves_matchTy template type).1 extended hmatch
  have hpush := extended.extends_params (extended.params ++ [index])
  exact ⟨hext.trans hpush, by simp [← hparams], fun c hc => hfills c (hpush.trans hc)⟩

theorem fills_of_matchParams (hrun : (pairs.forM fun x => matchParam task x.1 x.2).run b = .ok ((), b')) :
    b.Extends b' ∧ b'.params.length = b.params.length + pairs.length ∧
      ∀ x ∈ pairs, ∀ c, b'.Extends c → c.Fills x.2.placeholders x.2.openFields := by
  induction pairs generalizing b with
  | nil =>
    cases hrun
    exact ⟨.refl _, rfl, fun _ hx => (List.not_mem_nil hx).elim⟩
  | cons x pairs ih =>
    obtain ⟨c, hfirst, hrun⟩ := exists_of_run_bind hrun
    obtain ⟨hext, hlength, hfills⟩ := fills_of_matchParam hfirst
    obtain ⟨hext', hlength', hrest⟩ := ih hrun
    refine ⟨hext.trans hext', by rw [hlength', hlength, List.length_cons]; omega, ?_⟩
    exact List.forall_mem_cons.mpr ⟨fun d hd => hfills d (hext'.trans hd), hrest⟩

/-- A required parameter whose node is bound is missing only if the node is no parameter with a type. -/
theorem not_hasTyped_of_matchParam {param : Expr} {template : Ty} {name : String} {node : Expr}
    (hrun : (matchParam task param template).run b = .error .missingParam) (hname : param.nodeName? = some name)
    (hnode : b.node? name = some node) : ¬ task.HasTyped node := by
  rintro ⟨i, given, hgiven, hsame, htyped⟩
  rw [run_matchParam] at hrun
  cases hindex : task.paramIndex? node with
  | none =>
    have hnone := List.findIdx?_eq_none_iff.mp hindex given (List.mem_of_getElem? hgiven)
    rw [hsame] at hnone
    cases hnone
  | some index =>
    obtain ⟨_, -, hfirst⟩ := List.findIdx?_eq_some_iff_getElem.mp hindex
    -- the first such parameter has a type if any has one
    have hle : index ≤ i := by
      by_contra hlt
      obtain ⟨hi, rfl⟩ := List.getElem?_eq_some_iff.mp hgiven
      exact hfirst i (by omega) hsame
    have hlength : index < task.paramTypes.length := by
      have hi : i < task.paramTypes.length := by simpa using htyped
      omega
    simp only [hname, Option.bind_some, hnode, hindex, List.getElem?_eq_getElem hlength] at hrun
    cases hmatch : (matchTy template task.paramTypes[index]).run b with
    | error e =>
      rw [hmatch] at hrun
      cases hrun
    | ok r =>
      rw [hmatch] at hrun
      cases hrun

/-- Steps that report a missing parameter do so at one of the required parameters. -/
theorem exists_of_matchParams_eq_error (hrun : (pairs.forM fun x => matchParam task x.1 x.2).run b = .error .missingParam) :
    ∃ x ∈ pairs, ∃ c, b.Extends c ∧ (matchParam task x.1 x.2).run c = .error .missingParam := by
  induction pairs generalizing b with
  | nil => cases hrun
  | cons x pairs ih =>
    rcases run_bind_eq_error_iff.mp hrun with hfirst | ⟨c, hfirst, hrest⟩
    · exact ⟨x, List.mem_cons_self, b, .refl b, hfirst⟩
    · obtain ⟨y, hy, d, hd, hfails⟩ := ih hrest
      exact ⟨y, List.mem_cons_of_mem x hy, d, (fills_of_matchParam hfirst).1.trans hd, hfails⟩

end

/-! ## Tasks -/

theorem TaskPattern.exists_nodeName?_of_paramFault? {declared : List String} {index : Nat} {params : List Expr}
    (h : paramFault? declared index params = none) {param : Expr} (hparam : param ∈ params) :
    ∃ name, param.nodeName? = some name := by
  induction params generalizing index with
  | nil => cases hparam
  | cons first params ih =>
    unfold paramFault? at h
    split at h
    · cases h
    · rename_i name hname
      split_ifs at h
      rcases List.mem_cons.mp hparam with rfl | hparam
      · exact ⟨name, hname⟩
      · exact ih h hparam

/-- The required parameters of a valid pattern have names. -/
theorem TaskPattern.exists_nodeName?_of_mem_requiredParams {pattern : TaskPattern} (hvalid : pattern.fault? = none)
    {param : Expr} (hparam : param ∈ pattern.requiredParams) : ∃ name, param.nodeName? = some name := by
  unfold fault? at hvalid
  split_ifs at hvalid
  exact exists_nodeName?_of_paramFault? hvalid hparam

theorem TaskPattern.exists_zip_of_mem_requiredTypes {pattern : TaskPattern} (hvalid : pattern.fault? = none) {template : Ty}
    (htemplate : template ∈ pattern.requiredTypes) :
    ∃ x ∈ pattern.requiredParams.zip pattern.requiredTypes, x.2 = template := by
  rw [← List.mem_map, List.map_snd_zip (Nat.le_of_eq (length_requiredTypes hvalid))]
  exact htemplate

/-- The steps of a match: the definition, then the required parameters. -/
def matchSteps (pattern : TaskPattern) (task : Task) : MatchM Unit := do
  matchExpr pattern.computation task.computation.toExpr
  (pattern.requiredParams.zip pattern.requiredTypes).forM fun x => matchParam task x.1 x.2

section

variable {pattern : TaskPattern} {task : Task} {b : Binding}

theorem matchTask_eq (pattern : TaskPattern) (task : Task) : matchTask pattern task =
    if !pattern.worker.accepts task.worker then .error .worker
    else (matchSteps pattern task).run {} >>= fun r =>
      if !pattern.allowExtraTensors && task.hasOtherTensors r.2.params then .error .extraParam else .ok r.2 :=
  rfl

theorem run_matchSteps_of_eq_ok (h : matchTask pattern task = .ok b) : (matchSteps pattern task).run {} = .ok ((), b) := by
  rw [matchTask_eq] at h
  split_ifs at h
  cases hrun : (matchSteps pattern task).run {} with
  | error e =>
    rw [hrun] at h
    cases h
  | ok r =>
    rw [hrun] at h
    by_cases hextra : !pattern.allowExtraTensors && task.hasOtherTensors r.2.params
    · cases (if_pos hextra).symm.trans h
    · exact congrArg (fun c => Except.ok ((), c)) (Except.ok.inj ((if_neg hextra).symm.trans h))

theorem run_matchSteps_of_eq_missing (h : matchTask pattern task = .error .missingParam) :
    (matchSteps pattern task).run {} = .error .missingParam := by
  rw [matchTask_eq] at h
  split_ifs at h
  · cases h
  cases hrun : (matchSteps pattern task).run {} with
  | error e =>
    rw [hrun] at h
    exact congrArg Except.error (Except.error.inj h)
  | ok r =>
    rw [hrun] at h
    by_cases hextra : !pattern.allowExtraTensors && task.hasOtherTensors r.2.params
    · cases (if_pos hextra).symm.trans h
    · cases (if_neg hextra).symm.trans h

end

/-- A match binds every placeholder and every open field of a valid pattern, each named node to a node of the definition of
the task, and gives a position for each required parameter. If it reports a missing parameter, the definition has been
matched, and what one of the required parameters is bound to is no parameter of the task that has a type. -/
theorem fills_matchTask {pattern : TaskPattern} (hvalid : pattern.fault? = none) (task : Task) :
    (∀ b, matchTask pattern task = .ok b →
      (∀ id, .hole id ∈ pattern.placeholders → ∃ e, b.expr? (.any id) = some e) ∧
      (∀ name, .node name ∈ pattern.placeholders → ∃ node, b.node? name = some node) ∧
      (∀ field ∈ pattern.openFields, b.Knows field) ∧
      (∀ n ∈ pattern.computation.preorder, ∀ name, n.nodeName? = some name →
        ∃ node ∈ task.computation.toExpr.preorder, node.nodeName?.isSome ∧ StandsFor (b.node? name) node) ∧
      b.params.length = pattern.requiredParams.length) ∧
    (matchTask pattern task = .error .missingParam →
      ∃ b, (matchExpr pattern.computation task.computation.toExpr).run {} = .ok ((), b) ∧
        ∃ param ∈ pattern.requiredParams, ∃ name node, param.nodeName? = some name ∧ b.node? name = some node ∧
          ¬ task.HasTyped node) := by
  have hcomputation := resolves_matchExpr pattern.computation task.computation.toExpr (b := {})
  constructor
  · intro b h
    obtain ⟨matched, hmatch, hparams⟩ := MatchM.exists_of_run_bind (run_matchSteps_of_eq_ok h)
    obtain ⟨-, hempty, hcovers⟩ := hcomputation.1 matched hmatch
    obtain ⟨hext, hlength, hfills⟩ := fills_of_matchParams hparams
    have hcovers : b.Covers pattern.computation task.computation.toExpr := hcovers b hext
    have hall : b.Fills pattern.placeholders pattern.openFields := by
      refine hcovers.fills.append (Binding.fills_flatMap fun template htemplate => ?_)
      obtain ⟨x, hx, rfl⟩ := TaskPattern.exists_zip_of_mem_requiredTypes hvalid htemplate
      exact hfills x hx b (.refl b)
    refine ⟨fun id hid => Option.isSome_iff_exists.mp (hall.has _ hid),
      fun name hname => Option.isSome_iff_exists.mp (hall.has _ hname), hall.knows, hcovers.finds, ?_⟩
    rw [hlength, hempty, List.length_zip, TaskPattern.length_requiredTypes hvalid, Nat.min_self]
    exact Nat.zero_add _
  · intro h
    rcases MatchM.run_bind_eq_error_iff.mp (run_matchSteps_of_eq_missing h) with hfails | ⟨b, hmatch, hparams⟩
    · exact absurd hfails hcomputation.2
    · obtain ⟨x, hx, c, hext, hmissing⟩ := exists_of_matchParams_eq_error hparams
      have hparam : x.1 ∈ pattern.requiredParams := (List.of_mem_zip hx).1
      obtain ⟨-, -, hcovers⟩ := hcomputation.1 b hmatch
      -- a required parameter is a node of the definition
      obtain ⟨name, hname⟩ : ∃ name, x.1.nodeName? = some name :=
        TaskPattern.exists_nodeName?_of_mem_requiredParams hvalid hparam
      have hplaceholder := TaskPattern.node_mem_placeholders hvalid hparam hname
      obtain ⟨node, hnode⟩ := Option.isSome_iff_exists.mp ((hcovers b (.refl b)).fills.has _ hplaceholder)
      refine ⟨b, hmatch, x.1, hparam, name, node, hname, hnode, ?_⟩
      exact not_hasTyped_of_matchParam hmissing hname (hext.nodes name node hnode)

/-- The copy of four elements, of which only the result is a parameter. -/
def resultOnlyTask : Task :=
  { copyTask with params := [copyTask.computation.toExpr], paramTypes := copyTask.paramTypes.tail }

theorem matchTask_resultOnly : matchTask copyPattern resultOnlyTask = .error .missingParam := by
  cbv
  rw [matchEach_nil]
  cbv
  rw [matchEach_nil]
  cbv

/-- The copy of four elements binds all that the pattern of a copy leaves open. Where its input is no parameter, it is the
input that is missing. -/
theorem fills_matchTask_copy :
    copyPattern.fault? = none ∧
      (∃ b, matchTask copyPattern copyTask = .ok b ∧ (∃ e, b.expr? (.any 0) = some e) ∧ (∃ node, b.node? "in" = some node) ∧
        b.Knows (.dtype 0) ∧ b.Knows (.scope 0) ∧ b.params.length = 2) ∧
      matchTask copyPattern resultOnlyTask = .error .missingParam ∧
      ∃ b, (matchExpr copyPattern.computation resultOnlyTask.computation.toExpr).run {} = .ok ((), b) ∧
        ∃ param ∈ copyPattern.requiredParams, ∃ name node, param.nodeName? = some name ∧ b.node? name = some node ∧
          ¬ resultOnlyTask.HasTyped node := by
  have hvalid : copyPattern.fault? = none := by decide
  obtain ⟨hexprs, hnodes, hfields, -, hlength⟩ := (fills_matchTask hvalid copyTask).1 copyBinding matchTask_copy
  have hopen : copyPattern.openFields = [.dtype 0, .scope 0, .dtype 0, .scope 0, .dtype 0] := rfl
  refine ⟨hvalid, ⟨copyBinding, matchTask_copy, hexprs 0 ?_, hnodes "in" ?_, hfields _ ?_, hfields _ ?_, hlength⟩,
    matchTask_resultOnly, (fills_matchTask hvalid resultOnlyTask).2 matchTask_resultOnly⟩
  · decide
  · decide
  · rw [hopen]
    decide
  · rw [hopen]
    decide

end TensorCompiler
