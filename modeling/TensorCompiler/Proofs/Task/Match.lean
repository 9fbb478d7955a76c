import Mathlib
import TensorCompiler.Proofs.Task.Instance

/-! # Matching is sound

A binding that matching ends with makes the task an instance of the pattern. Matching only adds to the binding, and what
an instance needs of a binding is what its entries are, so it is enough that each step makes an instance under all
bindings that extend the one it ends with.
-/

namespace TensorCompiler

theorem Var.name_eq_of_same {v w : Var} (h : v.same w) : v.name = w.name := by
  obtain ⟨name, type⟩ := v
  obtain ⟨name', type'⟩ := w
  rw [Var.same, Bool.and_eq_true] at h
  exact eq_of_beq h.1

/-! ## Bindings that grow -/

section

variable {κ α : Type} [BEq κ] {xs ys zs : List (κ × α)}

/-- Whether the entries found in one list are found in the other. -/
def Keeps (xs ys : List (κ × α)) : Prop :=
  ∀ key value, xs.lookup key = some value → ys.lookup key = some value

theorem Keeps.refl (xs : List (κ × α)) : Keeps xs xs :=
  fun _ _ h => h

theorem Keeps.trans (h : Keeps xs ys) (h' : Keeps ys zs) : Keeps xs zs :=
  fun key value hxs => h' key value (h key value hxs)

/-- A bound key keeps its entry, which is equal to the value, and a free one is bound to the value. -/
theorem exists_of_bindKey [LawfulBEq κ] {same : α → α → Bool} {key : κ} {value : α} (h : bindKey same xs key value = .ok ys) :
    Keeps xs ys ∧ ∃ bound, ys.lookup key = some bound ∧ (bound = value ∨ same bound value) := by
  unfold bindKey at h
  cases hlookup : xs.lookup key with
  | some bound =>
    simp only [hlookup] at h
    split_ifs at h with hsame
    cases h
    exact ⟨Keeps.refl _, bound, hlookup, Or.inr hsame⟩
  | none =>
    simp only [hlookup] at h
    cases h
    refine ⟨?_, value, List.lookup_cons_self, Or.inl rfl⟩
    intro k v hk
    have hne : (k == key) = false := by
      apply beq_eq_false_iff_ne.mpr
      rintro rfl
      rw [hlookup] at hk
      cases hk
    rw [List.lookup_cons, hne]
    exact hk

end

namespace Binding

/-- Whether a binding has the entries of another one. -/
structure Extends (b c : Binding) : Prop where
  exprs : Keeps b.exprs c.exprs
  dtypes : Keeps b.dtypes c.dtypes
  scopes : Keeps b.scopes c.scopes
  tiles : Keeps b.tiles c.tiles
  nodes : Keeps b.nodes c.nodes
  vars : Keeps b.vars c.vars

variable {b c d : Binding}

theorem Extends.refl (b : Binding) : b.Extends b :=
  ⟨.refl _, .refl _, .refl _, .refl _, .refl _, .refl _⟩

theorem Extends.trans (h : b.Extends c) (h' : c.Extends d) : b.Extends d :=
  ⟨h.exprs.trans h'.exprs, h.dtypes.trans h'.dtypes, h.scopes.trans h'.scopes, h.tiles.trans h'.tiles,
    h.nodes.trans h'.nodes, h.vars.trans h'.vars⟩

theorem extends_params (b : Binding) (params : List Nat) : b.Extends { b with params } :=
  ⟨.refl _, .refl _, .refl _, .refl _, .refl _, .refl _⟩

end Binding

/-! ## Steps -/

namespace MatchM

/-- Whether a step that succeeds from `b` only adds to it, and `P` holds of what it ends with and all that extends that. -/
def Establishes (m : MatchM Unit) (b : Binding) (P : Binding → Prop) : Prop :=
  ∀ b', m.run b = .ok ((), b') → b.Extends b' ∧ b'.params = b.params ∧ ∀ c, b'.Extends c → P c

variable {m m' : MatchM Unit} {b b' : Binding} {P Q : Binding → Prop}

theorem exists_of_run_bind (h : (m >>= fun _ => m').run b = .ok ((), b')) :
    ∃ c, m.run b = .ok ((), c) ∧ m'.run c = .ok ((), b') := by
  rw [StateT.run_bind] at h
  cases hfirst : m.run b with
  | error e =>
    rw [hfirst] at h
    cases h
  | ok r =>
    rw [hfirst] at h
    exact ⟨r.2, rfl, h⟩

theorem Establishes.imp (h : m.Establishes b P) (himp : ∀ c, P c → Q c) : m.Establishes b Q := by
  intro b' hrun
  obtain ⟨hext, hparams, hP⟩ := h b' hrun
  exact ⟨hext, hparams, fun c hc => himp c (hP c hc)⟩

theorem establishes_pure (hP : ∀ c, P c) : (pure () : MatchM Unit).Establishes b P := by
  intro b' hrun
  cases hrun
  exact ⟨.refl _, rfl, fun c _ => hP c⟩

theorem establishes_throw (e : Mismatch) : (throw e : MatchM Unit).Establishes b P := by
  intro b' hrun
  cases hrun

theorem establishes_of_eq_throw (h : m = throw Mismatch.form) : m.Establishes b P :=
  h ▸ establishes_throw _

/-- Two steps one after the other; the second one starts from a binding that extends the first. -/
theorem Establishes.seq (h : m.Establishes b P) (h' : ∀ c, b.Extends c → P c → m'.Establishes c Q) :
    (m >>= fun _ => m').Establishes b fun c => P c ∧ Q c := by
  intro b' hrun
  obtain ⟨c, hfirst, hsecond⟩ := exists_of_run_bind hrun
  obtain ⟨hext, hparams, hP⟩ := h c hfirst
  obtain ⟨hext', hparams', hQ⟩ := h' c hext (hP c (.refl c)) b' hsecond
  exact ⟨hext.trans hext', hparams'.trans hparams, fun d hd => ⟨hP d (hext'.trans hd), hQ d hd⟩⟩

theorem establishes_check {condition : Bool} (h : condition = true → ∀ c, P c) : (check condition).Establishes b P := by
  unfold check
  split_ifs with hc
  · exact establishes_pure (h hc)
  · exact establishes_throw _

/-- A step that binds a key of one of the maps. -/
theorem establishes_bind {κ α : Type} [BEq κ] [LawfulBEq κ] {same : α → α → Bool} {key : κ} {value : α}
    (map : Binding → List (κ × α)) (put : Binding → List (κ × α) → Binding)
    (hput : ∀ xs, Keeps (map b) xs → b.Extends (put b xs) ∧ (put b xs).params = b.params)
    (hmap : ∀ xs c, (put b xs).Extends c → Keeps xs (map c)) :
    (do
      let b ← get
      let xs ← bindKey same (map b) key value
      set (put b xs) : MatchM Unit).Establishes b
        fun c => ∃ bound, (map c).lookup key = some bound ∧ (bound = value ∨ same bound value) := by
  intro b' hrun
  rw [StateT.run_bind, StateT.run_get, pure_bind, StateT.run_bind] at hrun
  cases hbind : bindKey same (map b) key value with
  | error e =>
    rw [hbind] at hrun
    cases hrun
  | ok xs =>
    rw [hbind] at hrun
    cases hrun
    obtain ⟨hkeeps, bound, hlookup, hsame⟩ := exists_of_bindKey hbind
    exact ⟨(hput xs hkeeps).1, (hput xs hkeeps).2, fun c hc => ⟨bound, hmap xs c hc key bound hlookup, hsame⟩⟩

theorem establishes_bindExpr (hole : Hole) (e : Expr) :
    (bindExpr hole e).Establishes b fun c => StandsFor (c.exprs.lookup hole) e :=
  establishes_bind Binding.exprs (fun b exprs => { b with exprs })
    (fun _ h => ⟨⟨h, .refl _, .refl _, .refl _, .refl _, .refl _⟩, rfl⟩) fun _ _ h => h.exprs

theorem establishes_bindNode (name : String) (node : Expr) :
    (bindNode name node).Establishes b fun c => StandsFor (c.node? name) node :=
  establishes_bind Binding.nodes (fun b nodes => { b with nodes })
    (fun _ h => ⟨⟨.refl _, .refl _, .refl _, .refl _, h, .refl _⟩, rfl⟩) fun _ _ h => h.nodes

/-- A value that is compared as it is: the key is bound to the value. -/
theorem lookup_of_beq {κ α : Type} [BEq κ] [BEq α] [LawfulBEq α] {xs : List (κ × α)} {key : κ} {value : α}
    (h : ∃ bound, xs.lookup key = some bound ∧ (bound = value ∨ bound == value)) : xs.lookup key = some value := by
  obtain ⟨bound, hlookup, rfl | hsame⟩ := h
  · exact hlookup
  · rw [hlookup, eq_of_beq hsame]

theorem establishes_bindDType (hole : Hole) (dtype : DType) :
    (bindDType hole dtype).Establishes b fun c => c.dtypes.lookup hole = some dtype :=
  (establishes_bind Binding.dtypes (fun b dtypes => { b with dtypes })
    (fun _ h => ⟨⟨.refl _, h, .refl _, .refl _, .refl _, .refl _⟩, rfl⟩) fun _ _ h => h.dtypes).imp
    fun _ => lookup_of_beq

theorem establishes_bindScope (hole : Hole) (scope : MemoryScope) :
    (bindScope hole scope).Establishes b fun c => c.scopes.lookup hole = some scope :=
  (establishes_bind Binding.scopes (fun b scopes => { b with scopes })
    (fun _ h => ⟨⟨.refl _, .refl _, h, .refl _, .refl _, .refl _⟩, rfl⟩) fun _ _ h => h.scopes).imp
    fun _ => lookup_of_beq

theorem establishes_bindTile (hole : Hole) (tile : RegisterTile) :
    (bindTile hole tile).Establishes b fun c => c.tiles.lookup hole = some tile :=
  (establishes_bind Binding.tiles (fun b tiles => { b with tiles })
    (fun _ h => ⟨⟨.refl _, .refl _, .refl _, h, .refl _, .refl _⟩, rfl⟩) fun _ _ h => h.tiles).imp
    fun _ => lookup_of_beq

/-- A variable is bound to one of its name. -/
theorem establishes_bindVar (name : String) (v : Var) :
    (bindVar name v).Establishes b fun c => ∃ u, c.vars.lookup name = some u ∧ u.name = v.name := by
  refine (establishes_bind Binding.vars (fun b vars => { b with vars })
    (fun _ h => ⟨⟨.refl _, .refl _, .refl _, .refl _, .refl _, h⟩, rfl⟩) fun _ _ h => h.vars).imp ?_
  rintro c ⟨u, hlookup, rfl | hsame⟩
  · exact ⟨u, hlookup, rfl⟩
  · exact ⟨u, hlookup, Var.name_eq_of_same hsame⟩

/-- A condition that a step checks. -/
theorem Establishes.guarded {condition : Bool} (h : condition = true → m.Establishes b P) :
    (check condition >>= fun _ => m).Establishes b P := by
  cases condition with
  | true => exact h rfl
  | false =>
    intro b' hrun
    cases hrun

end MatchM

/-! ## Renaming -/

namespace Renaming

/-- Whether the variables of a scope are bound as it pairs them, and no two of the task have one name. -/
structure Fits (scope : Renaming) (b : Binding) : Prop where
  nodup : (scope.map Prod.snd).Nodup
  bound : ∀ x ∈ scope, ∃ u, b.vars.lookup x.1 = some u ∧ u.name = x.2

variable {scope : Renaming} {b c : Binding} {v w : String} {axes axes' : List Var}

theorem Fits.extends (h : scope.Fits b) (hext : b.Extends c) : scope.Fits c where
  nodup := h.nodup
  bound := by
    intro x hx
    obtain ⟨u, hlookup, hname⟩ := h.bound x hx
    exact ⟨u, hext.vars _ _ hlookup, hname⟩

theorem map_fst_enter (h : axes.length = axes'.length) :
    (scope.enter axes axes').map Prod.fst = (axes.map Var.name).reverse ++ scope.map Prod.fst := by
  rw [enter, List.map_append, List.map_reverse, List.map_fst_zip (by simp [h])]

theorem map_snd_enter (h : axes.length = axes'.length) :
    (scope.enter axes axes').map Prod.snd = (axes'.map Var.name).reverse ++ scope.map Prod.snd := by
  rw [enter, List.map_append, List.map_reverse, List.map_snd_zip (by simp [h])]

theorem Fits.enter (h : scope.Fits b) (haxes : b.RenamesAll axes axes')
    (hnames : ScopeRule.unshadowed.binds (scope.map Prod.snd) (axes'.map Var.name)) : (scope.enter axes axes').Fits b where
  nodup := by
    rw [map_snd_enter haxes.length_eq]
    exact (List.nodup_reverse.mpr hnames.1).append h.nodup (List.disjoint_reverse_left.mpr hnames.2)
  bound := by
    intro x hx
    rcases List.mem_append.mp hx with hx | hx
    · have hzip : List.Forall₂ (fun p q => ∃ u, b.vars.lookup p = some u ∧ u.name = q) (axes.map Var.name)
          (axes'.map Var.name) := by
        rw [List.forall₂_map_left_iff, List.forall₂_map_right_iff]
        exact haxes
      exact List.forall₂_zip hzip (List.mem_reverse.mp hx)
    · exact h.bound x hx

/-- In a scope without shadowing a variable that is bound has the partner that the scope gives it. -/
theorem renames_of_mem (hnodup : (scope.map Prod.snd).Nodup) (hmem : v ∈ scope.map Prod.fst)
    (h : ∀ x ∈ scope, x.1 = v → x.2 = w) : scope.Renames v w := by
  induction scope with
  | nil => cases hmem
  | cons x scope ih =>
    obtain ⟨p, q⟩ := x
    rw [List.map_cons, List.nodup_cons] at hnodup
    by_cases hv : v = p
    · subst hv
      have hq : q = w := h (v, q) List.mem_cons_self rfl
      exact hq ▸ .here
    · have htail : v ∈ scope.map Prod.fst := by
        rw [List.map_cons, List.mem_cons] at hmem
        exact hmem.resolve_left hv
      have hscope : ∀ x ∈ scope, x.1 = v → x.2 = w := fun x hx => h x (List.mem_cons_of_mem _ hx)
      have hw : w ≠ q := by
        rintro rfl
        obtain ⟨x, hx, hxv⟩ := List.mem_map.mp htail
        exact hnodup.1 (List.mem_map.mpr ⟨x, hx, hscope x hx hxv⟩)
      exact .there hv hw (ih hnodup.2 htail hscope)

end Renaming

/-! ## Matching -/

section

open MatchM

variable {scope : Renaming} {b : Binding}

theorem establishes_matchDType (p t : ScalarType) : (matchDType p t).Establishes b fun c => c.IsDType p t := by
  cases t with
  | hole id => cases p <;> exact establishes_throw _
  | known dtype =>
    cases p with
    | hole id => exact (establishes_bindDType id dtype).imp fun c h => ⟨dtype, h, rfl⟩
    | known expected =>
      apply establishes_check
      intro hsame c
      exact ⟨expected, rfl, by rw [eq_of_beq hsame]⟩

theorem establishes_matchAxes (ps ts : List Var) : (matchAxes ps ts).Establishes b fun c => c.RenamesAll ps ts := by
  induction ps generalizing b ts with
  | nil =>
    cases ts with
    | nil => exact establishes_pure fun _ => .nil
    | cons => exact establishes_throw _
  | cons p ps ih =>
    cases ts with
    | nil => exact establishes_throw _
    | cons t ts => exact ((establishes_bindVar p.name t).seq fun c _ _ => ih ts).imp fun c h => .cons h.1 h.2

/-- An occurrence of a bound variable is that of its partner. -/
theorem establishes_matchVar {v w : Var} (hv : v.name ∈ scope.map Prod.fst) (hb : scope.Fits b) :
    (matchVar v w).Establishes b fun _ => scope.Renames v.name w.name := by
  obtain ⟨x, hx, hxv⟩ := List.mem_map.mp hv
  obtain ⟨u, hlookup, -⟩ := hb.bound x hx
  rw [hxv] at hlookup
  have hcheck : (matchVar v w).run b = (check (u.name == w.name)).run b := by
    unfold matchVar
    rw [StateT.run_bind, StateT.run_get, pure_bind, hlookup]
  have hnames : u.name = w.name → scope.Renames v.name w.name := by
    intro hname
    refine Renaming.renames_of_mem hb.nodup hv ?_
    intro y hy hyv
    obtain ⟨u', hlookup', hname'⟩ := hb.bound y hy
    rw [hyv, hlookup] at hlookup'
    cases hlookup'
    rw [← hname', hname]
  intro b' hrun
  exact establishes_check (fun h _ => hnames (eq_of_beq h)) b' (hcheck ▸ hrun)

theorem establishes_matchScope (p t : Slot MemoryScope) : (matchScope p t).Establishes b fun c => c.IsScope p t := by
  cases t with
  | hole id => exact establishes_throw _
  | known found =>
    have hknown {expected : MemoryScope} (hopen : ∀ id, expected ≠ .register (.hole id)) :
        (check (expected == found)).Establishes b fun c => c.IsScope (.known expected) (.known found) := by
      apply establishes_check
      intro hsame c
      exact eq_of_beq hsame ▸ .known hopen
    cases p with
    | hole id => exact (establishes_bindScope id found).imp fun c h => .hole h
    | known expected =>
      cases expected with
      | register slot =>
        cases slot with
        | hole id =>
          cases found with
          | register slot =>
            cases slot with
            | known tile => exact (establishes_bindTile id tile).imp fun c h => .tile h
            | hole => exact establishes_throw _
          | _ => exact establishes_throw _
        | known tile => exact hknown (by simp)
      | _ => exact hknown (by simp)

theorem scoped_scaledStride {rule : ScopeRule} {names : List String} {stride extent : Expr}
    (hstride : stride.Scoped rule names) (hextent : extent.Scoped rule names) :
    (TensorType.scaledStride stride extent).Scoped rule names := by
  unfold TensorType.scaledStride
  split
  · exact trivial
  · exact ⟨hstride, hextent⟩

theorem scoped_rowMajorStrides {rule : ScopeRule} {names : List String} {shape : List Expr}
    (h : Expr.AllScoped rule names shape) : Expr.AllScoped rule names (TensorType.rowMajorStrides shape) := by
  induction shape with
  | nil => exact trivial
  | cons e shape ih =>
    cases shape with
    | nil => exact ⟨trivial, trivial⟩
    | cons extent shape =>
      have hrest := ih h.2
      refine ⟨?_, hrest⟩
      cases hstrides : TensorType.rowMajorStrides (extent :: shape) with
      | nil => exact scoped_scaledStride trivial h.2.1
      | cons stride strides =>
        rw [hstrides] at hrest
        exact scoped_scaledStride hrest.1 h.2.1

theorem scoped_shape {rule : ScopeRule} {names : List String} {type : TensorType} (h : type.Scoped rule names) :
    Expr.ShapeScoped rule names type.shape := by
  obtain ⟨memory, dtype, shape, strides⟩ := type
  exact h.1

theorem scoped_effectiveStrides? {rule : ScopeRule} {names : List String} {type : TensorType}
    (h : type.Scoped rule names) : Expr.ShapeScoped rule names type.effectiveStrides? := by
  obtain ⟨memory, dtype, shape, strides⟩ := type
  cases strides with
  | some strides => exact h.2
  | none =>
    cases shape with
    | none => exact trivial
    | some shape => exact scoped_rowMajorStrides h.1

theorem matchEach_nil : matchEach [] [] = pure () := by
  rw [matchEach]
  simp

theorem establishes_matchExprs {ps ts : List Expr} {P : Binding → Prop}
    (h : ps.length = ts.length → (matchEach ps ts).Establishes b P) : (matchExprs ps ts).Establishes b P := by
  rw [matchExprs]
  split_ifs with hlength
  · exact h (eq_of_beq hlength)
  · exact establishes_throw _

mutual

theorem establishes_matchExpr (p t : Expr) {scope : Renaming} {b : Binding}
    (hp : p.Scoped .closed (scope.map Prod.fst)) (ht : t.Scoped .unshadowed (scope.map Prod.snd)) (hb : scope.Fits b) :
    (matchExpr p t).Establishes b (Expr.Instance · scope p t) := by
  cases p with
  | any hole =>
    rw [matchExpr]
    exact (establishes_bindExpr hole t).imp fun c h => .any h
  | anyCompute rank allowReduce =>
    cases t with
    | compute name shape axes value =>
      rw [matchExpr]
      refine Establishes.guarded fun hrank => establishes_check fun hreduce c => .anyCompute ?_ ?_
      · rintro n rfl
        exact (by simpa using hrank : n = axes.length).symm
      · rintro rfl
        simpa using hreduce
    | _ => exact establishes_of_eq_throw (by simp only [matchExpr])
  | unary op arg =>
    cases t with
    | unary op' arg' =>
      rw [matchExpr]
      apply Establishes.guarded
      intro hop
      cases eq_of_beq hop
      exact (establishes_matchExpr arg arg' hp ht hb).imp fun c h => .unary h
    | _ => exact establishes_of_eq_throw (by simp only [matchExpr])
  | anyReduce kind =>
    cases t with
    | reduce kind' shape axes value =>
      rw [matchExpr]
      apply establishes_check
      intro hkind c
      refine .anyReduce ?_
      rintro k rfl
      exact (by simpa using hkind : k = kind').symm
    | _ => exact establishes_of_eq_throw (by simp only [matchExpr])
  | var v =>
    cases t with
    | var w =>
      rw [matchExpr]
      exact (establishes_matchVar hp hb).imp fun c h => .var h
    | _ => exact establishes_of_eq_throw (by simp only [matchExpr])
  | const value dtype =>
    cases t with
    | const value' dtype' =>
      rw [matchExpr]
      apply establishes_check
      intro hsame c
      obtain ⟨hvalue, hdtype⟩ := Bool.and_eq_true_iff.mp hsame
      cases eq_of_beq hdtype
      exact .const hvalue
    | _ => exact establishes_of_eq_throw (by simp only [matchExpr])
  | binary op lhs rhs =>
    cases t with
    | binary op' lhs' rhs' =>
      rw [matchExpr]
      apply Establishes.guarded
      intro hop
      cases eq_of_beq hop
      have hlhs := establishes_matchExpr lhs lhs' hp.1 ht.1 hb
      have hrhs := fun c hc => establishes_matchExpr rhs rhs' hp.2 ht.2 (hb.extends (c := c) hc)
      exact (hlhs.seq fun c hc _ => hrhs c hc).imp fun c h => .binary h.1 h.2
    | _ => exact establishes_of_eq_throw (by simp only [matchExpr])
  | letIn v value body =>
    cases t with
    | letIn v' value' body' =>
      rw [matchExpr]
      have hvalue := establishes_matchExpr value value' hp.1 ht.1 hb
      have hbody (c : Binding) (hc : b.Extends c) (haxes : c.RenamesAll [v] [v']) :
          (matchExpr body body').Establishes c (Expr.Instance · (scope.enter [v] [v']) body body') :=
        establishes_matchExpr body body' hp.2.2 ht.2.2 ((hb.extends hc).enter haxes ht.2.1)
      have hbind (c : Binding) : (bindVar v.name v').Establishes c fun d => d.RenamesAll [v] [v'] :=
        (establishes_bindVar v.name v').imp fun d h => .cons h .nil
      exact (hvalue.seq fun c hc _ => (hbind c).seq fun d hd haxes => hbody d (hc.trans hd) haxes).imp
        fun c h => .letIn h.1 h.2.1 h.2.2
    | _ => exact establishes_of_eq_throw (by simp only [matchExpr])
  | ite cond thenE elseE =>
    cases t with
    | ite cond' thenE' elseE' =>
      rw [matchExpr]
      have hcond := establishes_matchExpr cond cond' hp.1 ht.1 hb
      have hthen := fun c hc => establishes_matchExpr thenE thenE' hp.2.1 ht.2.1 (hb.extends (c := c) hc)
      have helse := fun c hc => establishes_matchExpr elseE elseE' hp.2.2 ht.2.2 (hb.extends (c := c) hc)
      exact (hcond.seq fun c hc _ => (hthen c hc).seq fun d hd _ => helse d (hc.trans hd)).imp
        fun c h => .ite h.1 h.2.1 h.2.2
    | _ => exact establishes_of_eq_throw (by simp only [matchExpr])
  | element base indices =>
    cases t with
    | element base' indices' =>
      rw [matchExpr]
      have hbase := establishes_matchExpr base base' hp.1 ht.1 hb
      have hindices := fun c hc => establishes_matchExprs fun h =>
        establishes_matchEach indices indices' h hp.2 ht.2 (hb.extends (c := c) hc)
      exact (hbase.seq fun c hc _ => hindices c hc).imp fun c h => .element h.1 h.2
    | _ => exact establishes_of_eq_throw (by simp only [matchExpr])
  | call func args =>
    cases t with
    | call func' args' =>
      rw [matchExpr]
      apply Establishes.guarded
      intro hfunc
      cases eq_of_beq hfunc
      exact (establishes_matchExprs fun h => establishes_matchEach args args' h hp ht hb).imp fun c h => .call h
    | _ => exact establishes_of_eq_throw (by simp only [matchExpr])
  | cast target arg =>
    cases t with
    | cast target' arg' =>
      rw [matchExpr]
      have htarget := establishes_matchTy target target' hp.1 ht.1 hb
      have harg := fun c hc => establishes_matchExpr arg arg' hp.2 ht.2 (hb.extends (c := c) hc)
      exact (htarget.seq fun c hc _ => harg c hc).imp fun c h => .cast h.1 h.2
    | _ => exact establishes_of_eq_throw (by simp only [matchExpr])
  | deref arg =>
    cases t with
    | deref arg' =>
      rw [matchExpr]
      exact (establishes_matchExpr arg arg' hp ht hb).imp fun c h => .deref h
    | _ => exact establishes_of_eq_throw (by simp only [matchExpr])
  | addr arg =>
    cases t with
    | addr arg' =>
      rw [matchExpr]
      exact (establishes_matchExpr arg arg' hp ht hb).imp fun c h => .addr h
    | _ => exact establishes_of_eq_throw (by simp only [matchExpr])
  | ref arg =>
    cases t with
    | ref arg' =>
      rw [matchExpr]
      exact (establishes_matchExpr arg arg' hp ht hb).imp fun c h => .ref h
    | _ => exact establishes_of_eq_throw (by simp only [matchExpr])
  | scalarInput name dtype =>
    cases t with
    | scalarInput name' dtype' =>
      rw [matchExpr]
      exact ((establishes_matchDType dtype dtype').seq fun c _ _ => establishes_bindNode name _).imp
        fun c h => .scalarInput h.1 h.2
    | _ => exact establishes_of_eq_throw (by simp only [matchExpr])
  | tensorInput name dtype shape =>
    cases t with
    | tensorInput name' dtype' shape' =>
      rw [matchExpr]
      have hshape := fun c hc => establishes_matchShape shape shape' hp ht (hb.extends (c := c) hc)
      exact ((establishes_matchDType dtype dtype').seq fun c hc _ =>
        (hshape c hc).seq fun d _ _ => establishes_bindNode name _).imp fun c h => .tensorInput h.1 h.2.1 h.2.2
    | _ => exact establishes_of_eq_throw (by simp only [matchExpr])
  | compute name shape axes value =>
    cases t with
    | compute name' shape' axes' value' =>
      rw [matchExpr]
      have hshape := establishes_matchExprs fun h => establishes_matchEach shape shape' h hp.1 ht.1 hb
      have hvalue (c : Binding) (hc : b.Extends c) (haxes : c.RenamesAll axes axes') :=
        establishes_matchExpr value value' (Renaming.map_fst_enter haxes.length_eq ▸ hp.2.2)
          (Renaming.map_snd_enter haxes.length_eq ▸ ht.2.2) ((hb.extends hc).enter haxes ht.2.1)
      exact (hshape.seq fun c hc _ => (establishes_matchAxes axes axes').seq fun d hd haxes =>
        (hvalue d (hc.trans hd) haxes).seq fun _ _ _ => establishes_bindNode name _).imp
          fun c h => .compute h.1 h.2.1 h.2.2.1 h.2.2.2
    | _ => exact establishes_of_eq_throw (by simp only [matchExpr])
  | reduce kind shape axes value =>
    cases t with
    | reduce kind' shape' axes' value' =>
      rw [matchExpr]
      apply Establishes.guarded
      intro hkind
      cases eq_of_beq hkind
      have hshape := establishes_matchExprs fun h => establishes_matchEach shape shape' h hp.1 ht.1 hb
      have hvalue (c : Binding) (hc : b.Extends c) (haxes : c.RenamesAll axes axes') :=
        establishes_matchExpr value value' (Renaming.map_fst_enter haxes.length_eq ▸ hp.2.2)
          (Renaming.map_snd_enter haxes.length_eq ▸ ht.2.2) ((hb.extends hc).enter haxes ht.2.1)
      exact (hshape.seq fun c hc _ => (establishes_matchAxes axes axes').seq fun d hd haxes =>
        hvalue d (hc.trans hd) haxes).imp fun c h => .reduce h.1 h.2.1 h.2.2
    | _ => exact establishes_of_eq_throw (by simp only [matchExpr])
termination_by structural p

theorem establishes_matchEach (ps ts : List Expr) (hlength : ps.length = ts.length) {scope : Renaming} {b : Binding}
    (hp : Expr.AllScoped .closed (scope.map Prod.fst) ps) (ht : Expr.AllScoped .unshadowed (scope.map Prod.snd) ts)
    (hb : scope.Fits b) : (matchEach ps ts).Establishes b (Expr.Instances · scope ps ts) := by
  cases ps with
  | nil =>
    cases ts with
    | nil =>
      rw [matchEach_nil]
      exact establishes_pure fun _ => .nil
    | cons => cases hlength
  | cons p ps =>
    cases ts with
    | nil => cases hlength
    | cons t ts =>
      rw [matchEach]
      have hfirst := establishes_matchExpr p t hp.1 ht.1 hb
      have hrest := fun c hc => establishes_matchEach ps ts (Nat.succ.inj hlength) hp.2 ht.2 (hb.extends (c := c) hc)
      exact (hfirst.seq fun c hc _ => hrest c hc).imp fun c h => .cons h.1 h.2
termination_by structural ps

theorem establishes_matchShape (p t : Option (List Expr)) {scope : Renaming} {b : Binding}
    (hp : Expr.ShapeScoped .closed (scope.map Prod.fst) p) (ht : Expr.ShapeScoped .unshadowed (scope.map Prod.snd) t)
    (hb : scope.Fits b) : (matchShape p t).Establishes b (Expr.ShapeInstance · scope p t) := by
  cases p with
  | none =>
    rw [matchShape]
    exact establishes_pure fun _ => .opened
  | some ps =>
    cases t with
    | none => exact establishes_of_eq_throw (by simp only [matchShape])
    | some ts =>
      rw [matchShape]
      exact (establishes_matchExprs fun h => establishes_matchEach ps ts h hp ht hb).imp fun c h => .known h
termination_by structural p

theorem establishes_matchTy (p t : Ty) {scope : Renaming} {b : Binding}
    (hp : p.Scoped .closed (scope.map Prod.fst)) (ht : t.Scoped .unshadowed (scope.map Prod.snd)) (hb : scope.Fits b) :
    (matchTy p t).Establishes b (Ty.Instance · scope p t) := by
  cases p with
  | scalar dtype =>
    cases t with
    | scalar dtype' =>
      rw [matchTy]
      exact (establishes_matchDType dtype dtype').imp fun c h => .scalar h
    | _ => exact establishes_of_eq_throw (by simp only [matchTy])
  | tensor type =>
    cases t with
    | tensor type' =>
      rw [matchTy]
      exact (establishes_matchTensorType type type' hp ht hb).imp fun c h => .tensor h
    | _ => exact establishes_of_eq_throw (by simp only [matchTy])
  | tensorPointer type =>
    cases t with
    | tensorPointer type' =>
      rw [matchTy]
      exact (establishes_matchTensorType type type' hp ht hb).imp fun c h => .tensorPointer h
    | _ => exact establishes_of_eq_throw (by simp only [matchTy])
  | pointer base =>
    cases t with
    | pointer base' =>
      rw [matchTy]
      exact (establishes_matchTy base base' hp ht hb).imp fun c h => .pointer h
    | _ => exact establishes_of_eq_throw (by simp only [matchTy])
  | reference base =>
    cases t with
    | reference base' =>
      rw [matchTy]
      exact (establishes_matchTy base base' hp ht hb).imp fun c h => .reference h
    | _ => exact establishes_of_eq_throw (by simp only [matchTy])
  | void =>
    cases t with
    | void =>
      rw [matchTy]
      exact establishes_pure fun _ => .void
    | _ => exact establishes_of_eq_throw (by simp only [matchTy])
termination_by structural p

theorem establishes_matchTensorType (p t : TensorType) {scope : Renaming} {b : Binding}
    (hp : p.Scoped .closed (scope.map Prod.fst)) (ht : t.Scoped .unshadowed (scope.map Prod.snd)) (hb : scope.Fits b) :
    (matchTensorType p t).Establishes b (TensorType.Instance · scope p t) := by
  have hactual := scoped_effectiveStrides? ht
  have ht := scoped_shape ht
  obtain ⟨memory, dtype, shape, strides⟩ := p
  obtain ⟨hshape, hstrides⟩ := hp
  have hshapes : ∀ c, b.Extends c → (matchShape shape t.shape).Establishes c (Expr.ShapeInstance · scope shape t.shape) :=
    fun c hc => establishes_matchShape shape t.shape hshape ht (hb.extends hc)
  rw [matchTensorType.eq_def]
  refine ((establishes_matchScope memory t.scope).seq fun c hc _ => (establishes_matchDType dtype t.dtype).seq
    fun d hd _ => (hshapes d (hc.trans hd)).seq fun e he _ => ?_).imp
      (P := fun c => _ ∧ _ ∧ _ ∧ Expr.ShapeInstance c scope strides t.effectiveStrides?)
      fun c h => .mk h.1 h.2.1 h.2.2.1 h.2.2.2
  have hfits := hb.extends (hc.trans (hd.trans he))
  cases strides with
  | none => exact establishes_pure fun _ => .opened
  | some expected =>
    cases heffective : t.effectiveStrides? with
    | none => exact establishes_throw _
    | some actual =>
      rw [heffective] at hactual
      exact (establishes_matchExprs fun h => establishes_matchEach expected actual h hstrides hactual hfits).imp
        fun c h => .known h
termination_by structural p

end

end

/-! ## Required parameters -/

/-- Whether a parameter of a task is the required one: it is what the node of the pattern stands for, and its type is an
instance of the template. -/
def Task.Provides (task : Task) (b : Binding) (param : Expr) (template : Ty) (index : Nat) : Prop :=
  ∃ name node given type, param.nodeName? = some name ∧ b.node? name = some node ∧ task.params[index]? = some given ∧
    given.same node ∧ task.paramTypes[index]? = some type ∧ Ty.Instance b [] template type

section

variable {task : Task} {b b' : Binding}

theorem fits_nil (b : Binding) : Renaming.Fits [] b :=
  ⟨List.nodup_nil, by simp⟩

/-- The step for one required parameter finds the node of the pattern among the parameters, matches its type and adds its
position. -/
theorem matchParam_inv {param : Expr} {template : Ty} (hrun : (matchParam task param template).run b = .ok ((), b')) :
    ∃ name node index given type extended, param.nodeName? = some name ∧ b.node? name = some node ∧
      task.params[index]? = some given ∧ given.same node ∧ task.paramTypes[index]? = some type ∧
      (matchTy template type).run b = .ok ((), extended) ∧
      b' = { extended with params := extended.params ++ [index] } := by
  unfold matchParam at hrun
  rw [StateT.run_bind, StateT.run_get, pure_bind] at hrun
  cases hnode : param.nodeName?.bind b.node? with
  | none =>
    rw [hnode] at hrun
    cases hrun
  | some node =>
    obtain ⟨name, hname, hbound⟩ := Option.bind_eq_some_iff.mp hnode
    cases hindex : task.paramIndex? node with
    | none =>
      simp only [hnode, hindex] at hrun
      cases hrun
    | some index =>
      obtain ⟨hlt, hsame, -⟩ := List.findIdx?_eq_some_iff_getElem.mp hindex
      cases htype : task.paramTypes[index]? with
      | none =>
        simp only [hnode, hindex, htype] at hrun
        cases hrun
      | some type =>
        cases hmatch : (matchTy template type).run b with
        | error e =>
          simp only [hnode, hindex, htype, hmatch] at hrun
          cases hrun
        | ok r =>
          obtain ⟨⟨⟩, extended⟩ := r
          simp only [hnode, hindex, htype, hmatch] at hrun
          cases hrun
          exact ⟨name, node, index, task.params[index], type, extended, hname, hbound, List.getElem?_eq_getElem hlt,
            hsame, htype, hmatch, rfl⟩

/-- The step for one required parameter makes it provided. -/
theorem exists_of_matchParam {param : Expr} {template : Ty} (hclosed : template.Scoped .closed [])
    (hunshadowed : ∀ type ∈ task.paramTypes, type.Scoped .unshadowed [])
    (hrun : (matchParam task param template).run b = .ok ((), b')) :
    b.Extends b' ∧ ∃ index, b'.params = b.params ++ [index] ∧ ∀ c, b'.Extends c → task.Provides c param template index := by
  obtain ⟨name, node, index, given, type, extended, hname, hbound, hgiven, hsame, htype, hmatch, rfl⟩ := matchParam_inv hrun
  have htypes : (matchTy template type).Establishes b (Ty.Instance · [] template type) :=
    establishes_matchTy template type hclosed (hunshadowed type (List.mem_of_getElem? htype)) (fits_nil b)
  obtain ⟨hext, hparams, hinstance⟩ := htypes extended hmatch
  have hpush := extended.extends_params (extended.params ++ [index])
  refine ⟨hext.trans hpush, index, by rw [← hparams], ?_⟩
  intro c hc
  have hc' := hpush.trans hc
  exact ⟨name, node, given, type, hname, (hext.trans hc').nodes _ _ hbound, hgiven, hsame, htype, hinstance c hc'⟩

/-- The steps for the required parameters add their positions in order. -/
theorem exists_of_matchParams {pairs : List (Expr × Ty)} (hclosed : ∀ x ∈ pairs, x.2.Scoped .closed [])
    (hunshadowed : ∀ type ∈ task.paramTypes, type.Scoped .unshadowed [])
    (hrun : (pairs.forM fun x => matchParam task x.1 x.2).run b = .ok ((), b')) :
    b.Extends b' ∧ ∃ indices, b'.params = b.params ++ indices ∧
      List.Forall₂ (fun x index => ∀ c, b'.Extends c → task.Provides c x.1 x.2 index) pairs indices := by
  induction pairs generalizing b with
  | nil =>
    cases hrun
    exact ⟨.refl _, [], by simp, .nil⟩
  | cons x pairs ih =>
    obtain ⟨c, hfirst, hrun⟩ := MatchM.exists_of_run_bind hrun
    obtain ⟨hext, index, hparams, hprovides⟩ :=
      exists_of_matchParam (hclosed x List.mem_cons_self) hunshadowed hfirst
    obtain ⟨hext', indices, hparams', hrest⟩ := ih (fun y hy => hclosed y (List.mem_cons_of_mem _ hy)) hrun
    refine ⟨hext.trans hext', index :: indices, ?_, .cons (fun d hd => hprovides d (hext'.trans hd)) hrest⟩
    rw [hparams', hparams, List.append_assoc]
    rfl

/-- Matching is sound: a pattern that matches has the task as an instance. -/
theorem instantiates_of_matchTask {pattern : TaskPattern} (hclosed : pattern.Closed) (hunshadowed : task.Unshadowed)
    (h : matchTask pattern task = .ok b) : b.Instantiates pattern task := by
  unfold matchTask at h
  split_ifs at h with hworker
  dsimp only at h
  generalize hrun : (StateT.run _ {} : Except Mismatch (Unit × Binding)) = result at h
  cases result with
  | error e => cases h
  | ok r =>
    obtain ⟨⟨⟩, found⟩ := r
    obtain ⟨matched, hmatch, hparams⟩ := MatchM.exists_of_run_bind hrun
    have hcomputation : (matchExpr pattern.computation task.computation.toExpr).Establishes {}
        (Expr.Instance · [] pattern.computation task.computation.toExpr) :=
      establishes_matchExpr _ _ hclosed.computation hunshadowed.computation (fits_nil {})
    obtain ⟨hext, hempty, hinstance⟩ := hcomputation matched hmatch
    obtain ⟨hext', indices, hindices, hprovides⟩ := exists_of_matchParams
      (fun x hx => hclosed.requiredTypes x.2 (List.of_mem_zip hx).2) hunshadowed.paramTypes hparams
    have hparams : found.params = indices := by
      rw [hindices, hempty]
      rfl
    have h : (if !pattern.allowExtraTensors && task.hasOtherTensors found.params then .error .extraParam else .ok found) =
        (.ok b : Except Mismatch Binding) := h
    split_ifs at h with hextra
    cases h
    refine ⟨by simpa using hworker, hinstance b hext', ?_, ?_⟩
    · intro i param template hparam htemplate
      have hzip : (pattern.requiredParams.zip pattern.requiredTypes)[i]? = some (param, template) :=
        List.getElem?_zip_eq_some.mpr ⟨hparam, htemplate⟩
      obtain ⟨hi, hpair⟩ := List.getElem?_eq_some_iff.mp hzip
      have hi' : i < indices.length := hprovides.length_eq ▸ hi
      have hprovided := hprovides.get hi hi' b (.refl b)
      rw [List.get_eq_getElem, hpair] at hprovided
      obtain ⟨name, node, given, type, hname, hnode, hgiven, hsame, htype, htemplate⟩ := hprovided
      refine ⟨name, node, indices[i], given, type, hname, hnode, ?_, hgiven, hsame, htype, htemplate⟩
      rw [Binding.param?, hparams, List.getElem?_eq_getElem hi']
    · intro hallow index type htype htensor
      have hothers : task.hasOtherTensors indices = false := by
        rw [hallow, hparams] at hextra
        simpa using hextra
      have hmem : index ∈ indices := by
        by_contra hmem
        have hpair : (type, index) ∈ task.paramTypes.zipIdx := List.mk_mem_zipIdx_iff_getElem?.mpr htype
        have hother := List.any_eq_false.mp hothers (type, index) hpair
        exact hother (by simp [htensor, hmem])
      obtain ⟨i, hi, hindex⟩ := List.mem_iff_getElem.mp hmem
      have hlt : i < (pattern.requiredParams.zip pattern.requiredTypes).length := hprovides.length_eq ▸ hi
      have hrequired : i < pattern.requiredParams.length := by
        rw [List.length_zip] at hlt
        omega
      refine ⟨i, _, List.getElem?_eq_getElem hrequired, ?_⟩
      rw [Binding.param?, hparams, List.getElem?_eq_getElem hi, hindex]

end

/-- A copy of a vector of any length and element type. -/
def copyPattern : TaskPattern :=
  let input := Expr.tensorInput "in" (.hole 0) none
  let output := Expr.compute "out" [.any 0] [.int "i"] (.element input [.var (.int "i")])
  let type : Ty := .tensor ⟨.hole 0, .hole 0, none, none⟩
  { computation := output
    requiredParams := [input, output]
    requiredTypes := [type, type]
    allowExtraTensors := false
    worker := .anyGrid }

/-- The copy of a vector of four elements. -/
def copyTask : Task :=
  let input := Expr.tensorInput "t0" (.known .float32) (some [.int 4])
  let output : TensorCompute := ⟨"t1", [.int 4], [.int "t1_i"], .element input [.var (.int "t1_i")]⟩
  let type : Ty := .tensor ⟨.known .global, .known .float32, some [.int 4], none⟩
  { name := "copy_t1"
    computation := output
    params := [input, output.toExpr]
    paramTypes := [type, type]
    worker := .grid (some 1) (some 256) }

/-- What the pattern of a copy stands for in the task. -/
def copyBinding : Binding :=
  { exprs := [(0, .int 4)]
    dtypes := [(0, .float32)]
    scopes := [(0, .global)]
    nodes := [("out", copyTask.computation.toExpr), ("in", .tensorInput "t0" (.known .float32) (some [.int 4]))]
    vars := [("i", .int "t1_i")]
    params := [0, 1] }

theorem matchTask_copy : matchTask copyPattern copyTask = .ok copyBinding := by
  cbv
  rw [matchEach_nil]
  cbv
  rw [matchEach_nil]
  cbv

/-- The four elements are an instance of any. -/
theorem instantiates_copy : copyBinding.Instantiates copyPattern copyTask := by
  refine instantiates_of_matchTask ⟨?_, ?_⟩ ⟨?_, ?_⟩ matchTask_copy
  · simp [copyPattern, Expr.Scoped, Expr.AllScoped, Expr.ShapeScoped, ScopeRule.closed]
  · simp [copyPattern, Ty.Scoped, TensorType.Scoped, Expr.ShapeScoped]
  · simp [copyTask, TensorCompute.toExpr, Expr.int, Expr.Scoped, Expr.AllScoped, Expr.ShapeScoped, ScopeRule.unshadowed]
  · simp [copyTask, Ty.Scoped, TensorType.Scoped, Expr.ShapeScoped, Expr.AllScoped, Expr.Scoped, Expr.int]

end TensorCompiler
