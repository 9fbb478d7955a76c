import TensorCompiler.Proofs.Result
import TensorCompiler.Proofs.Task.Match
import TensorCompiler.Proofs.Task.Renaming

/-! # Matching renamed tasks

Matching walks the pattern and the task together, and two tasks that differ in the names of bound variables only are walked
alike. Names are read where a placeholder meets something for the second time, and where an occurrence of a variable is
compared with what its pattern variable is bound to. A renaming that is one to one keeps these comparisons. One that gives
one name several names, or several names one, keeps them too if the pattern uses no placeholder twice and no variable of
the tasks shadows another: then no comparison reads more than one name of a scope.
-/

namespace TensorCompiler

/-! ## What a pattern binds -/

/-- What a pattern binds by an expression: a hole, a named node or a variable. -/
inductive Placeholder where
  | hole (id : Hole)
  | node (name : String)
  | var (name : String)
  deriving DecidableEq

mutual

/-- The placeholders of a pattern, in the order in which they are bound. -/
def Expr.placeholders : Expr → List Placeholder
  | .any id => [.hole id]
  | .unary _ arg | .deref arg | .addr arg | .ref arg => arg.placeholders
  | .binary _ lhs rhs => lhs.placeholders ++ rhs.placeholders
  | .letIn v value body => value.placeholders ++ ([.var v.name] ++ body.placeholders)
  | .ite cond thenE elseE => cond.placeholders ++ (thenE.placeholders ++ elseE.placeholders)
  | .element base indices => base.placeholders ++ Expr.allPlaceholders indices
  | .call _ args => Expr.allPlaceholders args
  | .cast target arg => target.placeholders ++ arg.placeholders
  | .scalarInput name _ => [.node name]
  | .tensorInput name _ shape => Expr.shapePlaceholders shape ++ [.node name]
  | .compute name shape axes value =>
    Expr.allPlaceholders shape ++ (axes.map (fun v => .var v.name) ++ (value.placeholders ++ [.node name]))
  | .reduce _ shape axes value =>
    Expr.allPlaceholders shape ++ (axes.map (fun v => .var v.name) ++ value.placeholders)
  | .var _ | .const .. | .anyCompute .. | .anyReduce _ => []

def Expr.allPlaceholders : List Expr → List Placeholder
  | [] => []
  | e :: es => e.placeholders ++ Expr.allPlaceholders es

def Expr.shapePlaceholders : Option (List Expr) → List Placeholder
  | none => []
  | some es => Expr.allPlaceholders es

def TensorType.placeholders : TensorType → List Placeholder
  | ⟨_, _, shape, strides⟩ => Expr.shapePlaceholders shape ++ Expr.shapePlaceholders strides

def Ty.placeholders : Ty → List Placeholder
  | .tensor type | .tensorPointer type => type.placeholders
  | .pointer base | .reference base => base.placeholders
  | .scalar _ | .void => []

end

/-- Whether a placeholder is bound. -/
def Binding.Has (b : Binding) : Placeholder → Prop
  | .hole id => (b.exprs.lookup id).isSome
  | .node name => (b.nodes.lookup name).isSome
  | .var name => (b.vars.lookup name).isSome

/-! ## Outcomes -/

/-- Whether two computations both fail, for one reason, or both succeed, with related results. -/
inductive SameOutcome {ε α β : Type} (Q : α → β → Prop) : Except ε α → Except ε β → Prop
  | ok {a : α} {b : β} (h : Q a b) : SameOutcome Q (.ok a) (.ok b)
  | error (e : ε) : SameOutcome Q (.error e) (.error e)

theorem SameOutcome.imp {ε α β : Type} {Q R : α → β → Prop} {x : Except ε α} {y : Except ε β} (h : SameOutcome Q x y)
    (himp : ∀ a b, x = .ok a → y = .ok b → Q a b → R a b) : SameOutcome R x y := by
  cases h with
  | ok h => exact .ok (himp _ _ rfl rfl h)
  | error e => exact .error e

theorem SameOutcome.bind {ε α β γ δ : Type} {Q : α → β → Prop} {R : γ → δ → Prop} {x : Except ε α} {y : Except ε β}
    {f : α → Except ε γ} {g : β → Except ε δ} (h : SameOutcome Q x y) (hfg : ∀ a b, Q a b → SameOutcome R (f a) (g b)) :
    SameOutcome R (x >>= f) (y >>= g) := by
  cases h with
  | ok h => exact hfg _ _ h
  | error e => exact .error e

theorem SameOutcome.refl {ε α : Type} (x : Except ε α) : SameOutcome Eq x x := by
  cases x with
  | ok a => exact .ok rfl
  | error e => exact .error e

namespace MatchM

/-- Whether two steps, from two bindings, have the same outcome. -/
def Lockstep (m m' : MatchM Unit) (b b' : Binding) (Q : Binding → Binding → Prop) : Prop :=
  SameOutcome (fun r r' : Unit × Binding => Q r.2 r'.2) (m.run b) (m'.run b')

variable {m m' n n' : MatchM Unit} {b b' : Binding} {Q R : Binding → Binding → Prop}

theorem Lockstep.imp (h : m.Lockstep m' b b' Q) (himp : ∀ c c', Q c c' → R c c') : m.Lockstep m' b b' R :=
  SameOutcome.imp h fun r r' _ _ => himp r.2 r'.2

theorem Lockstep.bind (h : m.Lockstep m' b b' Q) (hn : ∀ c c', Q c c' → n.Lockstep n' c c' R) :
    (m >>= fun _ => n).Lockstep (m' >>= fun _ => n') b b' R := by
  unfold Lockstep
  rw [StateT.run_bind, StateT.run_bind]
  exact SameOutcome.bind h fun r r' hr => hn _ _ hr

theorem lockstep_pure (h : Q b b') : (pure () : MatchM Unit).Lockstep (pure ()) b b' Q :=
  .ok h

theorem lockstep_throw (e : Mismatch) : (throw e : MatchM Unit).Lockstep (throw e) b b' Q :=
  .error e

theorem lockstep_check {condition condition' : Bool} (hsame : condition = condition') (h : Q b b') :
    (check condition).Lockstep (check condition') b b' Q := by
  subst hsame
  cases condition with
  | true => exact .ok h
  | false => exact .error _

theorem Lockstep.guarded {condition condition' : Bool} (hsame : condition = condition') (h : m.Lockstep m' b b' Q) :
    (check condition >>= fun _ => m).Lockstep (check condition' >>= fun _ => m') b b' Q := by
  subst hsame
  cases condition with
  | true => exact h
  | false => exact .error _

end MatchM

/-! ## Bindings of renamed tasks -/

/-- Whether two lists bind the same keys, in the same order, to related values. -/
def Entries {κ α : Type} (R : α → α → Prop) (xs ys : List (κ × α)) : Prop :=
  List.Forall₂ (fun x y => x.1 = y.1 ∧ R x.2 y.2) xs ys

section

variable {κ α : Type} [BEq κ] [LawfulBEq κ] {R : α → α → Prop} {xs ys : List (κ × α)} {same : α → α → Bool} {key : κ}
  {v w : α}

omit [LawfulBEq κ] in
theorem Entries.lookup (h : Entries R xs ys) (key : κ) : Option.Rel R (xs.lookup key) (ys.lookup key) := by
  induction h with
  | nil => exact .none
  | @cons x y xs ys hxy _ ih =>
    obtain ⟨k, a⟩ := x
    obtain ⟨k', a'⟩ := y
    obtain ⟨rfl, ha⟩ := hxy
    rw [List.lookup_cons, List.lookup_cons]
    cases key == k with
    | true => exact .some ha
    | false => exact ih

omit [LawfulBEq κ] in
/-- Binding related values to a key has the same outcome if a value that is bound already compares alike. -/
theorem Entries.sameOutcome_bindKey (h : Entries R xs ys) (hv : R v w)
    (hsame : ∀ a b, xs.lookup key = some a → R a b → same a v = same b w) :
    SameOutcome (ε := Mismatch) (Entries R) (bindKey same xs key v) (bindKey same ys key w) := by
  have hlookup := h.lookup key
  unfold bindKey
  generalize xs.lookup key = x at hlookup hsame ⊢
  generalize ys.lookup key = y at hlookup ⊢
  cases hlookup with
  | none => exact .ok (.cons ⟨rfl, hv⟩ h)
  | @some a c hac =>
    simp only [hsame a c rfl hac]
    cases same c w with
    | true => exact .ok h
    | false => exact .error _

/-- Binding a key binds no other, and that one only if it is free. -/
theorem lookup_of_bindKey (h : bindKey same xs key v = .ok ys) {k : κ} {a : α} (hk : ys.lookup k = some a) :
    xs.lookup k = some a ∨ k = key ∧ xs.lookup key = none ∧ a = v := by
  unfold bindKey at h
  split at h
  · split_ifs at h
    cases h
    exact Or.inl hk
  · rename_i hnone
    cases h
    rw [List.lookup_cons] at hk
    cases hkey : k == key with
    | true =>
      rw [hkey] at hk
      exact Or.inr ⟨eq_of_beq hkey, hnone, (Option.some.inj hk).symm⟩
    | false =>
      rw [hkey] at hk
      exact Or.inl hk

theorem isSome_lookup_of_bindKey (h : bindKey same xs key v = .ok ys) {k : κ} (hk : (ys.lookup k).isSome) :
    (xs.lookup k).isSome ∨ k = key := by
  obtain ⟨a, ha⟩ := Option.isSome_iff_exists.mp hk
  exact (lookup_of_bindKey h ha).imp (fun ha => Option.isSome_iff_exists.mpr ⟨a, ha⟩) And.left

end

/-- Whether a bound expression is the other one renamed, wherever they stand in their tasks. -/
def Expr.RenamedSomewhere (ρ : String → String → Prop) (e e' : Expr) : Prop :=
  ∃ scope, Expr.Renamed ρ scope e e'

/-- Whether two bindings are equal up to a renaming. -/
structure Binding.Renamed (ρ : String → String → Prop) (b b' : Binding) : Prop where
  exprs : Entries (Expr.RenamedSomewhere ρ) b.exprs b'.exprs
  nodes : Entries (Expr.RenamedSomewhere ρ) b.nodes b'.nodes
  vars : Entries (fun v w => ρ v.name w.name ∧ v.ty = w.ty) b.vars b'.vars
  dtypes : b.dtypes = b'.dtypes
  scopes : b.scopes = b'.scopes
  tiles : b.tiles = b'.tiles
  params : b.params = b'.params

section

variable (ρ : String → String → Prop) (N : String → Expr → Expr → Prop)

/-- Whether two bindings are equal up to a renaming and what their nodes are bound to is related by `N`. -/
structure Paired (b b' : Binding) : Prop where
  renamed : b.Renamed ρ b'
  nodes : ∀ name n n', b.nodes.lookup name = some n → b'.nodes.lookup name = some n' → N name n n'

/-- What steps that bind at most the placeholders `K` leave behind. -/
structure Adds (K : List Placeholder) (b b' c c' : Binding) : Prop where
  paired : Paired ρ N c c'
  left : b.Extends c
  right : b'.Extends c'
  has : ∀ k, c.Has k → b.Has k ∨ k ∈ K

end

section

open MatchM

variable {ρ : String → String → Prop} {N : String → Expr → Expr → Prop} {K L : List Placeholder}
  {b b' c c' d d' : Binding} {m m' n n' : MatchM Unit}

theorem Adds.refl (h : Paired ρ N b b') : Adds ρ N [] b b' b b' :=
  ⟨h, .refl _, .refl _, fun _ hk => Or.inl hk⟩

theorem Adds.trans (h : Adds ρ N K b b' c c') (h' : Adds ρ N L c c' d d') : Adds ρ N (K ++ L) b b' d d' where
  paired := h'.paired
  left := h.left.trans h'.left
  right := h.right.trans h'.right
  has k hk := by
    rw [List.mem_append, ← or_assoc]
    exact (h'.has k hk).imp_left (h.has k)

theorem lockstep_seq (h : m.Lockstep m' b b' (Adds ρ N K b b'))
    (hn : ∀ c c', Adds ρ N K b b' c c' → n.Lockstep n' c c' (Adds ρ N L c c')) :
    (m >>= fun _ => n).Lockstep (m' >>= fun _ => n') b b' (Adds ρ N (K ++ L) b b') :=
  h.bind fun c c' hc => (hn c c' hc).imp fun _ _ hd => hc.trans hd

/-- Two steps one after the other, with what the first establishes on either side. -/
theorem lockstep_seq_of_establishes {P P' : Binding → Prop} (h : m.Lockstep m' b b' (Adds ρ N K b b'))
    (hm : m.Establishes b P) (hm' : m'.Establishes b' P')
    (hn : ∀ c c', Adds ρ N K b b' c c' → P c → P' c' → n.Lockstep n' c c' (Adds ρ N L c c')) :
    (m >>= fun _ => n).Lockstep (m' >>= fun _ => n') b b' (Adds ρ N (K ++ L) b b') := by
  have hboth : m.Lockstep m' b b' fun c c' => Adds ρ N K b b' c c' ∧ P c ∧ P' c' :=
    SameOutcome.imp h fun r r' hr hr' hadds =>
      ⟨hadds, (hm r.2 hr).2.2 _ (.refl _), (hm' r'.2 hr').2.2 _ (.refl _)⟩
  exact hboth.bind fun c c' ⟨hc, hP, hP'⟩ => (hn c c' hc hP hP').imp fun _ _ hd => hc.trans hd

theorem lockstep_check_adds {condition condition' : Bool} (hsame : condition = condition') (h : Paired ρ N b b') :
    (check condition).Lockstep (check condition') b b' (Adds ρ N [] b b') :=
  lockstep_check hsame (.refl h)

/-- Two steps that bind a key of one of the maps. -/
theorem lockstep_bind {κ α : Type} [BEq κ] {same : α → α → Bool} {key : κ} {v w : α}
    {E : List (κ × α) → List (κ × α) → Prop} {Q : Binding → Binding → Prop} (map : Binding → List (κ × α))
    (put : Binding → List (κ × α) → Binding)
    (hkey : SameOutcome E (bindKey same (map b) key v) (bindKey same (map b') key w))
    (hput : ∀ xs ys, bindKey same (map b) key v = .ok xs → bindKey same (map b') key w = .ok ys → E xs ys →
      Q (put b xs) (put b' ys)) :
    MatchM.Lockstep
      (do
        let b ← get
        let xs ← bindKey same (map b) key v
        set (put b xs))
      (do
        let b ← get
        let xs ← bindKey same (map b) key w
        set (put b xs)) b b' Q := by
  unfold Lockstep
  rw [StateT.run_bind, StateT.run_bind, StateT.run_get, StateT.run_get, pure_bind, pure_bind, StateT.run_bind,
    StateT.run_bind]
  generalize hx : bindKey same (map b) key v = x at hkey hput
  generalize hy : bindKey same (map b') key w = y at hkey hput
  cases hkey with
  | ok h => exact .ok (hput _ _ rfl rfl h)
  | error e => exact .error e

/-- Whether a renaming is one to one: names are equal on one side if and only if they are on the other. -/
def OneToOne (ρ : String → String → Prop) : Prop :=
  Consistent ρ ρ

/-- Whether placeholders may be bound: unless the renaming is one to one, each of them for the first time, and none of them
is a free variable of the pattern. -/
structure Ready (ρ : String → String → Prop) (free : String → Prop) (K : List Placeholder) (b : Binding) : Prop where
  nodup : ¬ OneToOne ρ → K.Nodup
  fresh : ¬ OneToOne ρ → ∀ k ∈ K, ¬ b.Has k
  free : ¬ OneToOne ρ → ∀ name, free name → .var name ∉ K ∧ ¬ b.Has (.var name)

variable {free : String → Prop}

theorem Ready.left (h : Ready ρ free (K ++ L) b) : Ready ρ free K b where
  nodup hρ := (List.nodup_append.mp (h.nodup hρ)).1
  fresh hρ k hk := h.fresh hρ k (List.mem_append_left _ hk)
  free hρ name hname := (h.free hρ name hname).imp_left fun hK hk => hK (List.mem_append_left _ hk)

theorem Ready.right (h : Ready ρ free (K ++ L) b) (hc : Adds ρ N K b b' c c') : Ready ρ free L c where
  nodup hρ := (List.nodup_append.mp (h.nodup hρ)).2.1
  fresh hρ k hk hhas := by
    rcases hc.has k hhas with hb | hK
    · exact h.fresh hρ k (List.mem_append_right _ hk) hb
    · exact (List.nodup_append.mp (h.nodup hρ)).2.2 k hK k hk rfl
  free hρ name hname := by
    obtain ⟨hK, hb⟩ := h.free hρ name hname
    refine ⟨fun hL => hK (List.mem_append_right _ hL), fun hhas => ?_⟩
    exact (hc.has _ hhas).elim hb fun hK' => hK (List.mem_append_left _ hK')

/-! ## Binding placeholders -/

/-- What is bound already compares alike: the renaming is one to one, or nothing is bound. -/
theorem same_eq_of_lookup {κ : Type} [BEq κ] {xs : List (κ × Expr)} {key : κ} {e e' : Expr}
    (hfresh : ¬ OneToOne ρ → ¬ (xs.lookup key).isSome) (he : e.RenamedSomewhere ρ e') (a a' : Expr)
    (ha : xs.lookup key = some a) (haa : a.RenamedSomewhere ρ a') : a.same e = a'.same e' := by
  obtain ⟨scope, he⟩ := he
  obtain ⟨scope', haa⟩ := haa
  by_cases hρ : OneToOne ρ
  · exact Expr.same_eq_of_renamed hρ a haa he
  · exact absurd (by rw [ha]; rfl) (hfresh hρ)

theorem lockstep_bindExpr {id : Hole} {e e' : Expr} (hready : Ready ρ free [.hole id] b) (hb : Paired ρ N b b')
    (he : e.RenamedSomewhere ρ e') : (bindExpr id e).Lockstep (bindExpr id e') b b' (Adds ρ N [.hole id] b b') := by
  refine lockstep_bind Binding.exprs (fun b exprs => { b with exprs }) (hb.renamed.exprs.sameOutcome_bindKey he
    (same_eq_of_lookup (fun hρ => hready.fresh hρ _ List.mem_cons_self) he)) fun xs ys hx hy h => ?_
  refine ⟨⟨{ hb.renamed with exprs := h }, hb.nodes⟩, ⟨(exists_of_bindKey hx).1, .refl _, .refl _, .refl _, .refl _, .refl _⟩,
    ⟨(exists_of_bindKey hy).1, .refl _, .refl _, .refl _, .refl _, .refl _⟩, fun k hk => ?_⟩
  cases k with
  | hole id' => exact (isSome_lookup_of_bindKey hx hk).imp_right (by rintro rfl; exact List.mem_cons_self)
  | _ => exact Or.inl hk

theorem lockstep_bindNode {name : String} {e e' : Expr} (hready : Ready ρ free [.node name] b) (hb : Paired ρ N b b')
    (he : e.RenamedSomewhere ρ e') (hN : N name e e') :
    (bindNode name e).Lockstep (bindNode name e') b b' (Adds ρ N [.node name] b b') := by
  refine lockstep_bind Binding.nodes (fun b nodes => { b with nodes }) (hb.renamed.nodes.sameOutcome_bindKey he
    (same_eq_of_lookup (fun hρ => hready.fresh hρ _ List.mem_cons_self) he)) fun xs ys hx hy h => ?_
  refine ⟨⟨{ hb.renamed with nodes := h }, ?_⟩, ⟨.refl _, .refl _, .refl _, .refl _, (exists_of_bindKey hx).1, .refl _⟩,
    ⟨.refl _, .refl _, .refl _, .refl _, (exists_of_bindKey hy).1, .refl _⟩, fun k hk => ?_⟩
  · intro other n n' hn hn'
    have hlookup := hb.renamed.nodes.lookup name
    rcases lookup_of_bindKey hx hn with hn | ⟨rfl, hnone, rfl⟩
    · rcases lookup_of_bindKey hy hn' with hn' | ⟨rfl, hnone', rfl⟩
      · exact hb.nodes other n n' hn hn'
      · rw [hn, hnone'] at hlookup
        cases hlookup
    · rcases lookup_of_bindKey hy hn' with hn' | ⟨-, -, rfl⟩
      · rw [hnone, hn'] at hlookup
        cases hlookup
      · exact hN
  · cases k with
    | node name' => exact (isSome_lookup_of_bindKey hx hk).imp_right (by rintro rfl; exact List.mem_cons_self)
    | _ => exact Or.inl hk

/-- Variables of one type whose names are paired. -/
theorem lockstep_bindVar {name : String} {v w : Var} (hready : Ready ρ free [.var name] b) (hb : Paired ρ N b b')
    (hv : ρ v.name w.name ∧ v.ty = w.ty) :
    (bindVar name v).Lockstep (bindVar name w) b b' (Adds ρ N [.var name] b b') := by
  have hsame : ∀ a a' : Var, b.vars.lookup name = some a → ρ a.name a'.name ∧ a.ty = a'.ty → a.same v = a'.same w := by
    intro a a' ha haa
    by_cases hρ : OneToOne ρ
    · exact Var.same_eq_of_renamed hρ haa.1 haa.2 hv.1 hv.2
    · exact absurd (by rw [Binding.Has, ha]; rfl) (hready.fresh hρ _ List.mem_cons_self)
  refine lockstep_bind Binding.vars (fun b vars => { b with vars }) (hb.renamed.vars.sameOutcome_bindKey hv hsame)
    fun xs ys hx hy h => ?_
  refine ⟨⟨{ hb.renamed with vars := h }, hb.nodes⟩, ⟨.refl _, .refl _, .refl _, .refl _, .refl _, (exists_of_bindKey hx).1⟩,
    ⟨.refl _, .refl _, .refl _, .refl _, .refl _, (exists_of_bindKey hy).1⟩, fun k hk => ?_⟩
  cases k with
  | var name' => exact (isSome_lookup_of_bindKey hx hk).imp_right (by rintro rfl; exact List.mem_cons_self)
  | _ => exact Or.inl hk

theorem lockstep_bindDType (id : Hole) (dtype : DType) (hb : Paired ρ N b b') :
    (bindDType id dtype).Lockstep (bindDType id dtype) b b' (Adds ρ N [] b b') := by
  refine lockstep_bind (E := Eq) Binding.dtypes (fun b dtypes => { b with dtypes })
    (hb.renamed.dtypes ▸ SameOutcome.refl _) fun xs ys hx hy h => ?_
  exact ⟨⟨{ hb.renamed with dtypes := h }, hb.nodes⟩,
    ⟨.refl _, (exists_of_bindKey hx).1, .refl _, .refl _, .refl _, .refl _⟩,
    ⟨.refl _, (exists_of_bindKey hy).1, .refl _, .refl _, .refl _, .refl _⟩, fun k hk => Or.inl (by cases k <;> exact hk)⟩

theorem lockstep_bindScope (id : Hole) (scope : MemoryScope) (hb : Paired ρ N b b') :
    (bindScope id scope).Lockstep (bindScope id scope) b b' (Adds ρ N [] b b') := by
  refine lockstep_bind (E := Eq) Binding.scopes (fun b scopes => { b with scopes })
    (hb.renamed.scopes ▸ SameOutcome.refl _) fun xs ys hx hy h => ?_
  exact ⟨⟨{ hb.renamed with scopes := h }, hb.nodes⟩,
    ⟨.refl _, .refl _, (exists_of_bindKey hx).1, .refl _, .refl _, .refl _⟩,
    ⟨.refl _, .refl _, (exists_of_bindKey hy).1, .refl _, .refl _, .refl _⟩, fun k hk => Or.inl (by cases k <;> exact hk)⟩

theorem lockstep_bindTile (id : Hole) (tile : RegisterTile) (hb : Paired ρ N b b') :
    (bindTile id tile).Lockstep (bindTile id tile) b b' (Adds ρ N [] b b') := by
  refine lockstep_bind (E := Eq) Binding.tiles (fun b tiles => { b with tiles })
    (hb.renamed.tiles ▸ SameOutcome.refl _) fun xs ys hx hy h => ?_
  exact ⟨⟨{ hb.renamed with tiles := h }, hb.nodes⟩,
    ⟨.refl _, .refl _, .refl _, (exists_of_bindKey hx).1, .refl _, .refl _⟩,
    ⟨.refl _, .refl _, .refl _, (exists_of_bindKey hy).1, .refl _, .refl _⟩, fun k hk => Or.inl (by cases k <;> exact hk)⟩

theorem lockstep_matchDType (p t : ScalarType) (hb : Paired ρ N b b') :
    (matchDType p t).Lockstep (matchDType p t) b b' (Adds ρ N [] b b') := by
  cases p with
  | hole id =>
    cases t with
    | hole => exact lockstep_throw _
    | known dtype => exact lockstep_bindDType id dtype hb
  | known expected =>
    cases t with
    | hole => exact lockstep_throw _
    | known dtype => exact lockstep_check_adds rfl hb

theorem lockstep_matchScope (p t : Slot MemoryScope) (hb : Paired ρ N b b') :
    (matchScope p t).Lockstep (matchScope p t) b b' (Adds ρ N [] b b') := by
  unfold matchScope
  split
  · exact lockstep_throw _
  · split
    · exact lockstep_bindScope _ _ hb
    · split
      · exact lockstep_bindTile _ _ hb
      · exact lockstep_throw _
    · exact lockstep_check_adds rfl hb

/-- Variables that are bound together. -/
theorem lockstep_matchAxes (ps : List Var) {ts ts' : List Var} (hready : Ready ρ free (ps.map fun v => .var v.name) b)
    (hb : Paired ρ N b b') (ht : Var.RenamedAll ρ ts ts') :
    (matchAxes ps ts).Lockstep (matchAxes ps ts') b b' (Adds ρ N (ps.map fun v => .var v.name) b b') := by
  induction ps generalizing ts ts' b b' with
  | nil =>
    cases ht with
    | nil => exact lockstep_pure (.refl hb)
    | cons => exact lockstep_throw _
  | cons p ps ih =>
    cases ht with
    | nil => exact lockstep_throw _
    | cons h hs =>
      have hready : Ready ρ free ([.var p.name] ++ ps.map fun v => .var v.name) b := hready
      exact lockstep_seq (lockstep_bindVar hready.left hb h) fun c c' hc => ih (hready.right hc) hc.paired hs

/-! ## Occurrences -/

/-- In a scope without shadowing a pair has the name of an occurrence on one side if it has it on the other. -/
theorem Renaming.Links.eq_iff_eq {scope : Renaming} {u u' : String} (h : scope.Links u u')
    (hfst : (scope.map Prod.fst).Nodup) (hsnd : (scope.map Prod.snd).Nodup) {x : String × String} (hx : x ∈ scope) :
    x.1 = u ↔ x.2 = u' := by
  induction h with
  | free => cases hx
  | @here v w scope =>
    rw [List.map_cons, List.nodup_cons] at hfst hsnd
    rcases List.mem_cons.mp hx with rfl | hx
    · simp
    · have hv : x.1 ∈ scope.map Prod.fst := List.mem_map_of_mem hx
      have hw : x.2 ∈ scope.map Prod.snd := List.mem_map_of_mem hx
      exact iff_of_false (fun h => hfst.1 (h ▸ hv)) fun h => hsnd.1 (h ▸ hw)
  | there hv hw _ ih =>
    rw [List.map_cons, List.nodup_cons] at hfst hsnd
    rcases List.mem_cons.mp hx with rfl | hx
    · exact iff_of_false hv.symm hw.symm
    · exact ih hfst.2 hsnd.2 hx

/-- Whether a name of the pattern is bound to the two names of a pair. -/
def BoundTo (b b' : Binding) (name : String) (x : String × String) : Prop :=
  ∃ v v', b.vars.lookup name = some v ∧ b'.vars.lookup name = some v' ∧ v.name = x.1 ∧ v'.name = x.2

/-- What the variables around a place are bound to: those of the pattern are bound, and unless the renaming is one to one
each of them to the pair of the scope at its place, where no name shadows another. -/
structure Around (ρ : String → String → Prop) (names : List String) (scope : Renaming) (b b' : Binding) : Prop where
  bound : ∀ name ∈ names, b.Has (.var name)
  aligned : ¬ OneToOne ρ → List.Forall₂ (BoundTo b b') names scope
  nodup : ¬ OneToOne ρ → (scope.map Prod.fst).Nodup ∧ (scope.map Prod.snd).Nodup

variable {names : List String} {scope : Renaming}

theorem Around.adds (h : Around ρ names scope b b') (hc : Adds ρ N K b b' c c') : Around ρ names scope c c' where
  bound name hname := by
    obtain ⟨v, hv⟩ := Option.isSome_iff_exists.mp (h.bound name hname)
    exact Option.isSome_iff_exists.mpr ⟨v, hc.left.vars _ _ hv⟩
  aligned hρ := (h.aligned hρ).imp fun _ _ ⟨v, v', hv, hv', hname⟩ =>
    ⟨v, v', hc.left.vars _ _ hv, hc.right.vars _ _ hv', hname⟩
  nodup := h.nodup

theorem boundTo_of_renamesAll {ps ts ts' : List Var} (h : b.RenamesAll ps ts) (h' : b'.RenamesAll ps ts') :
    List.Forall₂ (BoundTo b b') (ps.map Var.name) ((ts.map Var.name).zip (ts'.map Var.name)) := by
  induction h generalizing ts' with
  | nil => exact .nil
  | cons h _ ih =>
    cases h' with
    | cons h' hs' =>
      obtain ⟨v, hv, hname⟩ := h
      obtain ⟨v', hv', hname'⟩ := h'
      exact .cons ⟨v, v', hv, hv', hname, hname'⟩ (ih hs')

theorem Around.enter (h : Around ρ names scope b b') {ps ts ts' : List Var} (hts : b.RenamesAll ps ts)
    (hts' : b'.RenamesAll ps ts')
    (hbinds : ¬ OneToOne ρ → ScopeRule.unshadowed.binds (scope.map Prod.fst) (ts.map Var.name) ∧
      ScopeRule.unshadowed.binds (scope.map Prod.snd) (ts'.map Var.name)) :
    Around ρ ((ps.map Var.name).reverse ++ names) (scope.enter ts ts') b b' where
  bound name hname := by
    rcases List.mem_append.mp hname with hname | hname
    · obtain ⟨p, hp, rfl⟩ := List.mem_map.mp (List.mem_reverse.mp hname)
      obtain ⟨t, -, u, hu, -⟩ := exists_mem_of_forall₂ hts hp
      exact Option.isSome_iff_exists.mpr ⟨u, hu⟩
    · exact h.bound name hname
  aligned hρ := List.rel_append (List.rel_reverse (boundTo_of_renamesAll hts hts')) (h.aligned hρ)
  nodup hρ := by
    have hlength : ts.length = ts'.length := hts.length_eq.symm.trans hts'.length_eq
    obtain ⟨hfst, hsnd⟩ := h.nodup hρ
    obtain ⟨hbinds, hbinds'⟩ := hbinds hρ
    rw [Renaming.map_fst_enter hlength, Renaming.map_snd_enter hlength]
    exact ⟨(List.nodup_reverse.mpr hbinds.1).append hfst (List.disjoint_reverse_left.mpr hbinds.2),
      (List.nodup_reverse.mpr hbinds'.1).append hsnd (List.disjoint_reverse_left.mpr hbinds'.2)⟩

/-- Whether a renaming leaves the free variables of a pattern alone: it renames nothing to or from their names. -/
def Fixes (ρ : String → String → Prop) (free : String → Prop) : Prop :=
  ∀ x, free x → ∀ y y', ρ y y' → (x = y ↔ x = y')

theorem run_matchVar (p v : Var) (b : Binding) : (matchVar p v).run b = (match b.vars.lookup p.name with
    | some bound => check (bound.name == v.name)
    | none => check (p.same v) : MatchM Unit).run b := by
  unfold matchVar
  rewrite [StateT.run_bind, StateT.run_get, pure_bind]
  rfl

/-- An occurrence of a variable. -/
theorem lockstep_matchVar {p u u' : Var} (hp : p.name ∈ names ∨ free p.name) (hname : ρ u.name u'.name)
    (hlinks : scope.Links u.name u'.name) (htype : u.ty = u'.ty) (hfixes : Fixes ρ free) (hready : Ready ρ free [] b)
    (hb : Paired ρ N b b') (haround : Around ρ names scope b b') :
    (matchVar p u).Lockstep (matchVar p u') b b' (Adds ρ N [] b b') := by
  unfold Lockstep
  rw [run_matchVar, run_matchVar]
  have hlookup := hb.renamed.vars.lookup p.name
  cases hv : b.vars.lookup p.name with
  | none =>
    rw [hv] at hlookup
    generalize b'.vars.lookup p.name = y at hlookup ⊢
    cases hlookup with
    | none =>
      have hfree : free p.name := hp.resolve_left fun hmem => by
        have := haround.bound _ hmem
        rw [Binding.Has, hv] at this
        cases this
      refine lockstep_check_adds (Var.same_eq_of_renamed (ρ := fun x x' => free x ∧ x = x') ?_ ⟨hfree, rfl⟩ rfl hname htype) hb
      rintro x _ y y' ⟨hx, rfl⟩ hy
      exact hfixes x hx y y' hy
  | some v =>
    rw [hv] at hlookup
    cases hv' : b'.vars.lookup p.name with
    | none =>
      rw [hv'] at hlookup
      cases hlookup
    | some v' =>
      rw [hv'] at hlookup
      cases hlookup with
      | some hvv =>
        refine lockstep_check_adds (Bool.eq_iff_iff.mpr ?_) hb
        rw [beq_iff_eq, beq_iff_eq]
        by_cases hρ : OneToOne ρ
        · exact hρ hvv.1 hname
        · have hmem : p.name ∈ names := hp.resolve_right fun hfree =>
            (hready.free hρ _ hfree).2 (by rw [Binding.Has, hv]; rfl)
          obtain ⟨x, hx, w, w', hw, hw', hfst, hsnd⟩ := exists_mem_of_forall₂ (haround.aligned hρ) hmem
          rw [hv] at hw
          rw [hv'] at hw'
          cases hw
          cases hw'
          rw [hfst, hsnd]
          exact hlinks.eq_iff_eq (haround.nodup hρ).1 (haround.nodup hρ).2 hx

/-! ## The walk -/

/-- Whether nodes below a weight are related as a binding of them needs it. -/
def Below (ρ : String → String → Prop) (N : String → Expr → Expr → Prop) (K : List Placeholder) (weight : Nat) : Prop :=
  ∀ name, .node name ∈ K → ∀ n n', n.RenamedSomewhere ρ n' → n.weight < weight → N name n n'

variable {weight : Nat}

theorem Below.mono (h : Below ρ N K weight) (hK : L ⊆ K) {less : Nat} (hless : less ≤ weight) : Below ρ N L less :=
  fun name hname n n' hn hlt => h name (hK hname) n n' hn (Nat.lt_of_lt_of_le hlt hless)

/-- Whether nodes found in an expression are related as a binding needs it. -/
structure Found (ρ : String → String → Prop) (N : String → Expr → Expr → Prop) (K : List Placeholder)
    (t t' : Expr) : Prop where
  root : ∀ name, .node name ∈ K → N name t t'
  below : Below ρ N K t.weight

theorem Below.found (h : Below ρ N K weight) (hK : L ⊆ K) {t t' : Expr} (ht : Expr.Renamed ρ scope t t')
    (hlt : t.weight < weight) : Found ρ N L t t' where
  root name hname := h name (hK hname) t t' ⟨scope, ht⟩ hlt
  below := h.mono hK (Nat.le_of_lt hlt)

theorem lockstep_of_eq_throw {Q : Binding → Binding → Prop} (h : m = throw .form) (h' : m' = throw .form) :
    m.Lockstep m' b b' Q := by
  rw [h, h']
  exact lockstep_throw _

theorem lockstep_matchExprs {ps ts ts' : List Expr} {Q : Binding → Binding → Prop} (hlength : ts.length = ts'.length)
    (h : ps.length = ts.length → (matchEach ps ts).Lockstep (matchEach ps ts') b b' Q) :
    (matchExprs ps ts).Lockstep (matchExprs ps ts') b b' Q := by
  rw [matchExprs, matchExprs, ← hlength]
  split_ifs with hps
  · exact h (eq_of_beq hps)
  · exact lockstep_throw _

theorem Expr.AllRenamed.length_eq {es es' : List Expr} (h : Expr.AllRenamed ρ scope es es') : es.length = es'.length := by
  induction es generalizing es' with
  | nil =>
    cases h
    rfl
  | cons e es ih =>
    cases h with
    | cons _ hs => rw [List.length_cons, List.length_cons, ih hs]

/-- The variables of a pattern: each is bound, or free. -/
def ScopeRule.orFree (free : String → Prop) : ScopeRule where
  occurs scope name := name ∈ scope ∨ free name
  binds _ _ := True

mutual

theorem lockstep_matchExpr (hfixes : Fixes ρ free) (p : Expr) {t t' : Expr} {names : List String} {scope : Renaming}
    {b b' : Binding} (hp : p.Scoped (.orFree free) names) (ht : Expr.Renamed ρ scope t t')
    (hun : ¬ OneToOne ρ → t.Scoped .unshadowed (scope.map Prod.fst) ∧ t'.Scoped .unshadowed (scope.map Prod.snd))
    (hfound : Found ρ N p.placeholders t t') (hready : Ready ρ free p.placeholders b) (hb : Paired ρ N b b')
    (haround : Around ρ names scope b b') :
    (matchExpr p t).Lockstep (matchExpr p t') b b' (Adds ρ N p.placeholders b b') := by
  cases p with
  | any id =>
    rw [matchExpr, matchExpr]
    exact lockstep_bindExpr hready hb ⟨scope, ht⟩
  | anyCompute rank allowReduce =>
    cases ht with
    | compute hshape haxes hvalue =>
      rw [matchExpr, matchExpr]
      refine Lockstep.guarded (by rw [haxes.length_eq]) (lockstep_check_adds ?_ hb)
      rw [hvalue.hasReduction_eq]
    | _ => exact lockstep_of_eq_throw (by simp only [matchExpr]) (by simp only [matchExpr])
  | anyReduce kind =>
    cases ht with
    | reduce => 
      rw [matchExpr, matchExpr]
      exact lockstep_check_adds rfl hb
    | _ => exact lockstep_of_eq_throw (by simp only [matchExpr]) (by simp only [matchExpr])
  | var v =>
    cases ht with
    | var hname hlinks htype =>
      rw [matchExpr, matchExpr]
      exact lockstep_matchVar hp hname hlinks htype hfixes hready hb haround
    | _ => exact lockstep_of_eq_throw (by simp only [matchExpr]) (by simp only [matchExpr])
  | const value dtype =>
    cases ht with
    | const =>
      rw [matchExpr]
      exact lockstep_check_adds rfl hb
    | _ => exact lockstep_of_eq_throw (by simp only [matchExpr]) (by simp only [matchExpr])
  | unary op arg =>
    cases ht with
    | unary harg =>
      rw [matchExpr, matchExpr]
      exact Lockstep.guarded rfl (lockstep_matchExpr hfixes arg hp harg hun
        (hfound.below.found (List.Subset.refl _) harg (by simp only [Expr.weight]; omega)) hready hb haround)
    | _ => exact lockstep_of_eq_throw (by simp only [matchExpr]) (by simp only [matchExpr])
  | binary op lhs rhs =>
    cases ht with
    | binary hlhs hrhs =>
      rw [matchExpr, matchExpr]
      have hleft := lockstep_matchExpr hfixes lhs hp.1 hlhs (fun h => ⟨(hun h).1.1, (hun h).2.1⟩)
        (hfound.below.found (List.subset_append_left _ _) hlhs (by simp only [Expr.weight]; omega)) hready.left hb haround
      exact Lockstep.guarded rfl (lockstep_seq hleft fun c c' hc =>
        lockstep_matchExpr hfixes rhs hp.2 hrhs (fun h => ⟨(hun h).1.2, (hun h).2.2⟩)
          (hfound.below.found (List.subset_append_right _ _) hrhs (by simp only [Expr.weight]; omega))
          (hready.right hc) hc.paired (haround.adds hc))
    | _ => exact lockstep_of_eq_throw (by simp only [matchExpr]) (by simp only [matchExpr])
  | letIn v value body =>
    cases ht with
    | letIn hvalue hv hbody =>
      rw [matchExpr, matchExpr]
      have hnames := List.forall₂_cons.mp hv |>.1
      have hrest : body.placeholders ⊆ (Expr.letIn v value body).placeholders :=
        fun _ h => List.mem_append_right _ (List.mem_append_right _ h)
      have hfirst := lockstep_matchExpr hfixes value hp.1 hvalue (fun h => ⟨(hun h).1.1, (hun h).2.1⟩)
        (hfound.below.found (List.subset_append_left _ _) hvalue (by simp only [Expr.weight]; omega)) hready.left hb haround
      refine lockstep_seq hfirst fun c c' hc => lockstep_seq_of_establishes
        (lockstep_bindVar (hready.right hc).left hc.paired hnames) (establishes_bindVar v.name _)
        (establishes_bindVar v.name _) fun d d' hd hbound hbound' => ?_
      refine lockstep_matchExpr hfixes body hp.2.2 hbody (fun h => ⟨(hun h).1.2.2, (hun h).2.2.2⟩)
        (hfound.below.found hrest hbody (by simp only [Expr.weight]; omega)) ((hready.right hc).right hd) hd.paired ?_
      exact ((haround.adds hc).adds hd).enter (.cons hbound .nil) (.cons hbound' .nil)
        fun h => ⟨(hun h).1.2.1, (hun h).2.2.1⟩
    | _ => exact lockstep_of_eq_throw (by simp only [matchExpr]) (by simp only [matchExpr])
  | ite cond thenE elseE =>
    cases ht with
    | ite hcond hthen helse =>
      rw [matchExpr, matchExpr]
      have hthens : thenE.placeholders ⊆ (Expr.ite cond thenE elseE).placeholders :=
        fun _ h => List.mem_append_right _ (List.mem_append_left _ h)
      have helses : elseE.placeholders ⊆ (Expr.ite cond thenE elseE).placeholders :=
        fun _ h => List.mem_append_right _ (List.mem_append_right _ h)
      have hfirst := lockstep_matchExpr hfixes cond hp.1 hcond (fun h => ⟨(hun h).1.1, (hun h).2.1⟩)
        (hfound.below.found (List.subset_append_left _ _) hcond (by simp only [Expr.weight]; omega)) hready.left hb haround
      refine lockstep_seq hfirst fun c c' hc => lockstep_seq
        (lockstep_matchExpr hfixes thenE hp.2.1 hthen (fun h => ⟨(hun h).1.2.1, (hun h).2.2.1⟩)
          (hfound.below.found hthens hthen (by simp only [Expr.weight]; omega))
          (hready.right hc).left hc.paired (haround.adds hc)) fun d d' hd => ?_
      exact lockstep_matchExpr hfixes elseE hp.2.2 helse (fun h => ⟨(hun h).1.2.2, (hun h).2.2.2⟩)
        (hfound.below.found helses helse (by simp only [Expr.weight]; omega))
        ((hready.right hc).right hd) hd.paired ((haround.adds hc).adds hd)
    | _ => exact lockstep_of_eq_throw (by simp only [matchExpr]) (by simp only [matchExpr])
  | element base indices =>
    cases ht with
    | element hbase hindices =>
      rw [matchExpr, matchExpr]
      have hfirst := lockstep_matchExpr hfixes base hp.1 hbase (fun h => ⟨(hun h).1.1, (hun h).2.1⟩)
        (hfound.below.found (List.subset_append_left _ _) hbase (by simp only [Expr.weight]; omega)) hready.left hb haround
      exact lockstep_seq hfirst fun c c' hc => lockstep_matchExprs hindices.length_eq fun hlength =>
        lockstep_matchEach hfixes indices hlength hp.2 hindices (fun h => ⟨(hun h).1.2, (hun h).2.2⟩)
          (hfound.below.mono (List.subset_append_right _ _) (by simp only [Expr.weight]; omega))
          (hready.right hc) hc.paired (haround.adds hc)
    | _ => exact lockstep_of_eq_throw (by simp only [matchExpr]) (by simp only [matchExpr])
  | call func args =>
    cases ht with
    | call hargs =>
      rw [matchExpr, matchExpr]
      exact Lockstep.guarded rfl (lockstep_matchExprs hargs.length_eq fun hlength =>
        lockstep_matchEach hfixes args hlength hp hargs hun
          (hfound.below.mono (List.Subset.refl _) (by simp only [Expr.weight]; omega)) hready hb haround)
    | _ => exact lockstep_of_eq_throw (by simp only [matchExpr]) (by simp only [matchExpr])
  | cast target arg =>
    cases ht with
    | cast htarget harg =>
      rw [matchExpr, matchExpr]
      have hfirst := lockstep_matchTy hfixes target hp.1 htarget (fun h => ⟨(hun h).1.1, (hun h).2.1⟩)
        (hfound.below.mono (List.subset_append_left _ _) (by simp only [Expr.weight]; omega)) hready.left hb haround
      exact lockstep_seq hfirst fun c c' hc =>
        lockstep_matchExpr hfixes arg hp.2 harg (fun h => ⟨(hun h).1.2, (hun h).2.2⟩)
          (hfound.below.found (List.subset_append_right _ _) harg (by simp only [Expr.weight]; omega))
          (hready.right hc) hc.paired (haround.adds hc)
    | _ => exact lockstep_of_eq_throw (by simp only [matchExpr]) (by simp only [matchExpr])
  | deref arg =>
    cases ht with
    | deref harg =>
      rw [matchExpr, matchExpr]
      exact lockstep_matchExpr hfixes arg hp harg hun
        (hfound.below.found (List.Subset.refl _) harg (by simp only [Expr.weight]; omega)) hready hb haround
    | _ => exact lockstep_of_eq_throw (by simp only [matchExpr]) (by simp only [matchExpr])
  | addr arg =>
    cases ht with
    | addr harg =>
      rw [matchExpr, matchExpr]
      exact lockstep_matchExpr hfixes arg hp harg hun
        (hfound.below.found (List.Subset.refl _) harg (by simp only [Expr.weight]; omega)) hready hb haround
    | _ => exact lockstep_of_eq_throw (by simp only [matchExpr]) (by simp only [matchExpr])
  | ref arg =>
    cases ht with
    | ref harg =>
      rw [matchExpr, matchExpr]
      exact lockstep_matchExpr hfixes arg hp harg hun
        (hfound.below.found (List.Subset.refl _) harg (by simp only [Expr.weight]; omega)) hready hb haround
    | _ => exact lockstep_of_eq_throw (by simp only [matchExpr]) (by simp only [matchExpr])
  | scalarInput name dtype =>
    cases ht with
    | scalarInput =>
      rw [matchExpr]
      exact (lockstep_matchDType dtype _ hb).bind fun c c' hc => (lockstep_bindNode (hready.right (K := []) hc) hc.paired
        ⟨scope, .scalarInput⟩ (hfound.root name List.mem_cons_self)).imp fun _ _ hd => hc.trans hd
    | _ => exact lockstep_of_eq_throw (by simp only [matchExpr]) (by simp only [matchExpr])
  | tensorInput name dtype shape =>
    cases ht with
    | @tensorInput _ _ _ tshape tshape' hshape =>
      rw [matchExpr, matchExpr]
      refine (lockstep_matchDType dtype _ hb).bind fun c c' hc => ?_
      have hready : Ready ρ free (Expr.shapePlaceholders shape ++ [.node name]) c := hready.right (K := []) hc
      have hshapes := lockstep_matchShape hfixes shape hp hshape hun
        (hfound.below.mono (List.subset_append_left _ _) (by simp only [Expr.weight]; omega))
        hready.left hc.paired (haround.adds hc)
      refine (lockstep_seq hshapes fun d d' hd => ?_).imp fun _ _ hd => hc.trans hd
      exact lockstep_bindNode (hready.right hd) hd.paired ⟨scope, .tensorInput hshape⟩
        (hfound.root name (List.mem_append_right _ List.mem_cons_self))
    | _ => exact lockstep_of_eq_throw (by simp only [matchExpr]) (by simp only [matchExpr])
  | compute name shape axes value =>
    cases ht with
    | @compute _ tname _ _ _ _ _ _ hshape haxes hvalue =>
      rw [matchExpr, matchExpr]
      have hvalues : value.placeholders ⊆ (Expr.compute name shape axes value).placeholders :=
        fun _ h => List.mem_append_right _ (List.mem_append_right _ (List.mem_append_left _ h))
      have hnode : .node name ∈ (Expr.compute name shape axes value).placeholders :=
        List.mem_append_right _ (List.mem_append_right _ (List.mem_append_right _ List.mem_cons_self))
      have hshapes := lockstep_matchExprs hshape.length_eq fun hlength =>
        lockstep_matchEach hfixes shape hlength hp.1 hshape (fun h => ⟨(hun h).1.1, (hun h).2.1⟩)
          (hfound.below.mono (List.subset_append_left _ _) (by simp only [Expr.weight]; omega)) hready.left hb haround
      refine lockstep_seq hshapes fun c c' hc => lockstep_seq_of_establishes
        (lockstep_matchAxes axes (hready.right hc).left hc.paired haxes) (establishes_matchAxes axes _)
        (establishes_matchAxes axes _) fun d d' hd hbound hbound' => ?_
      have haround := ((haround.adds hc).adds hd).enter hbound hbound' fun h => ⟨(hun h).1.2.1, (hun h).2.2.1⟩
      have hready := (hready.right hc).right hd
      have hvalue' := lockstep_matchExpr hfixes value hp.2.2 hvalue
        (fun h => ⟨Renaming.map_fst_enter haxes.length_eq ▸ (hun h).1.2.2,
          Renaming.map_snd_enter haxes.length_eq ▸ (hun h).2.2.2⟩)
        (hfound.below.found hvalues hvalue (by simp only [Expr.weight]; omega)) hready.left hd.paired haround
      exact lockstep_seq hvalue' fun e e' he =>
        lockstep_bindNode (hready.right he) he.paired ⟨scope, .compute hshape haxes hvalue⟩ (hfound.root name hnode)
    | _ => exact lockstep_of_eq_throw (by simp only [matchExpr]) (by simp only [matchExpr])
  | reduce kind shape axes value =>
    cases ht with
    | reduce hshape haxes hvalue =>
      rw [matchExpr, matchExpr]
      have hvalues : value.placeholders ⊆ (Expr.reduce kind shape axes value).placeholders :=
        fun _ h => List.mem_append_right _ (List.mem_append_right _ h)
      have hshapes := lockstep_matchExprs hshape.length_eq fun hlength =>
        lockstep_matchEach hfixes shape hlength hp.1 hshape (fun h => ⟨(hun h).1.1, (hun h).2.1⟩)
          (hfound.below.mono (List.subset_append_left _ _) (by simp only [Expr.weight]; omega)) hready.left hb haround
      refine Lockstep.guarded rfl (lockstep_seq hshapes fun c c' hc => lockstep_seq_of_establishes
        (lockstep_matchAxes axes (hready.right hc).left hc.paired haxes) (establishes_matchAxes axes _)
        (establishes_matchAxes axes _) fun d d' hd hbound hbound' => ?_)
      have haround := ((haround.adds hc).adds hd).enter hbound hbound' fun h => ⟨(hun h).1.2.1, (hun h).2.2.1⟩
      exact lockstep_matchExpr hfixes value hp.2.2 hvalue
        (fun h => ⟨Renaming.map_fst_enter haxes.length_eq ▸ (hun h).1.2.2,
          Renaming.map_snd_enter haxes.length_eq ▸ (hun h).2.2.2⟩)
        (hfound.below.found hvalues hvalue (by simp only [Expr.weight]; omega))
        ((hready.right hc).right hd) hd.paired haround
    | _ => exact lockstep_of_eq_throw (by simp only [matchExpr]) (by simp only [matchExpr])
termination_by structural p

theorem lockstep_matchEach (hfixes : Fixes ρ free) (ps : List Expr) {ts ts' : List Expr} (hlength : ps.length = ts.length)
    {names : List String} {scope : Renaming} {b b' : Binding} (hp : Expr.AllScoped (.orFree free) names ps)
    (ht : Expr.AllRenamed ρ scope ts ts')
    (hun : ¬ OneToOne ρ →
      Expr.AllScoped .unshadowed (scope.map Prod.fst) ts ∧ Expr.AllScoped .unshadowed (scope.map Prod.snd) ts')
    (hbelow : Below ρ N (Expr.allPlaceholders ps) (Expr.totalWeight ts + 1))
    (hready : Ready ρ free (Expr.allPlaceholders ps) b) (hb : Paired ρ N b b') (haround : Around ρ names scope b b') :
    (matchEach ps ts).Lockstep (matchEach ps ts') b b' (Adds ρ N (Expr.allPlaceholders ps) b b') := by
  cases ps with
  | nil =>
    cases ht with
    | nil =>
      rw [matchEach_nil]
      exact lockstep_pure (.refl hb)
    | cons => cases hlength
  | cons p ps =>
    cases ht with
    | nil => cases hlength
    | cons h hs =>
      rw [matchEach, matchEach]
      have hfirst := lockstep_matchExpr hfixes p hp.1 h (fun h => ⟨(hun h).1.1, (hun h).2.1⟩)
        (hbelow.found (List.subset_append_left _ _) h (by simp only [Expr.totalWeight]; omega)) hready.left hb haround
      exact lockstep_seq hfirst fun c c' hc => lockstep_matchEach hfixes ps (Nat.succ.inj hlength) hp.2 hs
        (fun h => ⟨(hun h).1.2, (hun h).2.2⟩) (hbelow.mono (List.subset_append_right _ _)
          (by simp only [Expr.totalWeight]; omega))
        (hready.right hc) hc.paired (haround.adds hc)
termination_by structural ps

theorem lockstep_matchShape (hfixes : Fixes ρ free) (p : Option (List Expr)) {t t' : Option (List Expr)}
    {names : List String} {scope : Renaming} {b b' : Binding} (hp : Expr.ShapeScoped (.orFree free) names p)
    (ht : Expr.ShapeRenamed ρ scope t t')
    (hun : ¬ OneToOne ρ →
      Expr.ShapeScoped .unshadowed (scope.map Prod.fst) t ∧ Expr.ShapeScoped .unshadowed (scope.map Prod.snd) t')
    (hbelow : Below ρ N (Expr.shapePlaceholders p) (Expr.shapeWeight t + 1))
    (hready : Ready ρ free (Expr.shapePlaceholders p) b) (hb : Paired ρ N b b') (haround : Around ρ names scope b b') :
    (matchShape p t).Lockstep (matchShape p t') b b' (Adds ρ N (Expr.shapePlaceholders p) b b') := by
  cases p with
  | none =>
    rw [matchShape, matchShape]
    exact lockstep_pure (.refl hb)
  | some ps =>
    cases ht with
    | opened => exact lockstep_of_eq_throw (by simp only [matchShape]) (by simp only [matchShape])
    | known h =>
      rw [matchShape, matchShape]
      exact lockstep_matchExprs h.length_eq fun hlength =>
        lockstep_matchEach hfixes ps hlength hp h hun hbelow hready hb haround
termination_by structural p

theorem lockstep_matchTy (hfixes : Fixes ρ free) (p : Ty) {t t' : Ty} {names : List String} {scope : Renaming}
    {b b' : Binding} (hp : p.Scoped (.orFree free) names) (ht : Ty.Renamed ρ scope t t')
    (hun : ¬ OneToOne ρ → t.Scoped .unshadowed (scope.map Prod.fst) ∧ t'.Scoped .unshadowed (scope.map Prod.snd))
    (hbelow : Below ρ N p.placeholders (t.weight + 1)) (hready : Ready ρ free p.placeholders b)
    (hb : Paired ρ N b b') (haround : Around ρ names scope b b') :
    (matchTy p t).Lockstep (matchTy p t') b b' (Adds ρ N p.placeholders b b') := by
  cases p with
  | scalar dtype =>
    cases ht with
    | scalar =>
      rw [matchTy]
      exact lockstep_matchDType dtype _ hb
    | _ => exact lockstep_of_eq_throw (by simp only [matchTy]) (by simp only [matchTy])
  | tensor type =>
    cases ht with
    | tensor h =>
      rw [matchTy, matchTy]
      exact lockstep_matchTensorType hfixes type hp h hun hbelow hready hb haround
    | _ => exact lockstep_of_eq_throw (by simp only [matchTy]) (by simp only [matchTy])
  | tensorPointer type =>
    cases ht with
    | tensorPointer h =>
      rw [matchTy, matchTy]
      exact lockstep_matchTensorType hfixes type hp h hun hbelow hready hb haround
    | _ => exact lockstep_of_eq_throw (by simp only [matchTy]) (by simp only [matchTy])
  | pointer base =>
    cases ht with
    | pointer h =>
      rw [matchTy, matchTy]
      exact lockstep_matchTy hfixes base hp h hun hbelow hready hb haround
    | _ => exact lockstep_of_eq_throw (by simp only [matchTy]) (by simp only [matchTy])
  | reference base =>
    cases ht with
    | reference h =>
      rw [matchTy, matchTy]
      exact lockstep_matchTy hfixes base hp h hun hbelow hready hb haround
    | _ => exact lockstep_of_eq_throw (by simp only [matchTy]) (by simp only [matchTy])
  | void =>
    cases ht with
    | void =>
      rw [matchTy]
      exact lockstep_pure (.refl hb)
    | _ => exact lockstep_of_eq_throw (by simp only [matchTy]) (by simp only [matchTy])
termination_by structural p

theorem lockstep_matchTensorType (hfixes : Fixes ρ free) (p : TensorType) {t t' : TensorType} {names : List String}
    {scope : Renaming} {b b' : Binding} (hp : p.Scoped (.orFree free) names) (ht : TensorType.Renamed ρ scope t t')
    (hun : ¬ OneToOne ρ → t.Scoped .unshadowed (scope.map Prod.fst) ∧ t'.Scoped .unshadowed (scope.map Prod.snd))
    (hbelow : Below ρ N p.placeholders (t.weight + 1)) (hready : Ready ρ free p.placeholders b)
    (hb : Paired ρ N b b') (haround : Around ρ names scope b b') :
    (matchTensorType p t).Lockstep (matchTensorType p t') b b' (Adds ρ N p.placeholders b b') := by
  have hstrides := ht.effectiveStrides?
  have hactual (h : ¬ OneToOne ρ) := And.intro (scoped_effectiveStrides? (hun h).1) (scoped_effectiveStrides? (hun h).2)
  have hweight := t.shapeWeight_effectiveStrides?_le
  obtain ⟨memory, dtype, shape, strides⟩ := p
  cases ht with
  | @mk _ tmemory tdtype tshape tshape' tstrides tstrides' hshape _ =>
    rw [matchTensorType.eq_def, matchTensorType.eq_def]
    dsimp only
    generalize TensorType.effectiveStrides? ⟨tmemory, tdtype, tshape, tstrides⟩ = actual at hstrides hactual hweight ⊢
    generalize TensorType.effectiveStrides? ⟨tmemory, tdtype, tshape', tstrides'⟩ = actual' at hstrides hactual ⊢
    refine (lockstep_matchScope memory tmemory hb).bind fun c c' hc => ?_
    refine (lockstep_seq (lockstep_matchDType dtype tdtype hc.paired) fun d d' hd => ?_).imp fun _ _ hd => hc.trans hd
    have hcd := hc.trans hd
    have hready : Ready ρ free (Expr.shapePlaceholders shape ++ Expr.shapePlaceholders strides) d :=
      Ready.right (K := []) hready hcd
    have hshapes := lockstep_matchShape hfixes shape hp.1 hshape (fun h => ⟨(hun h).1.1, (hun h).2.1⟩)
      (hbelow.mono (List.subset_append_left _ _) (by simp only [TensorType.weight]; omega))
      hready.left hd.paired (haround.adds hcd)
    refine lockstep_seq hshapes fun e e' he => ?_
    cases strides with
    | none => exact lockstep_pure (.refl he.paired)
    | some expected =>
      cases hstrides with
      | opened => exact lockstep_throw _
      | @known _ es es' hes =>
        exact lockstep_matchExprs hes.length_eq fun hlength =>
          lockstep_matchEach hfixes expected hlength hp.2 hes hactual
            (hbelow.mono (List.subset_append_right _ _) (Nat.succ_le_succ hweight))
            (hready.right he) he.paired ((haround.adds hcd).adds he)
termination_by structural p

end

end

end TensorCompiler
