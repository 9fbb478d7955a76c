import Mathlib.Data.List.Perm.Basic
import TensorCompiler.Proofs.Expr.Traversal

/-! # Rebuilding expressions with effects

To rebuild a node is to run the function over its direct sub-expressions, in their order, and to put the results in their
places. To rebuild a tree bottom-up is to do so at every node and then to run the function on the node itself. With a
function that leaves each node as it is, the tree stays as it is, and the function meets the nodes of the walk, each
right behind those of the trees below it.
-/

namespace TensorCompiler

variable {m : Type → Type} [Monad m] {α β γ : Type}

/-! ## Lists -/

/-- A function with the arguments that it is applied to noted in a list. -/
def noting (f : α → m β) (x : α) : StateT (List α) m β := do
  modify (· ++ [x])
  StateT.lift (f x)

/-- A member of a joined list is a member of one of the lists, behind the end of what it is behind altogether. -/
theorem exists_of_flatMap_eq {f : α → List β} {xs : List α} {y : β} {before after : List β}
    (h : xs.flatMap f = before ++ y :: after) :
    ∃ x ∈ xs, ∃ inner rest, f x = inner ++ y :: rest ∧ inner <:+ before := by
  induction xs generalizing before with
  | nil => simp at h
  | cons x xs ih =>
    rw [List.flatMap_cons] at h
    rcases List.append_eq_append_iff.mp h with ⟨between, rfl, hlater⟩ | ⟨rest, hfirst, hrest⟩
    · obtain ⟨x', hx', inner, rest, hinner, hsuffix⟩ := ih hlater
      exact ⟨x', List.mem_cons_of_mem _ hx', inner, rest, hinner, hsuffix.trans (List.suffix_append _ _)⟩
    · cases rest with
      | cons first rest =>
        obtain ⟨rfl, -⟩ := List.cons.inj hrest
        exact ⟨x, List.mem_cons_self, before, rest, hfirst, List.suffix_rfl⟩
      | nil =>
        have hlater : xs.flatMap f = [] ++ y :: after := List.nil_append _ ▸ hrest.symm
        obtain ⟨x', hx', inner, rest, hinner, hsuffix⟩ := ih hlater
        rw [List.suffix_nil] at hsuffix
        exact ⟨x', List.mem_cons_of_mem _ hx', inner, rest, hinner, hsuffix ▸ List.nil_suffix⟩

variable [LawfulMonad m]

theorem run_noting (f : α → m β) (x : α) (log : List α) :
    (noting f x).run log = (fun y => (y, log ++ [x])) <$> f x := by
  simp [noting, StateT.run_bind, StateT.run_lift, StateT.run_modify]

/-- What is noted over a list is what is noted for its members, in their order. -/
theorem run_mapM_of_run {g : α → StateT (List γ) m β} {f : α → m β} {notes : α → List γ} {xs : List α}
    (h : ∀ x ∈ xs, ∀ log, (g x).run log = (fun y => (y, log ++ notes x)) <$> f x) (log : List γ) :
    (xs.mapM g).run log = (fun ys => (ys, log ++ xs.flatMap notes)) <$> xs.mapM f := by
  induction xs generalizing log with
  | nil => simp
  | cons x xs ih =>
    have hx := h x List.mem_cons_self
    have ih := ih fun y hy => h y (List.mem_cons_of_mem _ hy)
    simp [List.mapM_cons, StateT.run_bind, hx, ih]

theorem mapM_congr_of_mem {f g : α → m β} {xs : List α} (h : ∀ x ∈ xs, f x = g x) :
    xs.mapM f = xs.mapM g := by
  induction xs with
  | nil => rfl
  | cons x xs ih =>
    have ih := ih fun y hy => h y (List.mem_cons_of_mem _ hy)
    rw [List.mapM_cons, List.mapM_cons, h x List.mem_cons_self, ih]

/-- Going through a list gives a list of its length. -/
theorem mapM_bind_congr {f : α → m β} {xs : List α} {g h : List β → m γ}
    (heq : ∀ ys, ys.length = xs.length → g ys = h ys) : xs.mapM f >>= g = xs.mapM f >>= h := by
  induction xs generalizing g h with
  | nil => simpa using heq [] rfl
  | cons x xs ih =>
    simp only [List.mapM_cons, bind_assoc, pure_bind]
    refine bind_congr fun y => ih fun ys hys => heq (y :: ys) ?_
    rw [List.length_cons, List.length_cons, hys]

namespace Expr

/-! ## Nodes -/

/-- The function runs over the direct sub-expressions, in their order, and the node has the results in their places. -/
theorem mapChildrenM_eq (f : Expr → m Expr) (e : Expr) : e.mapChildrenM f = e.withChildren <$> e.children.mapM f := by
  cases e
  case tensorInput name dtype shape =>
    cases shape with
    | none => simp [mapChildrenM, children, withChildren]
    | some shape => exact bind_pure_comp _ _
  case call func args => exact bind_pure_comp _ _
  all_goals simp [mapChildrenM, children, withChildren]

theorem mapChildrenM_pure (f : Expr → Expr) (e : Expr) :
    e.mapChildrenM (fun c => pure (f c)) = (pure (e.mapChildren f) : m Expr) := by
  rw [mapChildrenM_eq, List.mapM_pure, map_pure, mapChildren_eq]

/-! ## Trees -/

theorem mapBottomUpAllM_eq_mapM (f : Expr → m Expr) (es : List Expr) :
    mapBottomUpAllM f es = es.mapM (mapBottomUpM f) := by
  induction es with
  | nil => rfl
  | cons e es ih => rw [mapBottomUpAllM, List.mapM_cons, ih]

/-- A bottom-up rebuild runs over the direct sub-expressions and then on the rebuilt node. -/
theorem mapBottomUpM_eq (f : Expr → m Expr) (e : Expr) : e.mapBottomUpM f = e.mapChildrenM (mapBottomUpM f) >>= f := by
  cases e
  case tensorInput name dtype shape => cases shape <;> simp [mapChildrenM, mapBottomUpM, mapBottomUpAllM_eq_mapM]
  all_goals simp [mapChildrenM, mapBottomUpM, mapBottomUpAllM_eq_mapM]

/-! ## Visits -/

theorem mapM_visit {g : Expr → m Expr} {nodes : Expr → List Expr} {visit : Expr → m Unit} {es : List Expr}
    (h : ∀ e ∈ es, g e = (do (nodes e).forM visit; pure e)) :
    es.mapM g = (do (es.flatMap nodes).forM visit; pure es) := by
  induction es with
  | nil => simp
  | cons e es ih =>
    have ih := ih fun c hc => h c (List.mem_cons_of_mem _ hc)
    simp [List.mapM_cons, h e List.mem_cons_self, ih]

/-- Visits to the trees below a node in their postorder and to the node make up a visit to the tree. -/
theorem mapBottomUpM_of_children {e : Expr} {visit : Expr → m Unit}
    (h : ∀ c ∈ e.children,
      c.mapBottomUpM (fun node => do visit node; pure node) = (do c.postorder.forM visit; pure c)) :
    e.mapBottomUpM (fun node => do visit node; pure node) =
      (do (e.children.flatMap postorder ++ [e]).forM visit; pure e) := by
  rw [mapBottomUpM_eq, mapChildrenM_eq, mapM_visit h]
  simp [withChildren_children]

/-- The action that notes a node down. -/
def note (node : Expr) : StateT (List Expr) Id Unit :=
  modify (· ++ [node])

theorem run_forM_note (es log : List Expr) : (es.forM note).run log = ((), log ++ es) := by
  induction es generalizing log with
  | nil => rw [List.append_nil]; rfl
  | cons e es ih =>
    refine (ih (log ++ [e])).trans ?_
    rw [List.append_assoc, List.singleton_append]

theorem mapBottomUpM_note (e : Expr) :
    e.mapBottomUpM (fun node => do note node; pure node) = (do e.postorder.forM note; pure e) ∧
      e.postorder = e.children.flatMap postorder ++ [e] := by
  induction e using Expr.induct with
  | node e ih =>
    have hrun := mapBottomUpM_of_children fun c hc => (ih c hc).1
    have hpostorder : e.postorder = e.children.flatMap postorder ++ [e] := by
      have hnoted := congrArg (fun action => (StateT.run action []).2) hrun
      rw [StateT.run_bind, run_forM_note] at hnoted
      exact hnoted
    refine ⟨?_, hpostorder⟩
    rw [hrun, hpostorder]

/-- The postorder of a tree is that of the trees below its root, and then the root. -/
theorem postorder_eq (e : Expr) : e.postorder = e.children.flatMap postorder ++ [e] :=
  (mapBottomUpM_note e).2

/-- A rebuild with a function that leaves each node as it is visits the nodes of the postorder and gives the tree. -/
theorem mapBottomUpM_visit (visit : Expr → m Unit) (e : Expr) :
    e.mapBottomUpM (fun node => do visit node; pure node) = (do e.postorder.forM visit; pure e) := by
  induction e using Expr.induct with
  | node e ih => rw [mapBottomUpM_of_children ih, postorder_eq]

omit [LawfulMonad m] in
theorem mapBottomUp_id (e : Expr) : e.mapBottomUp id = e :=
  mapBottomUpM_visit (m := Id) (fun _ => pure ()) e

omit [LawfulMonad m] in
/-- A rebuild visits the nodes of the walk. -/
theorem perm_postorder_preorder (e : Expr) : e.postorder.Perm e.preorder := by
  induction e using Expr.induct with
  | node e ih =>
    rw [postorder_eq, preorder_eq]
    exact (List.perm_append_singleton e _).trans ((List.Perm.flatMap_left _ ih).cons e)

omit [LawfulMonad m] in
/-- The visits right before that of a node are those of the trees below it. -/
theorem suffix_of_postorder_eq {e node : Expr} {before after : List Expr} (h : e.postorder = before ++ node :: after) :
    node.children.flatMap postorder <:+ before := by
  induction e using Expr.induct generalizing before after with
  | node e ih =>
    rw [postorder_eq] at h
    rcases List.eq_nil_or_concat' after with rfl | ⟨after, root, rfl⟩
    · obtain ⟨rfl, hroot⟩ := List.append_inj' h rfl
      cases hroot
      exact List.suffix_rfl
    · rw [← List.cons_append, ← List.append_assoc] at h
      obtain ⟨c, hc, inner, rest, hinner, hsuffix⟩ := exists_of_flatMap_eq (List.append_inj' h rfl).1
      exact (ih c hc hinner).trans hsuffix

end Expr

end TensorCompiler
