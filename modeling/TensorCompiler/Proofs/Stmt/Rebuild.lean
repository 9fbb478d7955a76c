import TensorCompiler.Proofs.Expr.Rebuild
import TensorCompiler.Proofs.Stmt.Traversal

/-! # Rebuilding statements with effects

To rebuild a statement is to run one function over the expressions that it holds itself, then to rebuild its direct
sub-statements, and then to run the other function on the statement with the results in their places. So the expressions
of a tree are met in the order of the walk. If statements are left as they are, the tree is that with other expressions
in the places of its own.
-/

namespace TensorCompiler.Stmt

/-! ## Places -/

/-- The statement with other expressions in the places of those that it holds itself. -/
def withExprs : Stmt → List Expr → Stmt
  | eval _, [e] => eval e
  | assign v _, [value] => assign v value
  | store _ _ value, buf :: rest => store buf rest.dropLast (rest.getLastD value)
  | letIn v _ body, [value] => letIn v value body
  | forRange v _ unroll body, [extent] => forRange v extent unroll body
  | ite _ thenS elseS, [cond] => ite cond thenS elseS
  | assert _ message, [cond] => assert cond message
  | asm template outputs inputs volatile, es =>
    asm template ((outputs.map Prod.fst).zip (es.take outputs.length))
      ((inputs.map Prod.fst).zip (es.drop outputs.length)) volatile
  | raw template _, args => raw template args
  | ret (some _), [value] => ret (some value)
  | s, _ => s

/-- The statement with other statements in the places of its direct sub-statements. -/
def withChildren : Stmt → List Stmt → Stmt
  | letIn v value _, [body] => letIn v value body
  | forRange v extent unroll _, [body] => forRange v extent unroll body
  | ite cond _ none, [thenS] => ite cond thenS none
  | ite cond _ (some _), [thenS, elseS] => ite cond thenS (some elseS)
  | seq _, stmts => seq stmts
  | s, _ => s

/-- The expressions that the statements of a tree hold, in the order of the walk. -/
def heldExprs (s : Stmt) : List Expr :=
  s.preorder.flatMap exprs

mutual

/-- The tree with other expressions in the places of those that its statements hold, in the order of the walk. -/
def withHeldExprs : Stmt → List Expr → Stmt
  | letIn v _ body, value :: es => letIn v value (withHeldExprs body es)
  | forRange v _ unroll body, extent :: es => forRange v extent unroll (withHeldExprs body es)
  | ite _ thenS none, cond :: es => ite cond (withHeldExprs thenS es) none
  | ite _ thenS (some elseS), cond :: es =>
    let held := thenS.heldExprs.length
    ite cond (withHeldExprs thenS (es.take held)) (some (withHeldExprs elseS (es.drop held)))
  | seq stmts, es => seq (withHeldExprsAll stmts es)
  | s, es => s.withExprs es

/-- Several trees with other expressions in the places of theirs. -/
def withHeldExprsAll : List Stmt → List Expr → List Stmt
  | [], _ => []
  | s :: ss, es =>
    let held := s.heldExprs.length
    withHeldExprs s (es.take held) :: withHeldExprsAll ss (es.drop held)

end

theorem heldExprs_eq (s : Stmt) : s.heldExprs = s.exprs ++ s.children.flatMap heldExprs := by
  rw [heldExprs, preorder_eq, List.flatMap_cons, List.flatMap_assoc]
  rfl

theorem withExprs_exprs (s : Stmt) : s.withExprs s.exprs = s := by
  cases s with
  | asm template outputs inputs volatile => simp [exprs, withExprs, List.zip_map']
  | ret value => cases value <;> rfl
  | store buf indices value => simp [exprs, withExprs]
  | _ => rfl

theorem withChildren_children (s : Stmt) : s.withChildren s.children = s := by
  cases s with
  | ite cond thenS elseS => cases elseS <;> rfl
  | _ => rfl

theorem mapOwnExprs_eq (f : Expr → Expr) (s : Stmt) : s.mapOwnExprs f = s.withExprs (s.exprs.map f) := by
  cases s with
  | store buf indices value => simp [mapOwnExprs, exprs, withExprs]
  | asm template outputs inputs volatile => simp [mapOwnExprs, exprs, withExprs, List.zip_map', Function.comp_def]
  | ret value => cases value <;> rfl
  | _ => rfl

/-- A rebuild without effects puts together the images of the expressions and of the sub-statements. -/
theorem map_eq (fs : Stmt → Stmt) (fe : Expr → Expr) (s : Stmt) :
    s.map fs fe = fs ((s.withChildren (s.children.map (map fs fe))).withExprs (s.exprs.map fe)) := by
  cases s with
  | ite cond thenS elseS => cases elseS <;> rfl
  | letIn | forRange => rfl
  | seq stmts =>
    rw [map, mapAll_eq]
    rfl
  | _ =>
    rw [map, mapOwnExprs_eq]
    all_goals simp [withChildren]

theorem map_id (s : Stmt) : s.map id id = s := by
  induction s using Stmt.induct with
  | node s ih =>
    rw [map_eq, List.map_congr_left ih, List.map_id', List.map_id, withChildren_children, withExprs_exprs, id]

section

variable {s : Stmt} {es : List Expr} {cs : List Stmt}

theorem exprs_withChildren (s : Stmt) (cs : List Stmt) : (s.withChildren cs).exprs = s.exprs := by
  unfold withChildren
  split <;> rfl

theorem children_withExprs (s : Stmt) (es : List Expr) : (s.withExprs es).children = s.children := by
  unfold withExprs
  split <;> rfl

theorem children_withChildren (hlength : cs.length = s.children.length) : (s.withChildren cs).children = cs := by
  cases s with
  | letIn | forRange =>
    obtain ⟨body, rfl⟩ := List.length_eq_one_iff.mp hlength
    rfl
  | ite cond thenS elseS =>
    cases elseS with
    | none =>
      obtain ⟨thenS, rfl⟩ := List.length_eq_one_iff.mp hlength
      rfl
    | some =>
      obtain ⟨thenS, elseS, rfl⟩ := List.length_eq_two.mp hlength
      rfl
  | seq => rfl
  | _ => exact (List.length_eq_zero_iff.mp hlength).symm

theorem exprs_withExprs (hlength : es.length = s.exprs.length) : (s.withExprs es).exprs = es := by
  cases s with
  | store buf indices value =>
    obtain ⟨buf, rest, rfl⟩ := List.exists_cons_of_length_eq_add_one hlength
    rcases List.eq_nil_or_concat' rest with rfl | ⟨indices, value, rfl⟩
    · simp [exprs] at hlength
    · simp [exprs, withExprs]
  | asm template outputs inputs volatile =>
    simp only [exprs, List.length_append, List.length_map] at hlength
    simp [exprs, withExprs, List.map_snd_zip, hlength]
  | raw => rfl
  | seq => exact (List.length_eq_zero_iff.mp hlength).symm
  | ret value =>
    cases value with
    | none => exact (List.length_eq_zero_iff.mp hlength).symm
    | some =>
      obtain ⟨value, rfl⟩ := List.length_eq_one_iff.mp hlength
      rfl
  | _ =>
    obtain ⟨e, rfl⟩ := List.length_eq_one_iff.mp hlength
    rfl

/-- Put back in their places, the parts of a statement make it up again. -/
theorem withExprs_withChildren_restore (hes : es.length = s.exprs.length) (hcs : cs.length = s.children.length) :
    (((s.withChildren cs).withExprs es).withChildren s.children).withExprs s.exprs = s := by
  cases s with
  | letIn | forRange =>
    obtain ⟨e, rfl⟩ := List.length_eq_one_iff.mp hes
    obtain ⟨body, rfl⟩ := List.length_eq_one_iff.mp hcs
    rfl
  | ite cond thenS elseS =>
    obtain ⟨e, rfl⟩ := List.length_eq_one_iff.mp hes
    cases elseS with
    | none =>
      obtain ⟨thenS, rfl⟩ := List.length_eq_one_iff.mp hcs
      rfl
    | some =>
      obtain ⟨thenS, elseS, rfl⟩ := List.length_eq_two.mp hcs
      rfl
  | store buf indices value =>
    obtain ⟨e, rest, rfl⟩ := List.exists_cons_of_length_eq_add_one hes
    simp [exprs, children, withExprs, withChildren]
  | asm template outputs inputs volatile =>
    simp only [exprs, List.length_append, List.length_map] at hes
    simp [exprs, children, withExprs, withChildren, List.map_fst_zip, List.zip_map', hes]
  | ret value =>
    cases value with
    | none => rfl
    | some =>
      obtain ⟨e, rfl⟩ := List.length_eq_one_iff.mp hes
      rfl
  | eval | assign | assert =>
    obtain ⟨e, rfl⟩ := List.length_eq_one_iff.mp hes
    rfl
  | raw | seq => rfl

end

/-! ## Trees with other expressions -/

theorem length_withHeldExprsAll (ss : List Stmt) (es : List Expr) : (withHeldExprsAll ss es).length = ss.length := by
  induction ss generalizing es with
  | nil => rfl
  | cons s ss ih => rw [withHeldExprsAll, List.length_cons, List.length_cons, ih]

/-- A list of a sum of two lengths is made of lists of these lengths. -/
theorem exists_append_of_length {es : List Expr} {a b : Nat} (h : es.length = a + b) :
    ∃ own others, es = own ++ others ∧ own.length = a ∧ others.length = b :=
  ⟨es.take a, es.drop a, (List.take_append_drop a es).symm, by simp [h], by simp [h]⟩

/-- The first expressions are for the statement itself and the others for the trees below it. -/
theorem withHeldExprs_append {s : Stmt} {own others : List Expr} (hown : own.length = s.exprs.length)
    (hothers : others.length = (s.children.flatMap heldExprs).length) :
    s.withHeldExprs (own ++ others) = (s.withChildren (withHeldExprsAll s.children others)).withExprs own := by
  cases s with
  | letIn | forRange =>
    obtain ⟨e, rfl⟩ := List.length_eq_one_iff.mp hown
    simp_all [withHeldExprs, withHeldExprsAll, children, withChildren, withExprs, List.take_of_length_le]
  | ite cond thenS elseS =>
    obtain ⟨e, rfl⟩ := List.length_eq_one_iff.mp hown
    cases elseS <;>
      simp_all [withHeldExprs, withHeldExprsAll, children, withChildren, withExprs, List.take_of_length_le]
  | seq stmts =>
    obtain rfl := List.length_eq_zero_iff.mp hown
    simp [withHeldExprs, children, withChildren, withExprs]
  | _ =>
    -- without sub-statements there is nothing for the others to be put in
    obtain rfl := List.length_eq_zero_iff.mp hothers
    rw [List.append_nil, withHeldExprs]
    all_goals simp [withChildren]

theorem heldExprs_withHeldExprsAll {ss : List Stmt} {es : List Expr}
    (h : ∀ s ∈ ss, ∀ es, es.length = s.heldExprs.length → (s.withHeldExprs es).heldExprs = es)
    (hlength : es.length = (ss.flatMap heldExprs).length) : (withHeldExprsAll ss es).flatMap heldExprs = es := by
  induction ss generalizing es with
  | nil => exact (List.length_eq_zero_iff.mp hlength).symm
  | cons s ss ih =>
    obtain ⟨own, others, rfl, hown, hothers⟩ := exists_append_of_length (List.length_append ▸ hlength)
    rw [withHeldExprsAll, List.take_left' hown, List.drop_left' hown, List.flatMap_cons, h s List.mem_cons_self own hown,
      ih (fun t ht => h t (List.mem_cons_of_mem _ ht)) hothers]

/-- What a tree is given as its expressions it has as its expressions. -/
theorem heldExprs_withHeldExprs {s : Stmt} {es : List Expr} (hlength : es.length = s.heldExprs.length) :
    (s.withHeldExprs es).heldExprs = es := by
  induction s using Stmt.induct generalizing es with
  | node s ih =>
    rw [heldExprs_eq, List.length_append] at hlength
    obtain ⟨own, others, rfl, hown, hothers⟩ := exists_append_of_length hlength
    rw [withHeldExprs_append hown hothers, heldExprs_eq, children_withExprs,
      children_withChildren (length_withHeldExprsAll _ _), exprs_withExprs (by rw [exprs_withChildren, hown]),
      heldExprs_withHeldExprsAll (fun c hc es => ih c hc) hothers]

theorem withHeldExprsAll_restore {ss : List Stmt} {es : List Expr}
    (h : ∀ s ∈ ss, ∀ es, es.length = s.heldExprs.length → (s.withHeldExprs es).withHeldExprs s.heldExprs = s)
    (hlength : es.length = (ss.flatMap heldExprs).length) :
    withHeldExprsAll (withHeldExprsAll ss es) (ss.flatMap heldExprs) = ss := by
  induction ss generalizing es with
  | nil => rfl
  | cons s ss ih =>
    obtain ⟨own, others, rfl, hown, hothers⟩ := exists_append_of_length (List.length_append ▸ hlength)
    have hheld : s.heldExprs.length = (s.withHeldExprs own).heldExprs.length := by
      rw [heldExprs_withHeldExprs hown, hown]
    rw [withHeldExprsAll, List.take_left' hown, List.drop_left' hown, withHeldExprsAll, List.flatMap_cons,
      List.take_left' hheld, List.drop_left' hheld, h s List.mem_cons_self own hown,
      ih (fun t ht => h t (List.mem_cons_of_mem _ ht)) hothers]

/-- A tree with other expressions is the tree again once its own are put back: nothing else has changed. -/
theorem withHeldExprs_restore {s : Stmt} {es : List Expr} (hlength : es.length = s.heldExprs.length) :
    (s.withHeldExprs es).withHeldExprs s.heldExprs = s := by
  induction s using Stmt.induct generalizing es with
  | node s ih =>
    have hheld := heldExprs_eq s
    rw [hheld, List.length_append] at hlength
    obtain ⟨own, others, rfl, hown, hothers⟩ := exists_append_of_length hlength
    have hcs := length_withHeldExprsAll s.children others
    have hchildren := heldExprs_withHeldExprsAll (fun c hc es => heldExprs_withHeldExprs) hothers
    rw [withHeldExprs_append hown hothers, hheld, withHeldExprs_append, children_withExprs, children_withChildren hcs,
      withHeldExprsAll_restore (fun c hc es => ih c hc) hothers, withExprs_withChildren_restore hown hcs]
    · rw [exprs_withExprs (by rw [exprs_withChildren, hown]), hown]
    · rw [children_withExprs, children_withChildren hcs, hchildren, hothers]

/-! ## Steps -/

section

variable {m : Type → Type} [Monad m] [LawfulMonad m] (fs : Stmt → m Stmt) (fe : Expr → m Expr)

/-- Going through labelled expressions leaves the labels. -/
theorem mapM_labelled (operands : List (String × Expr)) :
    (operands.mapM fun o => do let e ← fe o.2; pure (o.1, e)) =
      (operands.map Prod.fst).zip <$> (operands.map Prod.snd).mapM fe := by
  induction operands with
  | nil => simp
  | cons o operands ih =>
    rw [List.mapM_cons, ih]
    simp [List.mapM_cons]

theorem mapOwnExprsM_eq (s : Stmt) : s.mapOwnExprsM fe = s.withExprs <$> s.exprs.mapM fe := by
  cases s with
  | asm template outputs inputs volatile =>
    -- the results for the outputs come first, and their number tells where those for the inputs start
    have htake (new : List Expr) (hnew : new.length = (outputs.map Prod.snd).length) (inside : List Expr) :
        asm template ((outputs.map Prod.fst).zip new) ((inputs.map Prod.fst).zip inside) volatile =
          (asm template outputs inputs volatile).withExprs (new ++ inside) := by
      rw [List.length_map] at hnew
      simp [withExprs, ← hnew]
    simp only [mapOwnExprsM, mapM_labelled, exprs, List.mapM_append, bind_map_left, map_bind, map_pure]
    exact mapM_bind_congr fun new hnew => bind_congr fun inside => congrArg pure (htake new hnew inside)
  | raw template args => exact bind_pure_comp _ _
  | ret value => cases value <;> simp [mapOwnExprsM, exprs, withExprs]
  | _ => simp [mapOwnExprsM, exprs, withExprs]

theorem mapAllM_eq (ss : List Stmt) : mapAllM fs fe ss = ss.mapM (mapM fs fe) := by
  induction ss with
  | nil => rfl
  | cons s ss ih => rw [mapAllM, List.mapM_cons, ih]

/-- A rebuild runs over the expressions of the statement, then over its sub-statements, and then on the statement with
the results in their places. -/
theorem mapM_eq (s : Stmt) :
    s.mapM fs fe = (do
      let es ← s.exprs.mapM fe
      let cs ← s.children.mapM (mapM fs fe)
      fs ((s.withChildren cs).withExprs es)) := by
  cases s with
  | ite cond thenS elseS => cases elseS <;> simp [mapM, exprs, children, withChildren, withExprs]
  | letIn | forRange => simp [mapM, exprs, children, withChildren, withExprs]
  | seq stmts => simp [mapM, exprs, children, withChildren, withExprs, mapAllM_eq]
  | _ =>
    rw [mapM, mapOwnExprsM_eq, bind_map_left]
    all_goals simp [children, withChildren]

/-- The expressions that a rebuild meets are those that the tree holds, in the order of the walk. -/
theorem run_mapM_noting (s : Stmt) (log : List Expr) :
    (s.mapM (fun t => StateT.lift (fs t)) (noting fe)).run log =
      (fun t => (t, log ++ s.heldExprs)) <$> s.mapM fs fe := by
  induction s using Stmt.induct generalizing log with
  | node s ih =>
    have hexprs (log : List Expr) :
        (s.exprs.mapM (noting fe)).run log = (fun es => (es, log ++ s.exprs)) <$> s.exprs.mapM fe := by
      rw [run_mapM_of_run fun e _ => run_noting fe e, List.flatMap_singleton']
    have hchildren (log : List Expr) := run_mapM_of_run ih log
    rw [mapM_eq, mapM_eq fs fe s, heldExprs_eq]
    simp [StateT.run_bind, StateT.run_lift, hexprs, hchildren]

theorem mapM_withHeldExprs {ss : List Stmt}
    (h : ∀ s ∈ ss, s.mapM pure fe = s.withHeldExprs <$> s.heldExprs.mapM fe) :
    ss.mapM (mapM pure fe) = withHeldExprsAll ss <$> (ss.flatMap heldExprs).mapM fe := by
  induction ss with
  | nil => simp [withHeldExprsAll]
  | cons s ss ih =>
    have ih := ih fun t ht => h t (List.mem_cons_of_mem _ ht)
    rw [List.mapM_cons, h s List.mem_cons_self, ih, List.flatMap_cons, List.mapM_append]
    simp only [bind_map_left, map_bind, bind_pure_comp, Functor.map_map]
    refine mapM_bind_congr fun own hown => congrArg (· <$> _) (funext fun others => ?_)
    rw [withHeldExprsAll, List.take_left' hown, List.drop_left' hown]

/-- A rebuild that leaves the statements as they are changes the expressions that they hold, and nothing else. -/
theorem mapM_pure_eq (s : Stmt) : s.mapM pure fe = s.withHeldExprs <$> s.heldExprs.mapM fe := by
  induction s using Stmt.induct with
  | node s ih =>
    rw [mapM_eq, mapM_withHeldExprs fe ih, heldExprs_eq, List.mapM_append]
    simp only [bind_map_left, map_bind, map_pure]
    exact mapM_bind_congr fun own hown => mapM_bind_congr fun others hothers =>
      congrArg pure (withHeldExprs_append hown hothers).symm

theorem mapM_pure (fs : Stmt → Stmt) (fe : Expr → Expr) (s : Stmt) :
    s.mapM (fun t => pure (fs t)) (fun e => pure (fe e)) = (pure (s.map fs fe) : m Stmt) := by
  induction s using Stmt.induct with
  | node s ih =>
    have hchildren : s.children.mapM (mapM (fun t => pure (fs t)) fun e => pure (fe e)) =
        (pure (s.children.map (map fs fe)) : m (List Stmt)) :=
      (mapM_congr_of_mem ih).trans List.mapM_pure
    rw [mapM_eq, map_eq, List.mapM_pure, pure_bind, hchildren, pure_bind]

end

end TensorCompiler.Stmt

namespace TensorCompiler

/-! ## Walks and rebuilds -/

/-- What the rebuilds meet is what the walks meet, and they change nothing but what the functions change.

The rebuild of a node runs the function over its direct sub-expressions, in their order, and gives the node with the
results as its direct sub-expressions. A bottom-up rebuild that leaves each node as it is gives the tree and visits the
nodes of the walk, each right behind those of the trees below it. The rebuild of a statement runs the function for
expressions over those that the tree holds, in the order of the walk, whatever the function for statements does. If that
one leaves each statement as it is, the tree has the results in the places of its expressions and is the same again once
these are put back, and if both functions leave everything as it is, so does the rebuild. -/
theorem rebuilds_follow_walks {m : Type → Type} [Monad m] [LawfulMonad m] (e : Expr) (s : Stmt) :
    (∀ f : Expr → m Expr, e.mapChildrenM f = e.withChildren <$> e.children.mapM f) ∧
      (∀ f : Expr → Expr, e.mapChildrenM (fun c => pure (f c)) = (pure (e.mapChildren f) : m Expr)) ∧
      (∀ parts : List Expr, parts.length = e.children.length → (e.withChildren parts).children = parts ∧
        (e.withChildren parts).withChildren e.children = e) ∧
      (∀ visit : Expr → m Unit,
        e.mapBottomUpM (fun node => do visit node; pure node) = (do e.postorder.forM visit; pure e)) ∧
      e.mapBottomUp id = e ∧ e.postorder.Perm e.preorder ∧
      (∀ before node after, e.postorder = before ++ node :: after →
        node.children.flatMap Expr.postorder <:+ before) ∧
      (∀ (fs : Stmt → m Stmt) (fe : Expr → m Expr) (log : List Expr),
        (s.mapM (fun t => StateT.lift (fs t)) (noting fe)).run log =
          (fun t => (t, log ++ s.preorder.flatMap Stmt.exprs)) <$> s.mapM fs fe) ∧
      (∀ fe : Expr → m Expr, s.mapM pure fe = s.withHeldExprs <$> (s.preorder.flatMap Stmt.exprs).mapM fe) ∧
      (∀ es : List Expr, es.length = (s.preorder.flatMap Stmt.exprs).length →
        (s.withHeldExprs es).preorder.flatMap Stmt.exprs = es ∧
          (s.withHeldExprs es).withHeldExprs (s.preorder.flatMap Stmt.exprs) = s) ∧
      (∀ (fs : Stmt → Stmt) (fe : Expr → Expr),
        s.mapM (fun t => pure (fs t)) (fun e => pure (fe e)) = (pure (s.map fs fe) : m Stmt)) ∧
      s.map id id = s :=
  ⟨fun f => e.mapChildrenM_eq f, fun f => e.mapChildrenM_pure f,
    fun _ hlength => ⟨Expr.children_withChildren hlength, Expr.withChildren_restore hlength⟩,
    fun visit => e.mapBottomUpM_visit visit, e.mapBottomUp_id, e.perm_postorder_preorder,
    fun _ _ _ => Expr.suffix_of_postorder_eq,
    fun fs fe log => s.run_mapM_noting fs fe log, fun fe => s.mapM_pure_eq fe,
    fun _ hlength => ⟨Stmt.heldExprs_withHeldExprs hlength, Stmt.withHeldExprs_restore hlength⟩,
    fun fs fe => s.mapM_pure fs fe, s.map_id⟩

/-- An assembler block with two outputs and an input in one branch, and a store followed by a return in the other. -/
def twoBranches : Stmt :=
  .ite (.bool true)
    (.asm "add %0, %1, %2;" [("=r", .var (.int "b")), ("=r", .var (.int "c"))] [("r", .var (.int "d"))] true)
    (some (.seq [.store (.var (.int "e")) [.var (.int "f"), .var (.int "g")] (.var (.int "h")),
      .ret (some (.var (.int "i")))]))

/-- The expressions of the branches replaced by their positions in the walk. -/
theorem rebuild_twoBranches :
    StateT.run (m := Id) (twoBranches.mapM pure fun _ => modifyGet fun n : Int64 => (Expr.int n, n + 1)) 0 =
      (.ite (.int 0)
        (.asm "add %0, %1, %2;" [("=r", .int 1), ("=r", .int 2)] [("r", .int 3)] true)
        (some (.seq [.store (.int 4) [.int 5, .int 6] (.int 7), .ret (some (.int 8))])), 9) := by
  obtain ⟨-, -, -, -, -, -, -, -, hplaces, -⟩ := rebuilds_follow_walks (m := StateM Int64) (.int 0) twoBranches
  exact congrArg (StateT.run · 0) (hplaces _)

end TensorCompiler
