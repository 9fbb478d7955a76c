import Mathlib.Data.List.Forall2
import TensorCompiler.Proofs.Expr.FoldTyping
import TensorCompiler.Proofs.Expr.Traversal
import TensorCompiler.Proofs.Kernel.Machine
import TensorCompiler.Proofs.Result

/-! # What an expression gives in a run

For each kind of node, what its parts give when it gives something. From these: a strict run is a run, and what a
strict run gives has the form of the type of the expression.
-/

namespace TensorCompiler

variable {Address Memory : Type}

namespace Datum

variable {δ δ' : Datum Address} {e : Expr} {v : Value} {n : Int64} {a : Address}

@[simp]
theorem scalar?_eq_some_iff : δ.scalar? = some v ↔ δ = scalar v := by
  cases δ <;> simp [scalar?]

@[simp]
theorem address?_eq_some_iff : δ.address? = some a ↔ δ = address a := by
  cases δ <;> simp [address?]

@[simp]
theorem int?_eq_some_iff : δ.int? = some n ↔ δ = scalar (.int n) := by
  cases δ with
  | scalar v => cases v <;> simp [int?]
  | address a => simp [int?]

theorem guarded_eq_some_iff {strict : Bool} :
    guarded strict e δ = some δ' ↔ δ = δ' ∧ (strict = true → δ.fits e = true) := by
  unfold guarded
  cases strict <;> cases δ.fits e <;> simp

theorem fits_scalar_iff : (scalar v : Datum Address).fits e = true ↔ ∃ d, e.HasDType d ∧ v.HasType d := by
  simp only [fits, Option.any_eq_true, decide_eq_true_eq, Expr.knownDType?_eq_some_iff]

theorem fits_address_iff : (address a : Datum Address).fits e = true ↔ ∀ d, ¬ e.HasDType d := by
  simp [fits, ← Expr.knownDType?_eq_some_iff, Option.eq_none_iff_forall_ne_some]

theorem readAs_eq_some_iff :
    readAs e δ = some δ' ↔
      (∃ d v, e.HasDType d ∧ δ = scalar v ∧ δ' = scalar (v.cast d)) ∨
        (∃ a, e.knownDType? = none ∧ δ = address a ∧ δ' = address a) := by
  simp only [← Expr.knownDType?_eq_some_iff]
  unfold readAs
  cases e.knownDType? <;> cases δ <;> simp [eq_comm]

/-- What is read from memory has the form of its type. -/
theorem fits_of_readAs (h : readAs e δ = some δ') : δ'.fits e = true := by
  rcases readAs_eq_some_iff.mp h with ⟨d, v, hd, -, rfl⟩ | ⟨a, hnone, -, rfl⟩
  · exact fits_scalar_iff.mpr ⟨d, hd, Value.hasType_cast v d⟩
  · rw [fits, hnone]
    rfl

/-- What a cast gives has the form of its type. -/
theorem fits_of_castTo {target : Ty} (h : δ.castTo target = some δ') : δ'.fits (.cast target e) = true := by
  cases δ with
  | scalar v =>
    simp only [castTo] at h
    split at h
    · cases h
      exact fits_scalar_iff.mpr ⟨_, rfl, Value.hasType_cast v _⟩
    · cases h
  | address a =>
    simp only [castTo] at h
    split at h <;> cases h <;> rfl

end Datum

namespace Expr

variable [FloatOps] {M : Machine Address Memory} {strict : Bool} {memory : Memory} {vars : Vars Address}
  {δ : Datum Address}

theorem run_var_eq_some_iff {v : Var} :
    (var v).run M strict memory vars = some δ ↔
      vars.lookup v.name = some δ ∧ (strict = true → δ.fits (var v) = true) := by
  simp only [run_var, Option.bind_eq_some_iff, Datum.guarded_eq_some_iff]
  constructor
  · rintro ⟨δ', h, rfl, hfits⟩
    exact ⟨h, hfits⟩
  · rintro ⟨h, hfits⟩
    exact ⟨δ, h, rfl, hfits⟩

theorem run_const_eq_some_iff {v : Value} {d : DType} :
    (const v d).run M strict memory vars = some δ ↔ δ = .scalar v ∧ (strict = true → v.HasType d) := by
  simp only [run, Datum.guarded_eq_some_iff]
  constructor
  · rintro ⟨rfl, hfits⟩
    refine ⟨rfl, fun hs => ?_⟩
    obtain ⟨c, hc, hv⟩ := Datum.fits_scalar_iff.mp (hfits hs)
    exact hasDType_const.mp hc ▸ hv
  · rintro ⟨rfl, htype⟩
    exact ⟨rfl, fun hs => Datum.fits_scalar_iff.mpr ⟨d, hasDType_const.mpr rfl, htype hs⟩⟩

theorem run_unary_eq_some_iff {op : UnaryOp} {arg : Expr} :
    (unary op arg).run M strict memory vars = some δ ↔
      ∃ a v, arg.run M strict memory vars = some (.scalar a) ∧ op.eval? a = some v ∧ δ = .scalar v := by
  simp only [run, Option.bind_eq_bind, Option.bind_eq_some_iff, Option.map_eq_some_iff, Datum.scalar?_eq_some_iff]
  constructor
  · rintro ⟨_, harg, a, rfl, v, hv, rfl⟩
    exact ⟨a, v, harg, hv, rfl⟩
  · rintro ⟨a, v, harg, hv, rfl⟩
    exact ⟨_, harg, a, rfl, v, hv, rfl⟩

theorem run_binary_eq_some_iff {op : BinaryOp} {lhs rhs : Expr} :
    (binary op lhs rhs).run M strict memory vars = some δ ↔
      ∃ a b v, lhs.run M strict memory vars = some (.scalar a) ∧ rhs.run M strict memory vars = some (.scalar b) ∧
        (strict = true → op.isExact a b = true) ∧ op.eval? a b = some v ∧ δ = .scalar v := by
  simp only [run, Option.bind_eq_bind, Option.bind_eq_some_iff, Datum.scalar?_eq_some_iff]
  constructor
  · rintro ⟨_, hl, a, rfl, _, hr, b, rfl, h⟩
    split at h
    · cases h
    · rename_i hexact
      obtain ⟨v, hv, rfl⟩ := Option.map_eq_some_iff.mp h
      refine ⟨a, b, v, hl, hr, ?_, hv, rfl⟩
      simpa using hexact
  · rintro ⟨a, b, v, hl, hr, hexact, hv, rfl⟩
    refine ⟨_, hl, a, rfl, _, hr, b, rfl, ?_⟩
    rw [if_neg (by simpa using hexact), hv]
    rfl

theorem run_letIn_eq_some_iff {v : Var} {value body : Expr} :
    (letIn v value body).run M strict memory vars = some δ ↔
      ∃ δ', value.run M strict memory vars = some δ' ∧
        body.run M strict memory ((v.name, δ') :: vars) = some δ := by
  simp only [run, Option.bind_eq_bind, Option.bind_eq_some_iff]

theorem run_ite_eq_some_iff {cond thenE elseE : Expr} :
    (ite cond thenE elseE).run M strict memory vars = some δ ↔
      ∃ c, cond.run M strict memory vars = some (.scalar c) ∧
        if c.truthy then thenE.run M strict memory vars = some δ else elseE.run M strict memory vars = some δ := by
  simp only [run, Option.bind_eq_bind, Option.bind_eq_some_iff, Datum.scalar?_eq_some_iff]
  constructor
  · rintro ⟨_, hc, c, rfl, h⟩
    exact ⟨c, hc, by cases ht : c.truthy <;> simpa [ht] using h⟩
  · rintro ⟨c, hc, h⟩
    exact ⟨_, hc, c, rfl, by cases ht : c.truthy <;> simpa [ht] using h⟩

theorem runIndices_eq_some_iff {es : List Expr} {ns : List Int64} :
    runIndices M strict memory vars es = some ns ↔
      List.Forall₂ (fun e n => e.run M strict memory vars = some (.scalar (.int n))) es ns := by
  induction es generalizing ns with
  | nil => simp [runIndices, List.forall₂_nil_left_iff, eq_comm]
  | cons e es ih =>
    simp only [runIndices, Option.bind_eq_bind, Option.bind_eq_some_iff, Datum.int?_eq_some_iff,
      List.forall₂_cons_left_iff, ih, Option.some.injEq]
    constructor
    · rintro ⟨_, hn, n, rfl, ns', hns, rfl⟩
      exact ⟨n, ns', hn, hns, rfl⟩
    · rintro ⟨n, ns', hn, hns, rfl⟩
      exact ⟨_, hn, n, rfl, ns', hns, rfl⟩

theorem runScalars_eq_some_iff {es : List Expr} {vs : List Value} :
    runScalars M strict memory vars es = some vs ↔
      List.Forall₂ (fun e v => e.run M strict memory vars = some (.scalar v)) es vs := by
  induction es generalizing vs with
  | nil => simp [runScalars, List.forall₂_nil_left_iff, eq_comm]
  | cons e es ih =>
    simp only [runScalars, Option.bind_eq_bind, Option.bind_eq_some_iff, Datum.scalar?_eq_some_iff,
      List.forall₂_cons_left_iff, ih, Option.some.injEq]
    constructor
    · rintro ⟨_, hv, v, rfl, vs', hvs, rfl⟩
      exact ⟨v, vs', hv, hvs, rfl⟩
    · rintro ⟨v, vs', hv, hvs, rfl⟩
      exact ⟨_, hv, v, rfl, vs', hvs, rfl⟩

theorem run_element_eq_some_iff {base : Expr} {indices : List Expr} :
    (element base indices).run M strict memory vars = some δ ↔
      ∃ a ns δ', base.run M strict memory vars = some (.address a) ∧
        List.Forall₂ (fun e n => e.run M strict memory vars = some (.scalar (.int n))) indices ns ∧
          M.load memory (M.element a ns) = some δ' ∧ Datum.readAs (element base indices) δ' = some δ := by
  simp only [run, Option.bind_eq_bind, Option.bind_eq_some_iff, Datum.address?_eq_some_iff, runIndices_eq_some_iff]
  constructor
  · rintro ⟨_, ha, a, rfl, ns, hns, δ', hload, hread⟩
    exact ⟨a, ns, δ', ha, hns, hload, hread⟩
  · rintro ⟨a, ns, δ', ha, hns, hload, hread⟩
    exact ⟨_, ha, a, rfl, ns, hns, δ', hload, hread⟩

theorem run_deref_eq_some_iff {arg : Expr} :
    (deref arg).run M strict memory vars = some δ ↔
      ∃ a δ', arg.run M strict memory vars = some (.address a) ∧ M.load memory a = some δ' ∧
        Datum.readAs (deref arg) δ' = some δ := by
  simp only [run, Option.bind_eq_bind, Option.bind_eq_some_iff, Datum.address?_eq_some_iff]
  constructor
  · rintro ⟨_, ha, a, rfl, δ', hload, hread⟩
    exact ⟨a, δ', ha, hload, hread⟩
  · rintro ⟨a, δ', ha, hload, hread⟩
    exact ⟨_, ha, a, rfl, δ', hload, hread⟩

/-- The address that an expression gives which takes the address of a place. -/
theorem run_address_eq_some_iff {e : Expr} (place : Expr) (he : e = addr place ∨ e = ref place) :
    e.run M strict memory vars = some δ ↔
      (∃ base indices a ns, place = element base indices ∧ base.run M strict memory vars = some (.address a) ∧
          List.Forall₂ (fun e n => e.run M strict memory vars = some (.scalar (.int n))) indices ns ∧
            δ = .address (M.element a ns)) ∨
        ∃ arg a, place = deref arg ∧ arg.run M strict memory vars = some (.address a) ∧ δ = .address a := by
  have hplace : e.run M strict memory vars = (addr place).run M strict memory vars := by
    rcases he with rfl | rfl
    · rfl
    · cases place <;> rfl
  rw [hplace]
  cases place
  case element base indices =>
    simp only [run, Option.bind_eq_bind, Option.bind_eq_some_iff, Datum.address?_eq_some_iff,
      runIndices_eq_some_iff, Option.some.injEq]
    constructor
    · rintro ⟨_, ha, a, rfl, ns, hns, rfl⟩
      exact Or.inl ⟨base, indices, a, ns, rfl, ha, hns, rfl⟩
    · rintro (⟨_, _, a, ns, heq, ha, hns, rfl⟩ | ⟨_, _, heq, -⟩)
      · cases heq
        exact ⟨_, ha, a, rfl, ns, hns, rfl⟩
      · cases heq
  case deref arg =>
    simp only [run, Option.bind_eq_bind, Option.bind_eq_some_iff, Datum.address?_eq_some_iff, Option.some.injEq]
    constructor
    · rintro ⟨_, ha, a, rfl, rfl⟩
      exact Or.inr ⟨arg, a, rfl, ha, rfl⟩
    · rintro (⟨_, _, _, _, heq, -⟩ | ⟨_, a, heq, ha, rfl⟩)
      · cases heq
      · cases heq
        exact ⟨_, ha, a, rfl, rfl⟩
  all_goals simp [run]

theorem run_call_eq_some_iff {func : String} {args : List Expr} :
    (call func args).run M strict memory vars = some δ ↔
      (Primitive.isHardwareIndex func = true ∧ args = [] ∧ ∃ n, M.index? func = some n ∧ δ = .scalar (.int n)) ∨
        (Primitive.isHardwareIndex func = false ∧ ∃ values v,
          List.Forall₂ (fun e v => e.run M strict memory vars = some (.scalar v)) args values ∧
            Intrinsic.eval? func values = some v ∧ δ = .scalar v ∧
              (strict = true → δ.fits (call func args) = true)) := by
  cases hfunc : Primitive.isHardwareIndex func with
  | true =>
    cases args with
    | nil =>
      simp only [run, hfunc, if_true, List.isEmpty_nil, Option.map_eq_some_iff, true_and, Bool.true_eq_false,
        false_and, or_false]
      exact exists_congr fun n => and_congr_right fun _ => eq_comm
    | cons first rest => simp [run, hfunc]
  | false =>
    simp only [run, hfunc, Bool.false_eq_true, if_false, Option.bind_eq_bind, Option.bind_eq_some_iff,
      runScalars_eq_some_iff, Datum.guarded_eq_some_iff, false_and, false_or, true_and]
    constructor
    · rintro ⟨values, hvalues, v, hv, rfl, hfits⟩
      exact ⟨values, v, hvalues, hv, rfl, hfits⟩
    · rintro ⟨values, v, hvalues, hv, rfl, hfits⟩
      exact ⟨values, hvalues, v, hv, rfl, hfits⟩

theorem run_cast_eq_some_iff {target : Ty} {arg : Expr} :
    (cast target arg).run M strict memory vars = some δ ↔
      ∃ δ', arg.run M strict memory vars = some δ' ∧ δ'.castTo target = some δ := by
  simp only [run, Option.bind_eq_bind, Option.bind_eq_some_iff]

theorem runAll_eq_some_iff {es : List Expr} {δs : List (Datum Address)} :
    runAll M strict memory vars es = some δs ↔
      List.Forall₂ (fun e δ => e.run M strict memory vars = some δ) es δs := by
  unfold runAll
  induction es generalizing δs with
  | nil => simp [List.forall₂_nil_left_iff, eq_comm]
  | cons e es ih =>
    simp only [List.mapM_cons, Option.bind_eq_bind, Option.bind_eq_some_iff, List.forall₂_cons_left_iff, ih,
      Option.pure_def, Option.some.injEq]
    constructor
    · rintro ⟨δ, hδ, δs', hδs, rfl⟩
      exact ⟨δ, δs', hδ, hδs, rfl⟩
    · rintro ⟨δ, δs', hδ, hδs, rfl⟩
      exact ⟨δ, hδ, δs', hδs, rfl⟩

/-- Whether a node belongs to definitions or to patterns and not to programs. -/
def isComputeNode : Expr → Bool
  | scalarInput .. | tensorInput .. | compute .. | reduce .. | any _ | anyCompute .. | anyReduce _ => true
  | _ => false

/-- Only the nodes of programs give something. -/
theorem run_eq_none_of_isComputeNode {e : Expr} (h : e.isComputeNode) : e.run M strict memory vars = none := by
  cases e <;> first | rfl | cases h

/-- A node whose sub-expressions are replaced gives what it gave, if these do and the node keeps its type. An address
is taken of an element or of what is pointed to; there the replacement must act on the parts. -/
theorem run_mapChildren {f : Expr → Expr} {strict' : Bool} {e : Expr} (hstrict : strict' = true → strict = true)
    (hnode : ∀ v value body, e ≠ letIn v value body) (htype : (e.mapChildren f).inferType = e.inferType)
    (helement : ∀ base indices, f (element base indices) = element (f base) (indices.map f))
    (hderef : ∀ arg, f (deref arg) = deref (f arg))
    (hf : ∀ s ∈ e.children.flatMap preorder, ∀ δ, s.run M strict memory vars = some δ →
      (f s).run M strict' memory vars = some δ)
    (h : e.run M strict memory vars = some δ) : (e.mapChildren f).run M strict' memory vars = some δ := by
  have hchild {c : Expr} (hc : c ∈ e.children) {δ : Datum Address} (h : c.run M strict memory vars = some δ) :
      (f c).run M strict' memory vars = some δ :=
    hf c (List.mem_flatMap.mpr ⟨c, hc, mem_preorder_self c⟩) δ h
  have hpart {c s : Expr} (hc : c ∈ e.children) (hs : s ∈ c.children) {δ : Datum Address}
      (h : s.run M strict memory vars = some δ) : (f s).run M strict' memory vars = some δ :=
    hf s (List.mem_flatMap.mpr ⟨c, hc, mem_preorder_of_child hs (mem_preorder_self s)⟩) δ h
  have hknown := knownDType?_congr htype
  cases e with
  | var v =>
    obtain ⟨hlookup, hfits⟩ := run_var_eq_some_iff.mp h
    exact run_var_eq_some_iff.mpr ⟨hlookup, fun hs => hfits (hstrict hs)⟩
  | const v d =>
    obtain ⟨rfl, hv⟩ := run_const_eq_some_iff.mp h
    exact run_const_eq_some_iff.mpr ⟨rfl, fun hs => hv (hstrict hs)⟩
  | unary op arg =>
    obtain ⟨a, v, ha, hv, rfl⟩ := run_unary_eq_some_iff.mp h
    exact run_unary_eq_some_iff.mpr ⟨a, v, hchild (by simp [children]) ha, hv, rfl⟩
  | binary op lhs rhs =>
    obtain ⟨a, b, v, ha, hb, hexact, hv, rfl⟩ := run_binary_eq_some_iff.mp h
    exact run_binary_eq_some_iff.mpr ⟨a, b, v, hchild (by simp [children]) ha, hchild (by simp [children]) hb,
      fun hs => hexact (hstrict hs), hv, rfl⟩
  | letIn v value body => exact absurd rfl (hnode v value body)
  | ite cond thenE elseE =>
    obtain ⟨c, hc, hbranch⟩ := run_ite_eq_some_iff.mp h
    refine run_ite_eq_some_iff.mpr ⟨c, hchild (by simp [children]) hc, ?_⟩
    split_ifs at hbranch ⊢
    · exact hchild (by simp [children]) hbranch
    · exact hchild (by simp [children]) hbranch
  | element base indices =>
    obtain ⟨a, ns, δ', ha, hns, hload, hread⟩ := run_element_eq_some_iff.mp h
    refine run_element_eq_some_iff.mpr ⟨a, ns, δ', hchild (by simp [children]) ha, ?_, hload, ?_⟩
    · rw [List.forall₂_map_left_iff]
      exact forall₂_imp_of_mem hns fun i hi n => hchild (by simp [children, hi])
    · rw [← hread]
      simp only [Datum.readAs, ← hknown, mapChildren]
  | deref arg =>
    obtain ⟨a, δ', ha, hload, hread⟩ := run_deref_eq_some_iff.mp h
    refine run_deref_eq_some_iff.mpr ⟨a, δ', hchild (by simp [children]) ha, hload, ?_⟩
    rw [← hread]
    simp only [Datum.readAs, ← hknown, mapChildren]
  | addr place | ref place =>
    rcases (run_address_eq_some_iff place (by simp)).mp h with
      ⟨base, indices, a, ns, rfl, ha, hns, rfl⟩ | ⟨arg, a, rfl, ha, rfl⟩
    · refine (run_address_eq_some_iff _ (by simp [mapChildren])).mpr
        (Or.inl ⟨f base, indices.map f, a, ns, helement base indices, ?_, ?_, rfl⟩)
      · exact hpart (List.mem_singleton_self _) (by simp [children]) ha
      · rw [List.forall₂_map_left_iff]
        exact forall₂_imp_of_mem hns fun i hi n => hpart (List.mem_singleton_self _) (by simp [children, hi])
    · refine (run_address_eq_some_iff _ (by simp [mapChildren])).mpr (Or.inr ⟨f arg, a, hderef arg, ?_, rfl⟩)
      exact hpart (List.mem_singleton_self _) (by simp [children]) ha
  | call func args =>
    rcases run_call_eq_some_iff.mp h with ⟨hindex, rfl, hn⟩ | ⟨hfunc, values, v, hvalues, hv, rfl, hfits⟩
    · exact run_call_eq_some_iff.mpr (Or.inl ⟨hindex, rfl, hn⟩)
    · refine run_call_eq_some_iff.mpr (Or.inr ⟨hfunc, values, v, ?_, hv, rfl, fun hs => ?_⟩)
      · rw [List.forall₂_map_left_iff]
        exact forall₂_imp_of_mem hvalues fun arg harg v => hchild harg
      · rw [← hfits (hstrict hs)]
        simp only [Datum.fits, ← hknown, mapChildren]
  | cast target arg =>
    obtain ⟨δ', hδ, hcast⟩ := run_cast_eq_some_iff.mp h
    exact run_cast_eq_some_iff.mpr ⟨δ', hchild (by simp [children]) hδ, hcast⟩
  | _ =>
    rw [run_eq_none_of_isComputeNode rfl] at h
    cases h

/-- What an expression gives in a strict run it gives in a run. -/
theorem run_of_strict {e : Expr} (h : e.run M true memory vars = some δ) :
    e.run M false memory vars = some δ := by
  induction e using Expr.induct_proper generalizing vars δ with
  | node e ih =>
    by_cases hlet : ∃ v value body, e = letIn v value body
    · obtain ⟨v, value, body, rfl⟩ := hlet
      have hmem {c : Expr} (hc : c ∈ (letIn v value body).children) :
          c ∈ (letIn v value body).children.flatMap preorder :=
        List.mem_flatMap.mpr ⟨c, hc, mem_preorder_self c⟩
      obtain ⟨δ', hvalue, hbody⟩ := run_letIn_eq_some_iff.mp h
      exact run_letIn_eq_some_iff.mpr
        ⟨δ', ih _ (hmem (by simp [children])) hvalue, ih _ (hmem (by simp [children])) hbody⟩
    · have hid := mapChildren_id e
      have hnode : ∀ v value body, e ≠ letIn v value body := fun v value body heq => hlet ⟨v, value, body, heq⟩
      rw [← hid]
      exact run_mapChildren (by simp) hnode (congrArg inferType hid) (fun _ _ => by simp) (fun _ => rfl)
        (fun s hs δ => ih s hs) h

end Expr

end TensorCompiler
