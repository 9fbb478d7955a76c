import TensorCompiler.Proofs.Expr.FoldTyping
import TensorCompiler.Proofs.Expr.Points
import TensorCompiler.Proofs.Graph.Names

/-! # The form of definitions

The values that operators define have one form, which passes over graphs keep. Coordinates are arithmetic on axes. An
elementwise value is arithmetic on elements of the inputs, read at coordinates, and on literals. The body of a
reduction may in addition choose between two values by a test of coordinates, and an anchor may in addition hold
reductions of such bodies, but none inside another.

The values of one definition may belong to floats or to integers; `NumberKind` says which of the two is meant, and which
functions and extents occur there. They have one element type, but for the second argument of a function, which may
have another one of the kind. `ElementKind` adds the definitions over any element types, of which the form is known but
not what they evaluate to.
-/

namespace TensorCompiler

/-- Whether a graph computes with floats or with integers. -/
inductive NumberKind where
  | real
  | integer

namespace NumberKind

/-- The element types of the kind. -/
def hasDType : NumberKind → DType → Bool
  | real, d => d.isFloat
  | integer, d => d.isInteger

/-- The mathematical functions that stay within the kind. -/
def hasFunction : NumberKind → String → Bool
  | real, func => Intrinsic.names.contains func
  | integer, func => func == "abs" || func == "max" || func == "min"

/-- The extents over which a reduction stays within the kind: over nothing it gives a float. -/
def hasExtent : NumberKind → Int64 → Bool
  | real, _ => true
  | integer, n => decide (0 < n)

theorem mem_names_of_hasFunction {k : NumberKind} {func : String} (h : k.hasFunction func) : func ∈ Intrinsic.names := by
  cases k with
  | real => exact List.contains_iff_mem.mp h
  | integer =>
    simp only [hasFunction, Bool.or_eq_true, beq_iff_eq] at h
    rcases h with (rfl | rfl) | rfl <;> decide

end NumberKind

/-- The element types that may occur in a graph: those of one kind of numbers, or any. -/
inductive ElementKind where
  | numbers (kind : NumberKind)
  | mixed

namespace ElementKind

/-- The floats. -/
abbrev real : ElementKind := numbers .real

def hasDType : ElementKind → DType → Bool
  | numbers kind, d => kind.hasDType d
  | mixed, _ => true

/-- The mathematical functions that occur. -/
def hasFunction : ElementKind → String → Bool
  | numbers kind, func => kind.hasFunction func
  | mixed, func => Intrinsic.names.contains func

/-- The extents of reductions that occur. -/
def hasExtent : ElementKind → Int64 → Bool
  | numbers kind, n => kind.hasExtent n
  | mixed, _ => true

theorem mem_names_of_hasFunction {k : ElementKind} {func : String} (h : k.hasFunction func) :
    func ∈ Intrinsic.names := by
  cases k with
  | numbers kind => exact kind.mem_names_of_hasFunction h
  | mixed => exact List.contains_iff_mem.mp h

theorem hasFunction_max (k : ElementKind) : k.hasFunction "max" := by
  cases k with
  | numbers kind => cases kind <;> decide
  | mixed => decide

end ElementKind

/-- Where a value stands in a definition. -/
inductive Level where
  | elementwise
  | body
  | anchor
  deriving DecidableEq

namespace Expr

/-- Arithmetic of an element type on the variables of a scope, which are numbers of 32 bits. -/
inductive IsCoordinate (scope : List String) : DType → Expr → Prop
  | var {v : Var} (h : v.name ∈ scope) (hty : v.ty = .ofDType .int32) : IsCoordinate scope .int32 (.var v)
  | const (v : Value) (d : DType) : IsCoordinate scope d (.const v d)
  | binary (op : BinaryOp) {d : DType} {lhs rhs : Expr} (hl : IsCoordinate scope d lhs) (hr : IsCoordinate scope d rhs) :
      IsCoordinate scope (op.typeOn d) (.binary op lhs rhs)

/-- The values of an element type that a definition may hold at a level, with the axes in scope. `reads` says which
tensors it may read, by element type, name and shape. -/
inductive IsElement (k : ElementKind) (reads : DType → String → List Int64 → Prop) :
    DType → Level → List String → Expr → Prop
  | read {d : DType} {l : Level} {scope : List String} {name : String} {shape : List Int64} {indices : List Expr}
      (hreads : reads d name shape) (hlength : indices.length = shape.length)
      (hindices : ∀ i ∈ indices, IsCoordinate scope .int32 i) :
      IsElement k reads d l scope ((TensorInput.ofShape name d shape).elementAt indices)
  | const {d : DType} {l : Level} {scope : List String} {v : Value} (hv : v.HasType d) :
      IsElement k reads d l scope (.const v d)
  | neg {d : DType} {l : Level} {scope : List String} {arg : Expr} (harg : IsElement k reads d l scope arg) :
      IsElement k reads d l scope (.unary .neg arg)
  | binary {d : DType} {l : Level} {scope : List String} {op : BinaryOp} {lhs rhs : Expr}
      (hcomparison : op.isComparison = false) (hlogical : op.isLogical = false)
      (hl : IsElement k reads d l scope lhs) (hr : IsElement k reads d l scope rhs) :
      IsElement k reads d l scope (.binary op lhs rhs)
  | call {d : DType} {l : Level} {scope : List String} {func : String} {arg : Expr} (hfunc : k.hasFunction func)
      (harg : IsElement k reads d l scope arg) : IsElement k reads d l scope (.call func [arg])
  | callPair {d d' : DType} {l : Level} {scope : List String} {func : String} {lhs rhs : Expr}
      (hfunc : k.hasFunction func) (hd' : k.hasDType d') (hl : IsElement k reads d l scope lhs)
      (hr : IsElement k reads d' l scope rhs) : IsElement k reads d l scope (.call func [lhs, rhs])
  | ite {d : DType} {scope : List String} {cond thenE elseE : Expr} (hcond : IsCoordinate scope .bool cond)
      (hthen : IsElement k reads d .body scope thenE) (helse : IsElement k reads d .body scope elseE) :
      IsElement k reads d .body scope (.ite cond thenE elseE)
  | reduce {d : DType} {scope : List String} (kind : ReduceKind) {extents : List Int64} {axes : List Var} {value : Expr}
      (hextents : ∀ n ∈ extents, k.hasExtent n) (haxes : ∀ v ∈ axes, IsReductionAxis v.name)
      (htypes : ∀ v ∈ axes, v.ty = .ofDType .int32) (hlength : axes.length = extents.length)
      (hvalue : IsElement k reads d .body (axes.map Var.name ++ scope) value) :
      IsElement k reads d .anchor scope (.reduce kind (ofShape extents) axes value)

variable {k : ElementKind} {reads reads' : DType → String → List Int64 → Prop} {d : DType} {l : Level}
  {scope scope' : List String} {e : Expr}

theorem IsCoordinate.mono (h : IsCoordinate scope d e) (hsub : ∀ x ∈ scope, x ∈ scope') : IsCoordinate scope' d e := by
  induction h with
  | var hx hty => exact .var (hsub _ hx) hty
  | const v d => exact .const v d
  | binary op _ _ ihl ihr => exact .binary op ihl ihr

/-- An elementwise value may stand anywhere. -/
theorem IsElement.of_elementwise (h : IsElement k reads d .elementwise scope e) (l : Level) :
    IsElement k reads d l scope e := by
  generalize hlevel : Level.elementwise = level at h
  induction h with
  | read hreads hlength hindices => exact .read hreads hlength hindices
  | const hv => exact .const hv
  | neg _ ih => exact .neg (ih hlevel)
  | binary hc hl _ _ ihl ihr => exact .binary hc hl (ihl hlevel) (ihr hlevel)
  | call hfunc _ ih => exact .call hfunc (ih hlevel)
  | callPair hfunc hd' _ _ ihl ihr => exact .callPair hfunc hd' (ihl hlevel) (ihr hlevel)
  | ite => cases hlevel
  | reduce => cases hlevel

theorem IsElement.mono (h : IsElement k reads d l scope e)
    (hreads : ∀ d name shape, reads d name shape → reads' d name shape) : IsElement k reads' d l scope e := by
  induction h with
  | read hr hlength hindices => exact .read (hreads _ _ _ hr) hlength hindices
  | const hv => exact .const hv
  | neg _ ih => exact .neg ih
  | binary hc hl _ _ ihl ihr => exact .binary hc hl ihl ihr
  | call hfunc _ ih => exact .call hfunc ih
  | callPair hfunc hd' _ _ ihl ihr => exact .callPair hfunc hd' ihl ihr
  | ite hcond _ _ iht ihe => exact .ite hcond iht ihe
  | reduce kind hextents haxes htypes hlength _ ih => exact .reduce kind hextents haxes htypes hlength ih

/-! ## Types -/

theorem IsCoordinate.hasDType (h : IsCoordinate scope d e) : e.HasDType d := by
  induction h with
  | var _ hty => exact (inferType_var _).trans (congrArg Except.ok hty)
  | const v d => exact hasDType_const.mpr rfl
  | binary op _ _ ihl ihr => exact ihl.binary op ihr

/-- A value of a definition has the element type of the definition. -/
theorem IsElement.hasDType (h : IsElement k reads d l scope e) : e.HasDType d := by
  induction h with
  | read => rfl
  | const => exact hasDType_const.mpr rfl
  | neg _ ih => exact ih.unary .neg
  | @binary d _ _ op _ _ hc hl _ _ ihl ihr =>
    have htype : op.typeOn d = d := by simp [BinaryOp.typeOn, hc, hl]
    have hboth := ihl.binary op ihr
    rwa [htype] at hboth
  | call hfunc _ ih =>
    rw [HasDType, inferType_call_eq (ElementKind.mem_names_of_hasFunction hfunc)]
    exact ih
  | callPair hfunc _ _ _ ihl _ =>
    rw [HasDType, inferType_call_eq (ElementKind.mem_names_of_hasFunction hfunc)]
    exact ihl
  | ite _ _ _ iht ihe => exact iht.ite ihe
  | reduce _ _ _ _ _ _ ih => exact ih

end Expr

/-! ## Values -/

section

variable {k : NumberKind} {d d' : DType} {v : Value}

/-- The values of the element types of one kind are the same. -/
theorem NumberKind.hasType_of_hasType (hd : k.hasDType d) (hd' : k.hasDType d') (h : v.HasType d') : v.HasType d := by
  cases k with
  | real =>
    obtain ⟨x, rfl⟩ := h.exists_float hd'
    exact hd
  | integer =>
    obtain ⟨n, rfl⟩ := h.exists_int hd'
    exact hd

theorem forall_mem_pair {a b : Value} (ha : a.HasType d) (hb : b.HasType d) : ∀ x ∈ [a, b], x.HasType d := by
  intro x hx
  rcases List.mem_pair.mp hx with rfl | rfl
  · exact ha
  · exact hb

variable [FloatOps]

/-- A mathematical function whose first argument is a float gives a float. -/
theorem Intrinsic.exists_float_of_eval? {func : String} {x : Float} {rest : List Value}
    (h : Intrinsic.eval? func (.float x :: rest) = some v) : ∃ y, v = .float y := by
  match rest, h with
  | [], h =>
    obtain ⟨y, -, rfl⟩ := Option.map_eq_some_iff.mp h
    exact ⟨y, rfl⟩
  | [b], h =>
    simp only [Intrinsic.eval?] at h
    split_ifs at h
    · exact ⟨_, (Option.some.inj h).symm⟩
    · exact ⟨_, (Option.some.inj h).symm⟩
  | _ :: _ :: _, h => simp [Intrinsic.eval?] at h

/-- A mathematical function of the kind gives values of the type of its arguments. -/
theorem Intrinsic.hasType_eval? {func : String} {args : List Value} (hd : k.hasDType d) (hfunc : k.hasFunction func)
    (hne : args ≠ []) (hargs : ∀ a ∈ args, a.HasType d) (h : Intrinsic.eval? func args = some v) : v.HasType d := by
  cases k with
  | real =>
    obtain ⟨first, rest, rfl⟩ := List.exists_cons_of_ne_nil hne
    obtain ⟨x, rfl⟩ := (hargs first List.mem_cons_self).exists_float hd
    obtain ⟨y, rfl⟩ := Intrinsic.exists_float_of_eval? h
    exact hd
  | integer =>
    simp only [NumberKind.hasFunction, Bool.or_eq_true, beq_iff_eq, or_assoc] at hfunc
    obtain ⟨-, n, rfl⟩ := Intrinsic.exists_int_of_eval? hfunc (fun a ha => (hargs a ha).exists_int hd) h
    exact hd

/-- Combining values of one type gives a value of that type. -/
theorem ReduceKind.hasType_merge? {kind : ReduceKind} {a b : Value} (hd : k.hasDType d) (ha : a.HasType d)
    (hb : b.HasType d) (h : kind.merge? a b = some v) : v.HasType d := by
  have hpair := forall_mem_pair ha hb
  cases kind with
  | sum | avg =>
    have hsum : BinaryOp.add.eval? a b = some v := h
    exact BinaryOp.hasType_eval? ha hb hsum
  | max =>
    have hfunc : k.hasFunction "max" := by cases k <;> decide
    exact Intrinsic.hasType_eval? hd hfunc (by simp) hpair h
  | min =>
    have hfunc : k.hasFunction "min" := by cases k <;> decide
    exact Intrinsic.hasType_eval? hd hfunc (by simp) hpair h

/-- What values of one type are combined into has that type, and is there if one of them is. -/
theorem ReduceKind.hasType_accumulate {kind : ReduceKind} {vs : List Value} {acc acc' : Option Value}
    (hd : k.hasDType d) (hvs : ∀ w ∈ vs, w.HasType d) (hacc : ∀ a, acc = some a → a.HasType d)
    (h : vs.foldlM kind.accumulate acc = .ok acc') :
    (∀ a, acc' = some a → a.HasType d) ∧ (acc' = none → acc = none ∧ vs = []) := by
  induction vs generalizing acc with
  | nil =>
    cases h
    exact ⟨hacc, fun hnone => ⟨hnone, rfl⟩⟩
  | cons w vs ih =>
    rw [List.foldlM_cons] at h
    obtain ⟨next, hnext, hrest⟩ := bind_eq_ok_iff.mp h
    have hw := hvs w List.mem_cons_self
    have htyped : ∃ a, next = some a ∧ a.HasType d := by
      cases acc with
      | none =>
        cases hnext
        exact ⟨w, rfl, hw⟩
      | some a =>
        rw [ReduceKind.accumulate] at hnext
        split at hnext
        · rename_i combined hcombined
          cases hnext
          exact ⟨combined, rfl, hasType_merge? hd (hacc a rfl) hw hcombined⟩
        · cases hnext
    obtain ⟨a, rfl, ha⟩ := htyped
    have hrest' := ih (fun w hw => hvs w (List.mem_cons_of_mem _ hw)) (fun b hb => by cases hb; exact ha) hrest
    refine ⟨hrest'.1, fun hnone => ?_⟩
    cases (hrest'.2 hnone).1

theorem ReduceKind.hasType_finish? {kind : ReduceKind} {acc : Option Value} {count : Int64} (hd : k.hasDType d)
    (hacc : ∀ a, acc = some a → a.HasType d) (hsome : k = .integer → acc ≠ none)
    (h : kind.finish? acc count = some v) : v.HasType d := by
  cases acc with
  | none =>
    cases h
    cases k with
    | real => cases kind <;> exact hd
    | integer => exact absurd rfl (hsome rfl)
  | some a =>
    have ha := hacc a rfl
    cases kind with
    | avg =>
      have hdiv : BinaryOp.div.eval? a (.int count) = some v := h
      cases k with
      | real =>
        obtain ⟨x, rfl⟩ := ha.exists_float hd
        cases hdiv
        exact hd
      | integer => exact BinaryOp.hasType_eval? ha (show (Value.int count).HasType d from hd) hdiv
    | sum | max | min =>
      cases h
      exact ha

end

namespace Expr

variable [FloatOps] {k : ElementKind} {reads : DType → String → List Int64 → Prop} {d : DType} {l : Level}
  {scope : List String} {e : Expr} {tensors : Tensors} {env : Env} {v : Value}

/-- What a value of a definition evaluates to has the element type of the definition. -/
theorem IsElement.hasType_eval {kind : NumberKind} (h : IsElement (.numbers kind) reads d l scope e)
    (hd : kind.hasDType d)
    (heval : e.eval tensors env = .ok v) : v.HasType d := by
  induction h generalizing env v with
  | read =>
    obtain ⟨a, ns, x, -, -, -, rfl⟩ := eval_element_eq_ok_iff.mp heval
    exact Value.hasType_cast _ _
  | const hv =>
    obtain rfl := eval_const_eq_ok_iff.mp heval
    exact hv
  | neg _ ih =>
    obtain ⟨a, ha, hv⟩ := eval_unary_eq_ok_iff.mp heval
    have hneg : UnaryOp.neg.eval? a = some v := hv
    exact UnaryOp.hasType_eval? (ih hd ha) hneg
  | @binary d _ _ op _ _ hc hl _ _ ihl ihr =>
    obtain ⟨a, b, ha, hb, hv⟩ := eval_binary_eq_ok_iff.mp heval
    have htype : op.typeOn d = d := by simp [BinaryOp.typeOn, hc, hl]
    exact htype ▸ BinaryOp.hasType_eval? (ihl hd ha) (ihr hd hb) hv
  | call hfunc _ ih =>
    obtain ⟨a, ha, hv⟩ := eval_call_one_eq_ok_iff.mp heval
    refine Intrinsic.hasType_eval? hd hfunc (by simp) (fun b hb => ?_) hv
    rw [List.mem_singleton.mp hb]
    exact ih hd ha
  | callPair hfunc hd' _ _ ihl ihr =>
    obtain ⟨a, b, ha, hb, hv⟩ := eval_call_pair_eq_ok_iff.mp heval
    exact Intrinsic.hasType_eval? hd hfunc (by simp)
      (forall_mem_pair (ihl hd ha) (NumberKind.hasType_of_hasType hd hd' (ihr hd' hb))) hv
  | ite _ _ _ iht ihe =>
    obtain ⟨c, -, hbranch⟩ := eval_ite_eq_ok_iff.mp heval
    split_ifs at hbranch
    · exact iht hd hbranch
    · exact ihe hd hbranch
  | @reduce d _ kind extents axes value hextents _ _ _ _ ih =>
    obtain ⟨_, vs, acc, hshape, hvs, hacc, hv⟩ := eval_reduce_eq_ok_iff.mp heval
    cases (constShape?_ofShape extents).symm.trans hshape
    have htyped : ∀ w ∈ vs, w.HasType d := forall_mem_of_forall₂ hvs fun point _ w hw => ih hd hw
    have hresult := ReduceKind.hasType_accumulate hd htyped (fun a ha => by cases ha) hacc
    refine ReduceKind.hasType_finish? hd hresult.1 (fun hk hnone => ?_) hv
    have hempty := (hresult.2 hnone).2
    subst hk hempty
    have hpos : ∀ n ∈ extents, 0 < n := fun n hn => of_decide_eq_true (hextents n hn)
    exact points_ne_nil hpos (List.forall₂_nil_right_iff.mp hvs)

variable {tensors' : Tensors} {env' : Env}

/-- Coordinates depend only on their axes. -/
theorem IsCoordinate.eval_congr (h : IsCoordinate scope d e) (henv : ∀ x ∈ scope, env'.lookup x = env.lookup x) :
    e.eval tensors' env' = e.eval tensors env := by
  induction h with
  | @var v hv _ => rw [eval, eval, henv v.name hv]
  | const v d => rfl
  | binary op _ _ ihl ihr => rw [eval, eval, ihl, ihr]

/-- A value of a definition depends only on the tensors that it may read. -/
theorem IsElement.eval_mono (h : IsElement k reads d l scope e)
    (htensors : ∀ d name shape, reads d name shape → ∀ a, tensors.lookup name = some a →
      tensors'.lookup name = some a)
    (heval : e.eval tensors env = .ok v) : e.eval tensors' env = .ok v := by
  induction h generalizing env v with
  | @read _ _ _ name shape indices hreads hlength hindices =>
    obtain ⟨a, ns, x, ha, hns, hx, rfl⟩ := eval_element_eq_ok_iff.mp heval
    refine eval_element_eq_ok_iff.mpr ⟨a, ns, x, htensors _ name shape hreads a ha, ?_, hx, rfl⟩
    refine forall₂_imp_of_mem hns fun i hi n hn => ⟨?_, hn.2⟩
    exact ((hindices i hi).eval_congr fun _ _ => rfl).trans hn.1
  | const hv => exact heval
  | neg _ ih =>
    obtain ⟨a, ha, hv⟩ := eval_unary_eq_ok_iff.mp heval
    exact eval_unary_eq_ok_iff.mpr ⟨a, ih ha, hv⟩
  | binary hc hl _ _ ihl ihr =>
    obtain ⟨a, b, ha, hb, hv⟩ := eval_binary_eq_ok_iff.mp heval
    exact eval_binary_eq_ok_iff.mpr ⟨a, b, ihl ha, ihr hb, hv⟩
  | call _ _ ih =>
    obtain ⟨a, ha, hv⟩ := eval_call_one_eq_ok_iff.mp heval
    exact eval_call_one_eq_ok_iff.mpr ⟨a, ih ha, hv⟩
  | callPair _ _ _ _ ihl ihr =>
    obtain ⟨a, b, ha, hb, hv⟩ := eval_call_pair_eq_ok_iff.mp heval
    exact eval_call_pair_eq_ok_iff.mpr ⟨a, b, ihl ha, ihr hb, hv⟩
  | ite hcond _ _ iht ihe =>
    obtain ⟨c, hc, hbranch⟩ := eval_ite_eq_ok_iff.mp heval
    refine eval_ite_eq_ok_iff.mpr ⟨c, (hcond.eval_congr fun _ _ => rfl).trans hc, ?_⟩
    split_ifs at hbranch ⊢
    · exact iht hbranch
    · exact ihe hbranch
  | reduce kind _ _ _ _ _ ih =>
    obtain ⟨extents, vs, acc, hshape, hvs, hacc, hv⟩ := eval_reduce_eq_ok_iff.mp heval
    exact eval_reduce_eq_ok_iff.mpr ⟨extents, vs, acc, hshape, hvs.imp fun _ _ hw => ih hw, hacc, hv⟩

end Expr

end TensorCompiler
