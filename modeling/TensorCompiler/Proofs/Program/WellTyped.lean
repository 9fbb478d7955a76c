import Mathlib.Data.List.Basic
import TensorCompiler.Program.Module
import TensorCompiler.Proofs.Expr.Typing

/-! # Well-typed programs

What compiled code looks like. A variable is the innermost one of its name among the parameters, the local variables and
the bindings around it, and carries the type of that one. Operands agree in their types, accesses have one index for each
dimension, and what is stored or assigned has the type of its place. Of expressions only the nodes occur that generated
code is made of, so nothing of a definition or of a pattern is left.

A binding holds a scalar and hides no tensor, so that the types of tensors may be changed throughout a body without regard
to bindings.
-/

namespace TensorCompiler

/-! ## Types -/

namespace Ty

/-- The number of indices of an access to a value of the type. -/
def rank? : Ty → Option Nat
  | tensor type | tensorPointer type => type.rank?
  | pointer _ => some 1
  | _ => none

/-- Whether nothing in a type is open and tensors in it have literal extents, in row-major order. -/
def IsStatic : Ty → Prop
  | scalar dtype => dtype.isResolved
  | tensor type | tensorPointer type => ∃ scope d shape, type = .ofShape scope d shape
  | pointer base | reference base => base.IsStatic
  | void => True

/-- Whether a type is no tensor of several dimensions. -/
def IsFlat (ty : Ty) : Prop :=
  ∀ type, ty = tensor type → ∃ n ≤ 1, type.rank? = some n

end Ty

/-! ## Scopes -/

namespace Var

variable {vars : List Var} {v w : Var}

/-- Whether a variable is the innermost one of its name among those in scope, the innermost of these first. -/
def IsBound (vars : List Var) (v : Var) : Prop :=
  vars.find? (fun w => w.name == v.name) = some v

/-- Whether no tensor in scope has the name of a variable. -/
def HidesNoTensor (vars : List Var) (v : Var) : Prop :=
  ∀ w ∈ vars, w.name = v.name → w.ty.isTensor = false

theorem ext : ∀ {v w : Var}, v.name = w.name → v.ty = w.ty → v = w
  | ⟨_, _⟩, ⟨_, _⟩, rfl, rfl => rfl

theorem IsBound.mem (h : v.IsBound vars) : v ∈ vars :=
  List.mem_of_find?_eq_some h

theorem isBound_cons_self (v : Var) (vars : List Var) : v.IsBound (v :: vars) :=
  List.find?_cons_of_pos (beq_self_eq_true v.name)

theorem isBound_cons_of_ne (hne : w.name ≠ v.name) : v.IsBound (w :: vars) ↔ v.IsBound vars := by
  rw [IsBound, List.find?_cons_of_neg (by simpa using hne), IsBound]

theorem IsBound.cons (h : v.IsBound vars) (hne : w.name ≠ v.name) : v.IsBound (w :: vars) :=
  (isBound_cons_of_ne hne).mpr h

/-- A variable in scope is the new one or was in scope. -/
theorem IsBound.cases (h : v.IsBound (w :: vars)) : v = w ∨ w.name ≠ v.name ∧ v.IsBound vars := by
  by_cases hname : w.name = v.name
  · rw [IsBound, List.find?_cons_of_pos (by simpa using hname)] at h
    exact Or.inl (Option.some.inj h).symm
  · exact Or.inr ⟨hname, (isBound_cons_of_ne hname).mp h⟩

/-- The only variable of its name is the innermost one. -/
theorem isBound_of_unique (hv : v ∈ vars) (hunique : ∀ w ∈ vars, w.name = v.name → w = v) : v.IsBound vars := by
  cases hfound : vars.find? (fun w => w.name == v.name) with
  | none => exact absurd (beq_self_eq_true v.name) (List.find?_eq_none.mp hfound v hv)
  | some w =>
    have hname : w.name = v.name := by simpa using List.find?_some hfound
    rw [IsBound, hfound, hunique w (List.mem_of_find?_eq_some hfound) hname]

/-- Variables in scope under one name are one variable. -/
theorem IsBound.eq_of_name_eq (hv : v.IsBound vars) (hw : w.IsBound vars) (hname : v.name = w.name) : v = w := by
  rw [IsBound, hname] at hv
  exact Option.some.inj (hv.symm.trans hw)

/-- Variables that keep their names are bound where the original ones are. -/
theorem IsBound.map {f : Var → Var} (h : v.IsBound vars) (hf : ∀ w, (f w).name = w.name) : (f v).IsBound (vars.map f) := by
  have hname : ((fun w : Var => w.name == (f v).name) ∘ f) = fun w => w.name == v.name := by
    funext w
    simp [hf]
  rw [IsBound, List.find?_map, hname, h]
  rfl

theorem HidesNoTensor.cons (h : v.HidesNoTensor vars) (hw : w.ty.isTensor = false) : v.HidesNoTensor (w :: vars) := by
  intro u hu hname
  rcases List.mem_cons.mp hu with rfl | hu
  · exact hw
  · exact h u hu hname

end Var

/-! ## Code -/

/-- Whether an expression belongs to compiled code, with the given variables in scope. -/
inductive Expr.WellTyped (vars : List Var) : Expr → Prop
  | var {v : Var} (hv : v.IsBound vars) : WellTyped vars (.var v)
  | const (value : Value) (d : DType) : WellTyped vars (.const value d)
  | unary (op : UnaryOp) {arg : Expr} {d : DType} (harg : WellTyped vars arg) (htype : arg.HasDType d) :
      WellTyped vars (.unary op arg)
  | binary (op : BinaryOp) {lhs rhs : Expr} {d : DType} (hl : WellTyped vars lhs) (hr : WellTyped vars rhs)
      (htypeL : lhs.HasDType d) (htypeR : rhs.HasDType d) : WellTyped vars (.binary op lhs rhs)
  | ite {cond thenE elseE : Expr} {d : DType} (hcond : WellTyped vars cond) (hthen : WellTyped vars thenE)
      (helse : WellTyped vars elseE) (hbool : cond.HasDType .bool) (htypeT : thenE.HasDType d)
      (htypeE : elseE.HasDType d) : WellTyped vars (.ite cond thenE elseE)
  | element {v : Var} {indices : List Expr} (hv : v.IsBound vars) (hrank : v.ty.rank? = some indices.length)
      (hindices : ∀ i ∈ indices, WellTyped vars i) (htypes : ∀ i ∈ indices, i.HasDType .int32) :
      WellTyped vars (.element (.var v) indices)
  | call (func : String) {args : List Expr} (hargs : ∀ a ∈ args, WellTyped vars a) : WellTyped vars (.call func args)
  | cast {target : Ty} {arg : Expr} (htarget : target.IsStatic) (harg : WellTyped vars arg) :
      WellTyped vars (.cast target arg)
  | deref {arg : Expr} (harg : WellTyped vars arg) : WellTyped vars (.deref arg)

/-- Whether a statement belongs to compiled code, with the given variables in scope. -/
inductive Stmt.WellTyped : List Var → Stmt → Prop
  | eval {vars : List Var} {e : Expr} (h : e.WellTyped vars) : WellTyped vars (.eval e)
  | assign {vars : List Var} {v : Var} {value : Expr} {d : DType} (hv : v.IsBound vars) (hty : v.ty = .ofDType d)
      (hvalue : value.WellTyped vars) (htype : value.HasDType d) : WellTyped vars (.assign v value)
  | store {vars : List Var} {v : Var} {indices : List Expr} {value : Expr} {d : DType} (hv : v.IsBound vars)
      (helement : v.ty.elementType = .ok (.ofDType d)) (hrank : v.ty.rank? = some indices.length)
      (hindices : ∀ i ∈ indices, i.WellTyped vars) (htypes : ∀ i ∈ indices, i.HasDType .int32)
      (hvalue : value.WellTyped vars) (htype : value.HasDType d) : WellTyped vars (.store (.var v) indices value)
  | letIn {vars : List Var} {v : Var} {value : Expr} {body : Stmt} {d : DType} (hty : v.ty = .ofDType d)
      (hhides : v.HidesNoTensor vars) (hvalue : value.WellTyped vars) (htype : value.HasDType d)
      (hbody : WellTyped (v :: vars) body) : WellTyped vars (.letIn v value body)
  | forRange {vars : List Var} {v : Var} {extent : Expr} (unroll : Option Bool) {body : Stmt} {d : DType}
      (hty : v.ty = .ofDType d) (hhides : v.HidesNoTensor vars) (hextent : extent.WellTyped vars)
      (htype : extent.HasDType d) (hbody : WellTyped (v :: vars) body) :
      WellTyped vars (.forRange v extent unroll body)
  | ifThen {vars : List Var} {cond : Expr} {thenS : Stmt} (hcond : cond.WellTyped vars) (hbool : cond.HasDType .bool)
      (hthen : WellTyped vars thenS) : WellTyped vars (.ite cond thenS none)
  | ifElse {vars : List Var} {cond : Expr} {thenS elseS : Stmt} (hcond : cond.WellTyped vars)
      (hbool : cond.HasDType .bool) (hthen : WellTyped vars thenS) (helse : WellTyped vars elseS) :
      WellTyped vars (.ite cond thenS (some elseS))
  | assert {vars : List Var} {cond : Expr} (message : String) (hcond : cond.WellTyped vars)
      (hbool : cond.HasDType .bool) : WellTyped vars (.assert cond message)
  | seq {vars : List Var} {stmts : List Stmt} (h : ∀ s ∈ stmts, WellTyped vars s) : WellTyped vars (.seq stmts)

/-- Whether a function belongs to compiled code. Parameters and local variables of one name are one variable. -/
structure Function.WellTyped (f : Function) : Prop where
  types : ∀ v ∈ f.params ++ f.locals, v.ty.IsStatic
  names : ∀ v ∈ f.params ++ f.locals, v.IsBound (f.params ++ f.locals)
  body : f.body.WellTyped (f.params ++ f.locals)

/-- Whether no parameter or local variable of a function is a tensor of several dimensions. -/
def Function.IsFlat (f : Function) : Prop :=
  ∀ v ∈ f.params ++ f.locals, v.ty.IsFlat

/-- Whether every function of a module belongs to compiled code. -/
def Module.WellTyped (m : Module) : Prop :=
  ∀ f ∈ m.functions, f.WellTyped

/-! ## Parts -/

namespace Expr

variable {vars : List Var} {e c : Expr}

/-- The parts of an expression of compiled code belong to compiled code. -/
theorem WellTyped.child (h : e.WellTyped vars) (hc : c ∈ e.children) : c.WellTyped vars := by
  cases h with
  | var | const => cases hc
  | unary _ harg | cast _ harg | deref harg =>
    rw [List.mem_singleton.mp hc]
    exact harg
  | binary _ hl hr =>
    rcases List.mem_pair.mp hc with rfl | rfl
    · exact hl
    · exact hr
  | ite hcond hthen helse =>
    rcases List.mem_cons.mp hc with rfl | hc
    · exact hcond
    · rcases List.mem_pair.mp hc with rfl | rfl
      · exact hthen
      · exact helse
  | element hv _ hindices =>
    rcases List.mem_cons.mp hc with rfl | hc
    · exact .var hv
    · exact hindices c hc
  | call _ hargs => exact hargs c hc

/-! ## Indices -/

/-- Whether an expression is an index: a number of 32 bits. -/
structure IsIndex (vars : List Var) (e : Expr) : Prop where
  wellTyped : e.WellTyped vars
  hasDType : e.HasDType .int32

theorem isIndex_int (n : Int64) : (int n).IsIndex vars :=
  ⟨.const _ _, rfl⟩

/-- Arithmetic on indices gives indices. -/
theorem IsIndex.binary {op : BinaryOp} {lhs rhs : Expr} (hop : op.typeOn .int32 = .int32) (hl : lhs.IsIndex vars)
    (hr : rhs.IsIndex vars) : (binary op lhs rhs).IsIndex vars :=
  ⟨.binary op hl.wellTyped hr.wellTyped hl.hasDType hr.hasDType, hop ▸ hl.hasDType.binary op hr.hasDType⟩

theorem IsIndex.add {a b : Expr} (ha : a.IsIndex vars) (hb : b.IsIndex vars) : (a + b).IsIndex vars :=
  .binary rfl ha hb

theorem IsIndex.mul {a b : Expr} (ha : a.IsIndex vars) (hb : b.IsIndex vars) : (a * b).IsIndex vars :=
  .binary rfl ha hb

end Expr

namespace Stmt

variable {vars : List Var} {stmts : List Stmt}

theorem WellTyped.block (h : ∀ s ∈ stmts, s.WellTyped vars) : (Stmt.block stmts).WellTyped vars := by
  unfold Stmt.block
  split
  · exact h _ List.mem_cons_self
  · exact .seq h

end Stmt

end TensorCompiler
