import TensorCompiler.Scalar.Arithmetic

/-! # Values of an element type

`Value.HasType` says that a value has the form of the values of an element type: a boolean, an integer or a
float. The scalar operations are typed: on values of one type they give a value of the type that the operator has
there.
-/

namespace TensorCompiler

/-- Whether a value has the form of the values of an element type. -/
def Value.HasType (v : Value) (dtype : DType) : Prop :=
  match v with
  | .bool _ => dtype = .bool
  | .int _ => dtype.isInteger
  | .float _ => dtype.isFloat

instance (v : Value) (dtype : DType) : Decidable (v.HasType dtype) := by
  cases v <;> unfold Value.HasType <;> infer_instance

namespace DType

/-- The types that are neither boolean nor integer are the floats. -/
theorem isFloat_eq_false_iff {d : DType} : d.isFloat = false ↔ d = .bool ∨ d.isInteger := by
  cases d <;> decide

theorem isFloat_eq_false_of_isInteger {d : DType} (h : d.isInteger) : d.isFloat = false :=
  isFloat_eq_false_iff.mpr (Or.inr h)

end DType

namespace Value

variable {v : Value} {d : DType}

@[simp]
theorem hasType_bool (b : Bool) (d : DType) : (bool b).HasType d ↔ d = .bool := Iff.rfl

@[simp]
theorem hasType_int (n : Int64) (d : DType) : (int n).HasType d ↔ d.isInteger := Iff.rfl

@[simp]
theorem hasType_float (x : Float) (d : DType) : (float x).HasType d ↔ d.isFloat := Iff.rfl

/-- A value of boolean type is a boolean. -/
theorem HasType.exists_bool (h : v.HasType .bool) : ∃ b, v = bool b := by
  cases v with
  | bool b => exact ⟨b, rfl⟩
  | int n => cases h
  | float x => cases h

/-- A value of integer type is an integer. -/
theorem HasType.exists_int (hd : d.isInteger) (h : v.HasType d) : ∃ n, v = int n := by
  cases v with
  | bool b =>
    cases (show d = .bool from h)
    cases hd
  | int n => exact ⟨n, rfl⟩
  | float x =>
    have hfloat : d.isFloat := h
    rw [DType.isFloat_eq_false_of_isInteger hd] at hfloat
    cases hfloat

/-- A value of float type is a float. -/
theorem HasType.exists_float (hd : d.isFloat) (h : v.HasType d) : ∃ x, v = float x := by
  cases v with
  | bool b =>
    cases (show d = .bool from h)
    cases hd
  | int n =>
    rw [DType.isFloat_eq_false_of_isInteger h] at hd
    cases hd
  | float x => exact ⟨x, rfl⟩

/-- A cast leaves the values of its type as they are. -/
theorem HasType.cast_eq (h : v.HasType d) : v.cast d = v := by
  cases v with
  | bool b =>
    cases (show d = .bool from h)
    rfl
  | int n => cases d <;> first | rfl | cases h
  | float x => cases d <;> first | rfl | cases h

/-- A cast gives a value of its type. -/
theorem hasType_cast (v : Value) (d : DType) : (v.cast d).HasType d := by
  cases d <;> rfl

end Value

/-! ## Operators -/

/-- The type of an operation on two operands of the type `d`. -/
def BinaryOp.typeOn (op : BinaryOp) (d : DType) : DType :=
  if op.isComparison || op.isLogical then .bool else d

/-- The type of a unary operation on an operand of the type `d`. -/
def UnaryOp.typeOn (op : UnaryOp) (d : DType) : DType :=
  match op with
  | .not => .bool
  | .neg | .bitNot => d

/-- An operation on a type without floats has a type without floats. -/
theorem BinaryOp.isFloat_typeOn {op : BinaryOp} {d : DType} (hd : d.isFloat = false) : (op.typeOn d).isFloat = false := by
  unfold typeOn
  split
  · rfl
  · exact hd

section

variable [FloatOps] {a b v : Value} {d : DType}

/-- An operation that is defined on two values of one type gives a value of its own type. -/
theorem BinaryOp.hasType_eval? {op : BinaryOp} (ha : a.HasType d) (hb : b.HasType d) (h : op.eval? a b = some v) :
    v.HasType (op.typeOn d) := by
  cases hf : d.isFloat with
  | true =>
    obtain ⟨x, rfl⟩ := ha.exists_float hf
    obtain ⟨y, rfl⟩ := hb.exists_float hf
    cases op <;> simp only [eval?, Option.some.injEq, Option.map_eq_some_iff] at h <;>
      first
        | (subst h; rfl)
        | (obtain ⟨order, -, rfl⟩ := h; first | rfl | exact hf)
  | false =>
    rcases DType.isFloat_eq_false_iff.mp hf with rfl | hd
    · obtain ⟨x, rfl⟩ := ha.exists_bool
      obtain ⟨y, rfl⟩ := hb.exists_bool
      cases op <;> simp only [eval?, Option.some.injEq, Option.map_eq_some_iff, reduceCtorEq] at h <;>
        first
          | (subst h; rfl)
          | (obtain ⟨order, -, rfl⟩ := h; rfl)
    · obtain ⟨x, rfl⟩ := ha.exists_int hd
      obtain ⟨y, rfl⟩ := hb.exists_int hd
      cases op <;> simp only [eval?, Option.some.injEq, Option.map_eq_some_iff] at h <;>
        first
          | (subst h; rfl)
          | (obtain ⟨order, -, rfl⟩ := h; first | rfl | exact hd)

/-- A unary operation that is defined on a value gives a value of its own type. -/
theorem UnaryOp.hasType_eval? {op : UnaryOp} (ha : a.HasType d) (h : op.eval? a = some v) :
    v.HasType (op.typeOn d) := by
  cases op <;> cases a <;> simp only [eval?, Option.some.injEq, reduceCtorEq] at h <;> subst h <;>
    first | rfl | exact ha

/-- The integer functions take integers to integers, and have no value without arguments. -/
theorem Intrinsic.exists_int_of_eval? {func : String} (hname : func = "abs" ∨ func = "max" ∨ func = "min")
    {args : List Value} (hargs : ∀ x ∈ args, ∃ n, x = .int n) (h : eval? func args = some v) :
    args ≠ [] ∧ ∃ n, v = .int n := by
  match args, hargs, h with
  | [], _, h => cases h
  | [x], hargs, h =>
    obtain ⟨n, rfl⟩ := hargs x (by simp)
    rcases hname with rfl | rfl | rfl
    · exact ⟨by simp, absInt n, by simpa [eval?] using h.symm⟩
    · cases h
    · cases h
  | [x, y], hargs, h =>
    obtain ⟨m, rfl⟩ := hargs x (by simp)
    obtain ⟨n, rfl⟩ := hargs y (by simp)
    rcases hname with rfl | rfl | rfl
    · cases h
    · exact ⟨by simp, _, (Option.some.inj h).symm⟩
    · exact ⟨by simp, _, (Option.some.inj h).symm⟩
  | _ :: _ :: _ :: _, _, h => simp [eval?] at h

end

end TensorCompiler
