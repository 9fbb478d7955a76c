import Mathlib.Data.List.Nodup
import Mathlib.Tactic.Common
import TensorCompiler.Graph.Operators

/-! # Names in graphs

The name of a tensor is a letter and its number, and the names of axes are made from it with a number of their own.
Reading the characters back shows that tensors of different numbers have different names, and that the axis of a
result is no axis of a reduction.
-/

namespace TensorCompiler

theorem toList_toString (n : Nat) : (toString n).toList = Nat.toDigits 10 n := by
  rw [Nat.toString_eq_ofList_toDigits, String.toList_ofList]

theorem isDigit_of_mem_toString {n : Nat} {c : Char} (h : c ∈ (toString n).toList) : c.isDigit := by
  rw [toList_toString] at h
  exact Nat.isDigit_of_mem_toDigits (by decide) (by decide) h

theorem toString_injective {m n : Nat} (h : toString m = toString n) : m = n := by
  have hdigits : Nat.toDigits 10 m = Nat.toDigits 10 n := by
    rw [← toList_toString, ← toList_toString, h]
  rw [← Nat.ofDigitChars_ten_toDigits (n := m), hdigits, Nat.ofDigitChars_ten_toDigits]

theorem TensorId.toList_name (id : TensorId) : (TensorId.name id).toList = 't' :: (toString id).toList := by
  rw [TensorId.name, String.toList_append]
  rfl

/-- Tensors of different numbers have different names. -/
theorem TensorId.name_injective {a b : TensorId} (h : TensorId.name a = TensorId.name b) : a = b := by
  have hlist := congrArg String.toList h
  rw [toList_name, toList_name, List.cons.injEq] at hlist
  exact toString_injective (String.toList_inj.mp hlist.2)

/-- Whether a name is that of an axis of a result. -/
def IsResultAxis (name : String) : Prop :=
  ∃ (id : TensorId) (k : Nat), name = axisName (TensorId.name id) ++ toString k

/-- Whether a name is that of an axis of a reduction. -/
def IsReductionAxis (name : String) : Prop :=
  ∃ (id : TensorId) (k : Nat), name = reductionAxisName (TensorId.name id) ++ toString k

theorem isResultAxis_of_mem_axisVars {id : TensorId} {rank : Nat} {v : Var}
    (h : v ∈ axisVars (axisName (TensorId.name id)) rank) : IsResultAxis v.name := by
  obtain ⟨k, -, rfl⟩ := List.mem_map.mp h
  exact ⟨id, k, rfl⟩

theorem isReductionAxis_of_mem_axisVars {id : TensorId} {rank : Nat} {v : Var}
    (h : v ∈ axisVars (reductionAxisName (TensorId.name id)) rank) : IsReductionAxis v.name := by
  obtain ⟨k, -, rfl⟩ := List.mem_map.mp h
  exact ⟨id, k, rfl⟩

/-- Axes are numbers of 32 bits. -/
theorem ty_of_mem_axisVars {name : String} {rank : Nat} {v : Var} (h : v ∈ axisVars name rank) :
    v.ty = .ofDType .int32 := by
  obtain ⟨k, -, rfl⟩ := List.mem_map.mp h
  rfl

/-- The axes of one name have different names. -/
theorem nodup_names_axisVars (name : String) (rank : Nat) : ((axisVars name rank).map Var.name).Nodup := by
  rw [axisVars, List.map_map]
  apply List.Nodup.map _ List.nodup_range
  intro i j h
  have hlist : (name ++ toString i).toList = (name ++ toString j).toList := congrArg String.toList h
  rw [String.toList_append, String.toList_append] at hlist
  exact toString_injective (String.toList_inj.mp (List.append_cancel_left hlist))

/-- The axis of a result is no axis of a reduction: no `k` is in its name. -/
theorem IsResultAxis.not_isReductionAxis {name : String} (h : IsResultAxis name) : ¬ IsReductionAxis name := by
  obtain ⟨id, k, rfl⟩ := h
  rintro ⟨id', k', heq⟩
  have hnot : 'k' ∉ (axisName (TensorId.name id) ++ toString k).toList := by
    rw [axisName, String.toList_append, String.toList_append, TensorId.toList_name]
    intro hmem
    rcases List.mem_append.mp hmem with hmem | hmem
    · rcases List.mem_append.mp hmem with hmem | hmem
      · rcases List.mem_cons.mp hmem with hmem | hmem
        · exact absurd hmem (by decide)
        · exact absurd (isDigit_of_mem_toString hmem) (by decide)
      · exact absurd hmem (by decide)
    · exact absurd (isDigit_of_mem_toString hmem) (by decide)
  refine hnot ?_
  rw [heq, reductionAxisName, String.toList_append, String.toList_append]
  exact List.mem_append_left _ (List.mem_append_right _ (by decide))

end TensorCompiler
