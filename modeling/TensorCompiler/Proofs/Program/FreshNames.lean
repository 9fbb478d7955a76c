import Mathlib.Data.List.Perm.Subperm
import TensorCompiler.Program.Function
import TensorCompiler.Proofs.Graph.Names

/-! # Fresh names

A fresh name begins with its hint and is not taken: there are more candidates than taken names. The names of tensors and
of axes begin with a letter and a digit, which the hints of kernels do not, so a kernel's own variables hide none of them.
-/

namespace TensorCompiler

/-! ## Names that are free -/

/-- The hint and the candidates behind it are different names. -/
theorem nodup_candidates (hint : String) (n : Nat) :
    (hint :: (List.range n).map fun k => hint ++ "_" ++ toString (k + 1)).Nodup := by
  have hlist (k : Nat) : (hint ++ "_" ++ toString (k + 1)).toList = hint.toList ++ '_' :: (toString (k + 1)).toList := by
    rw [String.toList_append, String.toList_append, List.append_assoc]
    rfl
  refine List.nodup_cons.mpr ⟨fun hmem => ?_, List.Nodup.map (fun i j h => ?_) List.nodup_range⟩
  · obtain ⟨k, -, heq⟩ := List.mem_map.mp hmem
    have hlength := congrArg (fun name => name.toList.length) heq
    simp only [hlist, List.length_append, List.length_cons] at hlength
    omega
  · have hsame := congrArg String.toList h
    rw [hlist, hlist] at hsame
    have hdigits := (List.cons.inj (List.append_cancel_left hsame)).2
    have hnumber := toString_injective (String.toList_inj.mp hdigits)
    omega

/-- A fresh name is the hint or a candidate behind it, and is not taken. -/
theorem freshName_cases (taken : List String) (hint : String) :
    freshName taken hint ∉ taken ∧
      (freshName taken hint = hint ∨ ∃ k : Nat, freshName taken hint = hint ++ "_" ++ toString (k + 1)) := by
  by_cases hhint : taken.contains hint
  · have hname : freshName taken hint = (((List.range taken.length).map fun k => hint ++ "_" ++ toString (k + 1)).find?
        fun name => !taken.contains name).getD hint := if_pos hhint
    cases hfound : ((List.range taken.length).map fun k => hint ++ "_" ++ toString (k + 1)).find?
        fun name => !taken.contains name with
    | some name =>
      rw [hfound, Option.getD_some] at hname
      rw [hname]
      obtain ⟨k, -, hk⟩ := List.mem_map.mp (List.mem_of_find?_eq_some hfound)
      have hfree := List.find?_some hfound
      refine ⟨fun hmem => ?_, Or.inr ⟨k, hk.symm⟩⟩
      rw [List.contains_iff_mem.mpr hmem] at hfree
      cases hfree
    | none =>
      -- then the hint and all the candidates are taken, which are more than there are taken names
      have hsub : (hint :: (List.range taken.length).map fun k => hint ++ "_" ++ toString (k + 1)) ⊆ taken := by
        intro name hmem
        rcases List.mem_cons.mp hmem with rfl | hmem
        · exact List.contains_iff_mem.mp hhint
        · have hnone := List.find?_eq_none.mp hfound name hmem
          simpa using hnone
      have hlength := ((nodup_candidates hint taken.length).subperm hsub).length_le
      rw [List.length_cons, List.length_map, List.length_range] at hlength
      omega
  · have hname : freshName taken hint = hint := if_neg hhint
    rw [hname]
    exact ⟨fun hmem => hhint (List.contains_iff_mem.mpr hmem), Or.inl rfl⟩

theorem freshName_not_mem (taken : List String) (hint : String) : freshName taken hint ∉ taken :=
  (freshName_cases taken hint).1

/-- A fresh name begins with its hint. -/
theorem exists_toList_freshName (taken : List String) (hint : String) :
    ∃ suffix, (freshName taken hint).toList = hint.toList ++ suffix := by
  rcases (freshName_cases taken hint).2 with hname | ⟨k, hname⟩
  · exact ⟨[], by rw [hname, List.append_nil]⟩
  · refine ⟨"_".toList ++ (toString (k + 1)).toList, ?_⟩
    rw [hname, String.toList_append, String.toList_append, List.append_assoc]

/-! ## Names of tensors and axes -/

/-- Whether a name begins as those of tensors do, with a letter and a digit. -/
def IsNumbered (name : String) : Prop :=
  ∃ digit rest, name.toList = 't' :: digit :: rest ∧ digit.isDigit

theorem IsNumbered.append {name : String} (h : IsNumbered name) (suffix : String) : IsNumbered (name ++ suffix) := by
  obtain ⟨digit, rest, hlist, hdigit⟩ := h
  refine ⟨digit, rest ++ suffix.toList, ?_, hdigit⟩
  rw [String.toList_append, hlist]
  rfl

theorem isNumbered_tensorName (id : TensorId) : IsNumbered id.name := by
  have hdigits : (toString id).toList ≠ [] := by
    rw [toList_toString]
    exact Nat.toDigits_ne_nil
  obtain ⟨digit, rest, hlist⟩ := List.exists_cons_of_ne_nil hdigits
  refine ⟨digit, rest, ?_, ?_⟩
  · rw [TensorId.toList_name, hlist]
  · exact isDigit_of_mem_toString (hlist ▸ List.mem_cons_self)

/-- Whether a name is that of an axis, of a result or of a reduction. -/
def IsAxis (name : String) : Prop :=
  IsResultAxis name ∨ IsReductionAxis name

/-- The name of an axis is that of a tensor with an underscore and a number behind it. -/
theorem IsAxis.exists_eq {name : String} (h : IsAxis name) :
    ∃ (id : TensorId) (mark : String) (k : Nat), name = id.name ++ mark ++ toString k ∧ '_' ∈ mark.toList := by
  rcases h with ⟨id, k, rfl⟩ | ⟨id, k, rfl⟩
  · exact ⟨id, "_i", k, rfl, by decide⟩
  · exact ⟨id, "_k", k, rfl, by decide⟩

theorem IsAxis.isNumbered {name : String} (h : IsAxis name) : IsNumbered name := by
  obtain ⟨id, mark, k, rfl, -⟩ := h.exists_eq
  exact ((isNumbered_tensorName id).append mark).append _

/-- No axis has the name of a tensor. -/
theorem IsAxis.ne_tensorName {name : String} (h : IsAxis name) (id : TensorId) : name ≠ id.name := by
  obtain ⟨id', mark, k, rfl, hmark⟩ := h.exists_eq
  intro heq
  have hmem : '_' ∈ (TensorId.name id).toList := by
    rw [← heq, String.toList_append, String.toList_append]
    exact List.mem_append_left _ (List.mem_append_right _ hmark)
  rw [TensorId.toList_name] at hmem
  rcases List.mem_cons.mp hmem with hletter | hdigit
  · exact absurd hletter (by decide)
  · exact absurd (isDigit_of_mem_toString hdigit) (by decide)

/-- The variables that kernels number their threads with and collect values in have names of their own. -/
theorem not_isNumbered_freshName {hint : String} (h : hint = "tid" ∨ hint = "acc") (taken : List String) :
    ¬ IsNumbered (freshName taken hint) := by
  rintro ⟨digit, rest, hlist, hdigit⟩
  obtain ⟨suffix, hname⟩ := exists_toList_freshName taken hint
  rw [hname] at hlist
  rcases h with rfl | rfl
  · have hletter : 'i' = digit := (List.cons.inj (List.cons.inj hlist).2).1
    subst hletter
    cases hdigit
  · have hletter : 'a' = 't' := (List.cons.inj hlist).1
    exact absurd hletter (by decide)

end TensorCompiler
