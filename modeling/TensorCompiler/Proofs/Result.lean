import Mathlib.Algebra.Group.Nat.Defs
import Mathlib.Data.List.Forall2
import TensorCompiler.Error

/-! # Computations that succeed

When a chain of steps that may fail gives a result: each step gives one. Over a list the results are related to
the items by `List.Forall₂`.
-/

namespace TensorCompiler

variable {α β γ : Type}

/-- A relation between two lists changes along what is known of related members. -/
theorem forall₂_imp_of_mem {R S : α → β → Prop} {xs : List α} {ys : List β} (h : List.Forall₂ R xs ys)
    (himp : ∀ x ∈ xs, ∀ y, R x y → S x y) : List.Forall₂ S xs ys := by
  have hmem : List.Forall₂ (fun x y => x ∈ xs ∧ R x y) xs ys :=
    (List.forall₂_and_left xs ys).mpr ⟨fun x hx => hx, h⟩
  exact hmem.imp fun x y hxy => himp x hxy.1 y hxy.2

/-- Relations that agree on the members of the first list relate it to the same lists. -/
theorem forall₂_congr_of_mem {R S : α → β → Prop} {xs : List α} {ys : List β} (h : ∀ x ∈ xs, ∀ y, R x y ↔ S x y) :
    List.Forall₂ R xs ys ↔ List.Forall₂ S xs ys :=
  ⟨fun hR => forall₂_imp_of_mem hR fun x hx y => (h x hx y).mp,
    fun hS => forall₂_imp_of_mem hS fun x hx y => (h x hx y).mpr⟩

/-- What holds of everything that a member of the first list is related to holds of the second list. -/
theorem forall_mem_of_forall₂ {R : α → β → Prop} {p : β → Prop} {xs : List α} {ys : List β}
    (h : List.Forall₂ R xs ys) (himp : ∀ x ∈ xs, ∀ y, R x y → p y) : ∀ y ∈ ys, p y := by
  have hflip : List.Forall₂ (fun y _ => p y) ys xs := (forall₂_imp_of_mem h himp).flip
  exact ((List.forall₂_and_left ys xs).mp (hflip.imp (S := fun y _ => p y ∧ True) fun y x hy => ⟨hy, trivial⟩)).1

/-- A member of the first list is related to a member of the second one. -/
theorem exists_mem_of_forall₂ {R : α → β → Prop} {xs : List α} {ys : List β} (h : List.Forall₂ R xs ys) {x : α}
    (hx : x ∈ xs) : ∃ y ∈ ys, R x y := by
  obtain ⟨i, hi, rfl⟩ := List.mem_iff_getElem.mp hx
  have hi' : i < ys.length := h.length_eq ▸ hi
  exact ⟨ys[i], List.getElem_mem hi', h.get hi hi'⟩

/-- Functions that agree on related members give the same list. -/
theorem map_eq_of_forall₂ {R : α → β → Prop} {f : α → γ} {g : β → γ} {xs : List α} {ys : List β}
    (h : List.Forall₂ R xs ys) (himp : ∀ x y, R x y → g y = f x) : ys.map g = xs.map f := by
  induction h with
  | nil => rfl
  | cons hxy _ ih => rw [List.map_cons, List.map_cons, himp _ _ hxy, ih]

/-- Tests that agree on related members are first passed at the same position. -/
theorem findIdx?_eq_of_forall₂ {p : α → Bool} {q : β → Bool} {xs : List α} {ys : List β}
    (h : List.Forall₂ (fun x y => p x = q y) xs ys) : xs.findIdx? p = ys.findIdx? q := by
  induction h with
  | nil => rfl
  | cons h _ ih => rw [List.findIdx?_cons, List.findIdx?_cons, h, ih]

theorem getElem?_rel_of_forall₂ {R : α → β → Prop} {xs : List α} {ys : List β} (h : List.Forall₂ R xs ys) (i : Nat) :
    Option.Rel R xs[i]? ys[i]? := by
  induction h generalizing i with
  | nil => exact .none
  | cons h _ ih =>
    cases i with
    | zero => exact .some h
    | succ i => exact ih i

/-- Two lists whose members are related to those of a third one are related to each other. -/
theorem forall₂_of_common {R : α → β → Prop} {S : α → γ → Prop} {T : β → γ → Prop} {xs : List α} {ys : List β}
    {zs : List γ} (h : List.Forall₂ R xs ys) (h' : List.Forall₂ S xs zs)
    (himp : ∀ x ∈ xs, ∀ y z, R x y → S x z → T y z) : List.Forall₂ T ys zs := by
  induction h generalizing zs with
  | nil =>
    rw [List.forall₂_nil_left_iff.mp h']
    exact .nil
  | @cons x y xs ys hxy _ ih =>
    obtain ⟨z, zs, hxz, hrest, rfl⟩ := List.forall₂_cons_left_iff.mp h'
    exact .cons (himp x List.mem_cons_self y z hxy hxz) (ih hrest fun x hx => himp x (List.mem_cons_of_mem _ hx))

theorem exists_forall₂ {R : α → β → Prop} {xs : List α} (h : ∀ x ∈ xs, ∃ y, R x y) : ∃ ys, List.Forall₂ R xs ys := by
  induction xs with
  | nil => exact ⟨[], List.Forall₂.nil⟩
  | cons x xs ih =>
    obtain ⟨y, hy⟩ := h x List.mem_cons_self
    obtain ⟨ys, hys⟩ := ih fun x hx => h x (List.mem_cons_of_mem _ hx)
    exact ⟨y :: ys, List.Forall₂.cons hy hys⟩

theorem bind_ok (a : α) (f : α → Except Error β) : (Except.ok a >>= f) = f a := rfl

theorem bind_eq_ok_iff {x : Except Error α} {f : α → Except Error β} {b : β} :
    (x >>= f) = .ok b ↔ ∃ a, x = .ok a ∧ f a = .ok b := by
  cases x with
  | error e =>
    constructor
    · intro h
      cases h
    · rintro ⟨a, h, -⟩
      cases h
  | ok a =>
    constructor
    · intro h
      exact ⟨a, rfl, h⟩
    · rintro ⟨a', h, hf⟩
      cases h
      exact hf

theorem map_eq_error_iff {f : α → β} {x : Except Error α} {e : Error} : f <$> x = .error e ↔ x = .error e := by
  cases x with
  | error e' => exact ⟨fun h => congrArg Except.error (Except.error.inj h), fun h => congrArg (f <$> ·) h⟩
  | ok a =>
    constructor
    · intro h
      cases h
    · intro h
      cases h

theorem mapM_eq_ok_iff {f : α → Except Error β} {xs : List α} {ys : List β} :
    xs.mapM f = .ok ys ↔ List.Forall₂ (fun x y => f x = .ok y) xs ys := by
  induction xs generalizing ys with
  | nil =>
    rw [List.mapM_nil, List.forall₂_nil_left_iff]
    constructor
    · intro h
      cases h
      rfl
    · rintro rfl
      rfl
  | cons x xs ih =>
    rw [List.mapM_cons, bind_eq_ok_iff, List.forall₂_cons_left_iff]
    constructor
    · rintro ⟨y, hy, hrest⟩
      obtain ⟨ys', hys, hcons⟩ := bind_eq_ok_iff.mp hrest
      cases hcons
      exact ⟨y, ys', hy, ih.mp hys, rfl⟩
    · rintro ⟨y, ys', hy, hys, rfl⟩
      exact ⟨y, hy, bind_eq_ok_iff.mpr ⟨ys', ih.mpr hys, rfl⟩⟩

/-- What each step of a fold keeps, the fold keeps. -/
theorem foldlM_keeps {P : γ → Prop} {step : γ → α → Except Error γ} {xs : List α} {init r : γ}
    (hstep : ∀ x ∈ xs, ∀ acc acc', P acc → step acc x = .ok acc' → P acc') (hinit : P init)
    (h : xs.foldlM step init = .ok r) : P r := by
  induction xs generalizing init with
  | nil =>
    cases h
    exact hinit
  | cons x xs ih =>
    rw [List.foldlM_cons] at h
    obtain ⟨next, hnext, hrest⟩ := bind_eq_ok_iff.mp h
    have hkept := hstep x List.mem_cons_self init next hinit hnext
    exact ih (fun x hx => hstep x (List.mem_cons_of_mem _ hx)) hkept hrest

/-- A fold that fails does so in one of its steps. -/
theorem exists_of_foldlM_eq_error {step : γ → α → Except Error γ} {xs : List α} {init : γ} {e : Error}
    (h : xs.foldlM step init = .error e) : ∃ x ∈ xs, ∃ acc, step acc x = .error e := by
  induction xs generalizing init with
  | nil => cases h
  | cons x xs ih =>
    rw [List.foldlM_cons] at h
    cases hstep : step init x with
    | error e' =>
      rw [hstep] at h
      cases h
      exact ⟨x, List.mem_cons_self, init, hstep⟩
    | ok next =>
      rw [hstep] at h
      obtain ⟨y, hy, hfails⟩ := ih h
      exact ⟨y, List.mem_cons_of_mem x hy, hfails⟩

/-- Folds over the same list whose steps have the same outcome, as far as a view of their states shows it, have the same
outcome. -/
theorem foldlM_map_eq {δ ε : Type} {view : γ → ε} {view' : δ → ε} {step : γ → α → Except Error γ}
    {step' : δ → α → Except Error δ} {xs : List α} {init : γ} {init' : δ}
    (hstep : ∀ x ∈ xs, ∀ acc acc', view acc = view' acc' → view <$> step acc x = view' <$> step' acc' x)
    (hinit : view init = view' init') : view <$> xs.foldlM step init = view' <$> xs.foldlM step' init' := by
  induction xs generalizing init init' with
  | nil => exact congrArg Except.ok hinit
  | cons x xs ih =>
    have hfirst := hstep x List.mem_cons_self init init' hinit
    rw [List.foldlM_cons, List.foldlM_cons]
    cases hnext : step init x <;> cases hnext' : step' init' x
    all_goals rw [hnext, hnext'] at hfirst
    · exact congrArg Except.error (Except.error.inj hfirst)
    · cases hfirst
    · cases hfirst
    · exact ih (fun x hx => hstep x (List.mem_cons_of_mem _ hx)) (Except.ok.inj hfirst)

/-- A fold succeeds if each step does from what the steps keep. -/
theorem exists_foldlM {P : γ → Prop} {step : γ → α → Except Error γ} {xs : List α} {init : γ}
    (hstep : ∀ x ∈ xs, ∀ acc, P acc → ∃ acc', step acc x = .ok acc' ∧ P acc') (hinit : P init) :
    ∃ r, xs.foldlM step init = .ok r ∧ P r := by
  induction xs generalizing init with
  | nil => exact ⟨init, rfl, hinit⟩
  | cons x xs ih =>
    obtain ⟨next, hnext, hP⟩ := hstep x List.mem_cons_self init hinit
    obtain ⟨r, hr, hPr⟩ := ih (fun x hx => hstep x (List.mem_cons_of_mem _ hx)) hP
    refine ⟨r, ?_, hPr⟩
    rw [List.foldlM_cons, hnext]
    exact hr

theorem exists_mapM {f : α → Except Error β} {xs : List α} (h : ∀ x ∈ xs, ∃ y, f x = .ok y) :
    ∃ ys, xs.mapM f = .ok ys := by
  obtain ⟨ys, hys⟩ := exists_forall₂ h
  exact ⟨ys, mapM_eq_ok_iff.mpr hys⟩

/-- A fold that computes a value for each item and combines it succeeds if the values exist and can be combined. -/
theorem foldlM_bind_eq_ok_iff {g : α → Except Error β} {h : γ → β → Except Error γ} {xs : List α} {init r : γ} :
    xs.foldlM (fun acc x => g x >>= h acc) init = .ok r ↔
      ∃ vs, List.Forall₂ (fun x v => g x = .ok v) xs vs ∧ vs.foldlM h init = .ok r := by
  induction xs generalizing init with
  | nil => simp [List.forall₂_nil_left_iff]
  | cons x xs ih =>
    rw [List.foldlM_cons, bind_eq_ok_iff]
    constructor
    · rintro ⟨acc, hacc, hrest⟩
      obtain ⟨v, hv, hcombine⟩ := bind_eq_ok_iff.mp hacc
      obtain ⟨vs, hvs, hfold⟩ := ih.mp hrest
      refine ⟨v :: vs, List.Forall₂.cons hv hvs, ?_⟩
      rw [List.foldlM_cons, bind_eq_ok_iff]
      exact ⟨acc, hcombine, hfold⟩
    · rintro ⟨_, hall, hfold⟩
      cases hall with
      | cons hv hvs =>
        rw [List.foldlM_cons, bind_eq_ok_iff] at hfold
        obtain ⟨acc, hcombine, hrest⟩ := hfold
        exact ⟨acc, bind_eq_ok_iff.mpr ⟨_, hv, hcombine⟩, ih.mpr ⟨_, hvs, hrest⟩⟩

end TensorCompiler
