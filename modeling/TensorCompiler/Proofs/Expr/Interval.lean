import Mathlib.Algebra.Ring.Int.Defs
import Mathlib.Tactic.Common
import TensorCompiler.Expr.Interval

/-! # Soundness of the operations on intervals

Each operation on intervals contains the results of the operation on their members, in exact arithmetic. A bound
that left the word is missing, so nothing has to be said about overflow here.
-/

namespace TensorCompiler.Interval

/-- Whether an integer lies between the bounds that are there. -/
def Contains (a : Interval) (n : Int) : Prop :=
  (∀ lo, a.lo = some lo → lo ≤ n) ∧ ∀ hi, a.hi = some hi → n ≤ hi

variable {a b : Interval} {m n c : Int}

theorem contains_any (n : Int) : any.Contains n := by
  constructor <;> intro bound h <;> cases h

theorem contains_exact (n : Int) : (exact n).Contains n := by
  constructor <;> intro bound h <;> cases h <;> exact Int.le_refl n

theorem contains_atLeast (h : c ≤ n) : (atLeast c).Contains n := by
  refine ⟨?_, fun hi hhi => by cases hhi⟩
  intro lo hlo
  cases hlo
  exact h

theorem contains_below {bound : Option Int} (h : 0 ≤ n) (hb : ∀ k, bound = some k → n < k) :
    (below bound).Contains n := by
  constructor
  · intro lo hlo
    cases hlo
    exact h
  · intro hi hhi
    obtain ⟨k, hk, rfl⟩ := Option.map_eq_some_iff.mp hhi
    have := hb k hk
    omega

theorem combine_eq_some {op : Int → Int → Int} {x y : Option Int} {r : Int} (h : combine op x y = some r) :
    ∃ p q, x = some p ∧ y = some q ∧ r = op p q := by
  obtain ⟨p, rfl, hrest⟩ := Option.bind_eq_some_iff.mp h
  obtain ⟨q, rfl, hword⟩ := Option.bind_eq_some_iff.mp hrest
  unfold wordBound? at hword
  split at hword
  · cases hword
    exact ⟨p, q, rfl, rfl, rfl⟩
  · cases hword

theorem nonneg_of_isNonNegative (h : a.isNonNegative) (hm : a.Contains m) :
    ∃ lo, a.lo = some lo ∧ 0 ≤ lo ∧ lo ≤ m := by
  unfold isNonNegative at h
  split at h
  · rename_i lo hlo
    exact ⟨lo, hlo, of_decide_eq_true h, hm.1 lo hlo⟩
  · cases h

/-- A member of an interval within `c` lies from zero to below `c`. -/
theorem isWithin_bounds (h : a.isWithin c) (hm : a.Contains m) : 0 ≤ m ∧ m < c := by
  unfold isWithin at h
  obtain ⟨hneg, hhi⟩ := (Bool.and_eq_true _ _).mp h
  obtain ⟨lo, -, hlo, hlom⟩ := nonneg_of_isNonNegative hneg hm
  split at hhi
  · rename_i hi hahi
    have hmhi := hm.2 hi hahi
    have hlt := of_decide_eq_true hhi
    omega
  · cases hhi

theorem contains_add (hm : a.Contains m) (hn : b.Contains n) : (a.add b).Contains (m + n) := by
  constructor
  · intro lo h
    obtain ⟨p, q, hp, hq, rfl⟩ := combine_eq_some h
    exact Int.add_le_add (hm.1 p hp) (hn.1 q hq)
  · intro hi h
    obtain ⟨p, q, hp, hq, rfl⟩ := combine_eq_some h
    exact Int.add_le_add (hm.2 p hp) (hn.2 q hq)

theorem contains_sub (hm : a.Contains m) (hn : b.Contains n) : (a.sub b).Contains (m - n) := by
  constructor
  · intro lo h
    obtain ⟨p, q, hp, hq, rfl⟩ := combine_eq_some h
    exact Int.sub_le_sub (hm.1 p hp) (hn.2 q hq)
  · intro hi h
    obtain ⟨p, q, hp, hq, rfl⟩ := combine_eq_some h
    exact Int.sub_le_sub (hm.2 p hp) (hn.1 q hq)

/-- A product lies between the products with the ends of an interval around its first factor. -/
theorem mul_between {lo hi x : Int} (y : Int) (hlo : lo ≤ x) (hhi : x ≤ hi) :
    min (lo * y) (hi * y) ≤ x * y ∧ x * y ≤ max (lo * y) (hi * y) := by
  rcases Int.le_total 0 y with hy | hy
  · have h₁ := Int.mul_le_mul_of_nonneg_right hlo hy
    have h₂ := Int.mul_le_mul_of_nonneg_right hhi hy
    omega
  · have h₁ := Int.mul_le_mul_of_nonpos_right hlo hy
    have h₂ := Int.mul_le_mul_of_nonpos_right hhi hy
    omega

theorem contains_mulBounded {r : Interval} (h : mulBounded? a b = some r) (hm : a.Contains m) (hn : b.Contains n) :
    r.Contains (m * n) := by
  unfold mulBounded? at h
  simp only [Option.bind_eq_bind, Option.bind_eq_some_iff] at h
  obtain ⟨p, hp, q, hq, u, hu, v, hv, hr⟩ := h
  obtain ⟨alo, blo, halo, hblo, rfl⟩ := combine_eq_some hp
  obtain ⟨_, bhi, h, hbhi, rfl⟩ := combine_eq_some hq
  cases halo.symm.trans h
  obtain ⟨ahi, _, hahi, h, rfl⟩ := combine_eq_some hu
  cases hblo.symm.trans h
  obtain ⟨_, _, h, h', rfl⟩ := combine_eq_some hv
  cases hahi.symm.trans h
  cases hbhi.symm.trans h'
  cases hr
  have hmid := mul_between n (hm.1 alo halo) (hm.2 ahi hahi)
  have hleft := mul_between alo (hn.1 blo hblo) (hn.2 bhi hbhi)
  have hright := mul_between ahi (hn.1 blo hblo) (hn.2 bhi hbhi)
  rw [Int.mul_comm blo, Int.mul_comm bhi, Int.mul_comm n] at hleft hright
  constructor
  · intro lo hlo
    cases hlo
    omega
  · intro hi hhi
    cases hhi
    omega

theorem contains_mul (hm : a.Contains m) (hn : b.Contains n) : (a.mul b).Contains (m * n) := by
  unfold mul
  split
  · rename_i products h
    exact contains_mulBounded h hm hn
  · split
    · rename_i hsign
      obtain ⟨hasign, hbsign⟩ := (Bool.and_eq_true _ _).mp hsign
      obtain ⟨alo, halo, ha, ham⟩ := nonneg_of_isNonNegative hasign hm
      obtain ⟨blo, hblo, hb, hbn⟩ := nonneg_of_isNonNegative hbsign hn
      constructor
      · intro lo h
        obtain ⟨p, q, hp, hq, rfl⟩ := combine_eq_some h
        cases halo.symm.trans hp
        cases hblo.symm.trans hq
        exact Int.mul_le_mul ham hbn hb (by omega)
      · intro hi h
        obtain ⟨p, q, hp, hq, rfl⟩ := combine_eq_some h
        have hmp := hm.2 p hp
        exact Int.mul_le_mul hmp (hn.2 q hq) (by omega) (by omega)
    · exact contains_any _

theorem contains_div (hc : 0 < c) (hm : a.Contains m) : (a.div c).Contains (m.tdiv c) := by
  unfold div
  split
  · rename_i hsign
    obtain ⟨lo, hlo, hlo0, hlom⟩ := nonneg_of_isNonNegative hsign hm
    constructor
    · intro lo' h
      obtain ⟨p, hp, rfl⟩ := Option.map_eq_some_iff.mp h
      exact Int.tdiv_le_tdiv hc (hm.1 p hp)
    · intro hi h
      obtain ⟨p, hp, rfl⟩ := Option.map_eq_some_iff.mp h
      exact Int.tdiv_le_tdiv hc (hm.2 p hp)
  · exact contains_any _

theorem contains_mod (hc : 0 < c) (hm : a.Contains m) : (a.mod c).Contains (m.tmod c) := by
  unfold mod
  split
  · rename_i hsign
    obtain ⟨lo, hlo, hlo0, hlom⟩ := nonneg_of_isNonNegative hsign hm
    have hnonneg := Int.tmod_nonneg c (show 0 ≤ m by omega)
    have hlt := Int.tmod_lt_of_pos m hc
    split
    · rename_i hi hhi
      have hle : m.tmod c ≤ m := by
        have hquot : 0 ≤ c * m.tdiv c := Int.mul_nonneg (by omega) (Int.tdiv_nonneg (by omega) (by omega))
        have := Int.tmod_add_mul_tdiv m c
        omega
      have hmhi := hm.2 hi hhi
      constructor
      · intro lo' h
        cases h
        exact hnonneg
      · intro hi' h
        cases h
        omega
    · constructor
      · intro lo' h
        cases h
        exact hnonneg
      · intro hi' h
        cases h
        omega
  · exact contains_any _

/-- A comparison that the bounds decide is the comparison of the members. -/
theorem compare?_eq_some {strict r : Bool} (h : compare? strict a b = some r) (hm : a.Contains m) (hn : b.Contains n) :
    r = if strict then decide (m < n) else decide (m ≤ n) := by
  unfold compare? at h
  dsimp only at h
  split_ifs at h with halways hnever <;> cases h
  · split at halways
    · rename_i x y hx hy
      have hmx := hm.2 x hx
      have hyn := hn.1 y hy
      cases strict <;> simp at halways ⊢ <;> omega
    · cases halways
  · split at hnever
    · rename_i x y hx hy
      have hxm := hm.1 x hx
      have hny := hn.2 y hy
      cases strict <;> simp at hnever ⊢ <;> omega
    · cases hnever

/-! ## Numbers from zero on

As long as the bounds fit the word, nothing is lost of them.
-/

end TensorCompiler.Interval
