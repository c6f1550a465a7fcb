import Mathlib.Data.Rat.Cast.Order
import Mathlib.Algebra.Order.Field.Rat
import Mathlib.Tactic.Linarith
import Mathlib.Tactic.FieldSimp
import Mathlib.Tactic.Ring
import Mathlib.Algebra.Order.AbsoluteValue.Basic
import Mathlib.Algebra.Order.Field.Basic

namespace Rounding

def HalfAway (x : ℚ) (q : ℤ) : Prop := |x - q| < 1 / 2 ∨ |x - q| = 1 / 2 ∧ |x| < |(q : ℚ)|

variable {x y : ℚ} {q r : ℤ}

theorem HalfAway.neg (h : HalfAway x q) : HalfAway (-x) (-q) := by
  have hdiff : |-x - ((-q : ℤ) : ℚ)| = |x - q| := by
    rw [← abs_neg]
    push_cast
    ring_nf
  rw [HalfAway,hdiff]
  simpa [HalfAway] using h

theorem halfAway_self (q : ℤ) : HalfAway q q := .inl (by norm_num)

theorem HalfAway.close (h : HalfAway x q) : |x - q| ≤ 1 / 2 :=
  h.elim le_of_lt fun h => le_of_eq h.1

theorem HalfAway.mono (h : HalfAway x q) (h' : HalfAway y r) (hle : x ≤ y) : q ≤ r := by
  by_contra hlt
  have hstep : (r : ℚ) + 1 ≤ q := by exact_mod_cast Int.not_le.mp hlt
  have hq := abs_le.mp h.close
  have hr := abs_le.mp h'.close
  have hy : y - r = 1 / 2 := by linarith
  have hx : x - q = -(1 / 2) := by linarith
  have hfar : |x| < |(q : ℚ)| := by
    rcases h with h | h
    · rw [hx] at h
      norm_num at h
    · exact h.2
  have hfar' : |y| < |(r : ℚ)| := by
    rcases h' with h' | h'
    · rw [hy] at h'
      norm_num at h'
    · exact h'.2
  have hsquare := sq_lt_sq.mpr hfar
  have hsquare' := sq_lt_sq.mpr hfar'
  have hxy : x = y := by linarith
  have hr : (r : ℚ) = y - 1 / 2 := by linarith
  have hq : (q : ℚ) = y + 1 / 2 := by linarith
  rw [hxy,hq] at hsquare
  rw [hr] at hsquare'
  have hlow : (-1 : ℚ) < r := by nlinarith
  have hhigh : (r : ℚ) < 0 := by nlinarith
  have hlow : -1 < r := by exact_mod_cast hlow
  have hhigh : r < 0 := by exact_mod_cast hhigh
  omega

theorem HalfAway.unique (h : HalfAway x q) (h' : HalfAway x r) : q = r :=
  le_antisymm (h.mono h' le_rfl) (h'.mono h le_rfl)

theorem halfAway_div {n m : ℤ} (hn : 0 ≤ n) (hm : 0 < m) :
    HalfAway (n / m) (if m ≤ 2 * (n % m) then n / m + 1 else n / m) := by
  have hm' : (0 : ℚ) < m := by exact_mod_cast hm
  have hsum : (n : ℚ) / m = ((n / m : ℤ) : ℚ) + ((n % m : ℤ) : ℚ) / m := by
    have hdiv : ((n / m : ℤ) : ℚ) * m + ((n % m : ℤ) : ℚ) = n := by
      exact_mod_cast Int.ediv_mul_add_emod n m
    rw [← hdiv]
    field_simp
  have hlow : (0 : ℚ) ≤ ((n % m : ℤ) : ℚ) / m :=
    div_nonneg (by exact_mod_cast Int.emod_nonneg n hm.ne') hm'.le
  have hhigh : ((n % m : ℤ) : ℚ) / m < 1 := by
    rw [div_lt_one hm']
    exact_mod_cast Int.emod_lt_of_pos n hm
  have hq : (0 : ℚ) ≤ ((n / m : ℤ) : ℚ) := by exact_mod_cast Int.ediv_nonneg hn hm.le
  rw [hsum]
  split
  · rename_i hhalf
    have hhalf : 1 / 2 ≤ ((n % m : ℤ) : ℚ) / m := by
      rw [div_le_div_iff₀ (by norm_num) hm']
      have hcast : (m : ℚ) ≤ 2 * ((n % m : ℤ) : ℚ) := by exact_mod_cast hhalf
      linarith
    have hdiff : |((n / m : ℤ) : ℚ) + ((n % m : ℤ) : ℚ) / m - ((n / m + 1 : ℤ) : ℚ)| =
        1 - ((n % m : ℤ) : ℚ) / m := by
      rw [abs_sub_comm,abs_of_nonneg]
      · push_cast
        ring
      · push_cast
        linarith
    rw [HalfAway,hdiff,abs_of_nonneg (by linarith),abs_of_nonneg (by push_cast; linarith)]
    rcases lt_or_eq_of_le hhalf with hlt | heq
    · exact .inl (by linarith)
    · exact .inr ⟨by linarith,by push_cast; linarith⟩
  · rename_i hhalf
    have hhalf : ((n % m : ℤ) : ℚ) / m < 1 / 2 := by
      rw [div_lt_div_iff₀ hm' (by norm_num)]
      have hcast : 2 * ((n % m : ℤ) : ℚ) < m := by exact_mod_cast Int.not_le.mp hhalf
      linarith
    refine .inl ?_
    rw [add_sub_cancel_left,abs_of_nonneg hlow]
    exact hhalf

end Rounding
