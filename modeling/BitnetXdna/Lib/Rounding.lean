import Mathlib.Algebra.BigOperators.Group.Finset.Basic
import Mathlib.Algebra.Order.BigOperators.Group.Finset
import Mathlib.Algebra.Order.Round
import Mathlib.Data.Rat.Floor
import Mathlib.Tactic.Linarith

/-!
# Rounding rationals

`roundAway` rounds to the nearest integer and ties away from zero; it is at most one half off (`abs_roundAway_sub_le`), exact
on the integers and keeps every integer bound (`abs_roundAway_le`). The truncation of a rational, as a quotient of integers,
is its floor where it is not negative (`tdiv_num_den`). A dot product with weights of at most one is off by no more than its
terms are (`abs_dot_sub_le`).
-/

namespace Rounding

open Finset

/-- The nearest integer, a tie going away from zero. -/
def roundAway (q : ℚ) : Int := if 0 ≤ q then round q else -round (-q)

/-- Truncation towards zero of a rational that is not negative. -/
theorem tdiv_num_den {q : ℚ} (h : 0 ≤ q) : q.num.tdiv q.den = ⌊q⌋ := by
  rw [Int.tdiv_eq_ediv_of_nonneg (Rat.num_nonneg.mpr h), Rat.floor_def']

/-- Rounding an integer does nothing. -/
@[simp] theorem roundAway_intCast (z : Int) : roundAway z = z := by
  unfold roundAway
  split
  · exact round_intCast z
  · rw [← Int.cast_neg, round_intCast, neg_neg]

/-- Rounding is at most one half off. -/
theorem abs_roundAway_sub_le (q : ℚ) : |(roundAway q : ℚ) - q| ≤ 1 / 2 := by
  unfold roundAway
  split
  · rw [abs_sub_comm]
    exact abs_sub_round q
  · have hneg := abs_sub_round (-q)
    have heq : ((-round (-q) : Int) : ℚ) - q = -q - round (-q) := by
      push_cast
      ring
    rwa [heq]

/-- Rounding keeps an integer bound. -/
theorem abs_roundAway_le {q : ℚ} {b : Int} (h : |q| ≤ b) : |roundAway q| ≤ b := by
  have hround := abs_le.mp (abs_roundAway_sub_le q)
  have hq := abs_le.mp h
  have hhigh : (roundAway q : ℚ) < b + 1 := by linarith
  have hlow : (-(b : ℚ) - 1) < roundAway q := by linarith
  have hhigh' : roundAway q < b + 1 := by exact_mod_cast hhigh
  have hlow' : -b - 1 < roundAway q := by exact_mod_cast hlow
  rw [abs_le]
  constructor <;> omega

/-- Weights of at most one do not enlarge the errors of what they weigh. -/
theorem abs_dot_sub_le {n : Nat} {w a b : Nat → ℚ} {δ : ℚ} (hw : ∀ k < n, |w k| ≤ 1) (h : ∀ k < n, |a k - b k| ≤ δ) :
    |∑ k ∈ range n, w k * a k - ∑ k ∈ range n, w k * b k| ≤ n * δ := by
  rw [← sum_sub_distrib]
  calc |∑ k ∈ range n, (w k * a k - w k * b k)| ≤ ∑ k ∈ range n, |w k * a k - w k * b k| := abs_sum_le_sum_abs ..
    _ ≤ ∑ _k ∈ range n, δ := by
      refine sum_le_sum ?_
      intro k hk
      have hk' := mem_range.mp hk
      rw [← mul_sub, abs_mul]
      exact (mul_le_of_le_one_left (abs_nonneg _) (hw k hk')).trans (h k hk')
    _ = n * δ := by rw [sum_const, card_range, nsmul_eq_mul]

end Rounding
