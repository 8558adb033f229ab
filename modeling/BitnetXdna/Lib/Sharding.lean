import Mathlib.Order.Monotone.Basic
import Mathlib.Tactic.Common

/-!
# Sharding a range

Increasing cut points `f 0 ≤ f 1 ≤ ... ≤ f m` divide the range from `f 0` to `f m` among `m` shards: every index is in exactly
one. A loop over the shards does to an index what its own shard does (`countP_flatMap_cuts`).
-/

namespace Sharding

variable {f : Nat → Nat} {m x : Nat}

/-- Every index of the range is in a shard. -/
theorem exists_shard (h0 : f 0 ≤ x) (hm : x < f m) : ∃ i < m, f i ≤ x ∧ x < f (i + 1) := by
  induction m with
  | zero => omega
  | succ m ih =>
    by_cases h : x < f m
    · obtain ⟨i, hi, hx⟩ := ih h
      exact ⟨i, by omega, hx⟩
    · exact ⟨m, by omega, by omega, hm⟩

/-- It is in one only. -/
theorem shard_unique (hf : Monotone f) {i j : Nat} (hi : f i ≤ x ∧ x < f (i + 1)) (hj : f j ≤ x ∧ x < f (j + 1)) :
    i = j := by
  rcases Nat.lt_trichotomy i j with h | h | h
  · have := hf (show i + 1 ≤ j from h)
    omega
  · exact h
  · have := hf (show j + 1 ≤ i from h)
    omega

/-- The cut points of `n` items divided among `m`, rounded down. -/
theorem monotone_mul_div (n m : Nat) : Monotone fun i => i * n / m :=
  fun _ _ h => Nat.div_le_div_right (Nat.mul_le_mul_right n h)

/-- No share goes past the last item. -/
theorem mul_div_le {n i : Nat} (hi : i < m) : (i + 1) * n / m ≤ n :=
  calc (i + 1) * n / m ≤ m * n / m := monotone_mul_div n m hi
    _ = n := Nat.mul_div_cancel_left n (Nat.lt_of_le_of_lt (Nat.zero_le i) hi)

/-- Every item is in a share. -/
theorem exists_share {n : Nat} (hm : 0 < m) (hx : x < n) : ∃ i < m, i * n / m ≤ x ∧ x < (i + 1) * n / m :=
  exists_shard (f := fun i => i * n / m) (by simp) (by rwa [Nat.mul_div_cancel_left n hm])

section Blocks

variable {α : Type} {n : Nat}

/-- A loop of which only one iteration lists anything. -/
theorem flatMap_range_only {l : Nat → List α} {i : Nat} (hi : i < n) (h : ∀ j < n, j ≠ i → l j = []) :
    (List.range n).flatMap l = l i := by
  induction n with
  | zero => omega
  | succ n ih =>
    rw [List.range_succ, List.flatMap_append, List.flatMap_singleton]
    by_cases hin : i = n
    · subst hin
      have hnil : (List.range i).flatMap l = [] :=
        List.flatMap_eq_nil_iff.mpr fun j hj => h j (by have := List.mem_range.mp hj; omega) (by
          have := List.mem_range.mp hj; omega)
      rw [hnil, List.nil_append]
    · rw [ih (by omega) fun j hj hne => h j (by omega) hne, h n (by omega) (by omega), List.append_nil]

/-- Consecutive blocks of `b` indices are a range. -/
theorem flatMap_range_blocks (n b : Nat) :
    (List.range n).flatMap (fun i => (List.range b).map fun j => i * b + j) = List.range (n * b) := by
  induction n with
  | zero => simp
  | succ n ih =>
    rw [List.range_succ, List.flatMap_append, ih, List.flatMap_singleton, Nat.succ_mul, List.range_add]

end Blocks

section Counting

variable {α : Type} {p : α → Bool} {c : Nat}

/-- A loop whose iteration `i` satisfies `p` as often as `c` says when `x` is in shard `i`, and never otherwise. -/
theorem countP_flatMap_cuts (hf : Monotone f) {l : Nat → List α}
    (h : ∀ i < m, (l i).countP p = if f i ≤ x ∧ x < f (i + 1) then c else 0) :
    ((List.range m).flatMap l).countP p = if f 0 ≤ x ∧ x < f m then c else 0 := by
  induction m with
  | zero => rw [if_neg (by omega)]; rfl
  | succ m ih =>
    have h0 := hf (Nat.zero_le m)
    have h1 := hf (Nat.le_add_right m 1)
    rw [List.range_succ, List.flatMap_append, List.countP_append, ih fun i hi => h i (by omega), List.flatMap_singleton,
      h m (by omega)]
    by_cases hx : x < f m
    · rw [if_neg (show ¬(f m ≤ x ∧ x < f (m + 1)) by omega), Nat.add_zero]
      exact if_congr (by omega) rfl rfl
    · rw [if_neg (show ¬(f 0 ≤ x ∧ x < f m) by omega), Nat.zero_add]
      exact if_congr (by omega) rfl rfl

/-- A loop that lists one item for each index from `off` on, of which only the one for `x` may satisfy `p`. -/
theorem countP_map_cuts {off : Nat} {g : Nat → α} {q : Prop} [Decidable q]
    (h : ∀ i < m, p (g i) = decide (q ∧ off + i = x)) :
    ((List.range m).map g).countP p = if q ∧ off ≤ x ∧ x < off + m then 1 else 0 := by
  have key := countP_flatMap_cuts (f := fun i => off + i) (m := m) (x := x) (l := fun i => [g i]) (p := p)
    (c := if q then 1 else 0) (fun i j hij => by simpa using hij) fun i hi => ?_
  · rw [List.map_eq_flatMap, key]
    by_cases hq : q
    · simp [hq]
    · simp [hq]
  · rw [List.countP_singleton, h i hi]
    by_cases hq : q
    · simp only [hq, true_and, decide_eq_true_eq, if_true]
      exact if_congr (by omega) rfl rfl
    · simp [hq]

end Counting

end Sharding
