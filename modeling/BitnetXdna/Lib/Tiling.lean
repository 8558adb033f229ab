import Mathlib.Algebra.BigOperators.Group.Finset.Basic
import Mathlib.Algebra.BigOperators.Intervals
import Mathlib.Algebra.Order.BigOperators.Group.Finset
import Mathlib.Algebra.Order.BigOperators.Ring.Finset
import Mathlib.Tactic.Ring

/-!
# Cutting a range into equal chunks, and sums of products in int32

A dimension of `K` cells is served by `ceilDiv K b` chunks of `b` cells, the last one padded. A sum over the dimension is the
sum of the chunks' sums when the pads contribute nothing (`sum_chunk_succ`, one chunk at a time). `int32Dot` is a dot product
of int8 vectors in int32 arithmetic; where the exact value fits, so does the computed one (`toInt_int32Dot`).
-/

open Finset

/-- The number of chunks of `b` cells that cover `n` cells. -/
def ceilDiv (n b : Nat) : Nat := (n + b - 1) / b

/-- A chunk index that starts inside the dimension is below the number of chunks, and conversely. -/
theorem lt_ceilDiv_iff {n b c : Nat} (hb : 0 < b) : c < ceilDiv n b ↔ c * b < n := by
  rw [ceilDiv, Nat.lt_iff_add_one_le, Nat.le_div_iff_mul_le hb, Nat.succ_mul]
  omega

/-- The chunks cover the dimension. -/
theorem le_ceilDiv_mul {n b : Nat} (hb : 0 < b) : n ≤ ceilDiv n b * b := by
  by_contra h
  exact absurd ((lt_ceilDiv_iff hb).mpr (Nat.lt_of_not_le h)) (Nat.lt_irrefl _)

/-- The chunk of a cell of the dimension is one of the chunks. -/
theorem div_lt_ceilDiv {n b i : Nat} (hb : 0 < b) (h : i < n) : i / b < ceilDiv n b :=
  (lt_ceilDiv_iff hb).mpr (Nat.lt_of_le_of_lt (Nat.div_mul_le_self i b) h)

/-- Row-major position: a cell of a row inside `m` rows of `s` cells is inside the whole. -/
theorem row_add_lt {m s r j : Nat} (hr : r < m) (hj : j < s) : r * s + j < m * s := by
  have h : (r + 1) * s ≤ m * s := Nat.mul_le_mul_right s hr
  rw [Nat.succ_mul] at h
  omega

/-- A row inside `m` rows ends inside the whole. -/
theorem row_add_le {m s r n : Nat} (hr : r < m) (hn : n ≤ s) : r * s + n ≤ m * s := by
  have h : (r + 1) * s ≤ m * s := Nat.mul_le_mul_right s hr
  rw [Nat.succ_mul] at h
  omega

/-- The row of a row-major position. -/
theorem row_add_div {s r j : Nat} (hj : j < s) : (r * s + j) / s = r := by
  rw [Nat.mul_comm, Nat.mul_add_div (by omega), Nat.div_eq_of_lt hj, Nat.add_zero]

/-- The column of a row-major position. -/
theorem row_add_mod {s r j : Nat} (hj : j < s) : (r * s + j) % s = j := by
  rw [Nat.mul_comm, Nat.mul_add_mod, Nat.mod_eq_of_lt hj]

section Sums

variable {M : Type*} [AddCommMonoid M]

/-- A sum whose terms vanish from `m` on. -/
theorem sum_range_ite_lt (g : Nat → M) (m b : Nat) :
    (∑ i ∈ range b, if i < m then g i else 0) = ∑ i ∈ range (min m b), g i := by
  rw [← sum_filter]
  refine sum_congr ?_ fun _ _ => rfl
  ext i
  simp only [mem_filter, mem_range]
  omega

/-- The first `c + 1` chunks of a sum over `K` cells are the first `c` chunks and the padded chunk `c`. -/
theorem sum_chunk_succ (f : Nat → M) (K b c : Nat) :
    ∑ k ∈ range (min K ((c + 1) * b)), f k =
      ∑ k ∈ range (min K (c * b)), f k + ∑ i ∈ range b, if c * b + i < K then f (c * b + i) else 0 := by
  have hpad : (∑ i ∈ range b, if c * b + i < K then f (c * b + i) else 0) =
      ∑ i ∈ range (min (K - c * b) b), f (c * b + i) := by
    rw [← sum_range_ite_lt]
    refine sum_congr rfl fun i _ => if_congr ?_ rfl rfl
    omega
  rw [hpad, Nat.succ_mul]
  by_cases h : K ≤ c * b
  · rw [Nat.min_eq_left (by omega), Nat.min_eq_left h, show min (K - c * b) b = 0 by omega, range_zero, sum_empty,
      add_zero]
  · have hlow : min K (c * b) = c * b := by omega
    have hhigh : min K (c * b + b) = c * b + min (K - c * b) b := by omega
    rw [hlow, hhigh, sum_range_add]

/-- A sum over consecutive blocks of `b` terms. -/
theorem sum_range_blocks (f : Nat → M) (n b : Nat) :
    ∑ i ∈ range n, ∑ j ∈ range b, f (i * b + j) = ∑ k ∈ range (n * b), f k := by
  induction n with
  | zero => simp
  | succ n ih => rw [sum_range_succ, ih, Nat.succ_mul, sum_range_add]

end Sums

/-- A sum of `n` integers of magnitude at most `B`. -/
theorem abs_sum_range_le {n : Nat} {f : Nat → Int} {B : Int} (h : ∀ i < n, |f i| ≤ B) :
    |∑ i ∈ range n, f i| ≤ n * B := by
  calc |∑ i ∈ range n, f i| ≤ ∑ i ∈ range n, |f i| := abs_sum_le_sum_abs f (range n)
    _ ≤ ∑ _i ∈ range n, B := sum_le_sum fun i hi => h i (mem_range.mp hi)
    _ = n * B := by rw [sum_const, card_range, nsmul_eq_mul]

/-! ## Sums of products in int32 -/

/-- The magnitude of an int8. -/
theorem abs_int8_le (x : Int8) : |x.toInt| ≤ 128 := by
  have hlow := Int8.le_toInt x
  have hhigh := Int8.toInt_lt x
  exact abs_le.mpr ⟨hlow, by omega⟩

/-- The sum of `f 0, ..., f (n - 1)` in int32 arithmetic. -/
def int32Sum (f : Nat → Int32) : Nat → Int32
  | 0 => 0
  | n + 1 => int32Sum f n + f n

/-- The dot product of two int8 vectors, accumulated in int32. -/
def int32Dot (x y : Nat → Int8) (n : Nat) : Int32 := int32Sum (fun i => (x i).toInt32 * (y i).toInt32) n

/-- Only the terms summed matter. -/
theorem int32Sum_congr {f g : Nat → Int32} {n : Nat} (h : ∀ i < n, f i = g i) : int32Sum f n = int32Sum g n := by
  induction n with
  | zero => rfl
  | succ n ih => rw [int32Sum, int32Sum, ih fun i hi => h i (by omega), h n (by omega)]

/-- An int32 sum is the exact sum modulo 2^32. -/
theorem toInt_int32Sum (f : Nat → Int32) (g : Nat → Int) {n : Nat} (hfg : ∀ i < n, (f i).toInt = (g i).bmod (2 ^ 32)) :
    (int32Sum f n).toInt = (∑ i ∈ range n, g i).bmod (2 ^ 32) := by
  induction n with
  | zero => rfl
  | succ n ih =>
    rw [int32Sum, Int32.toInt_add, ih fun i hi => hfg i (by omega), hfg n (by omega), sum_range_succ, Int.add_bmod_bmod,
      Int.bmod_add_bmod]

/-- A value that fits in int32 is its own residue. -/
theorem bmod_eq_of_abs_lt {z : Int} (h : |z| < 2 ^ 31) : z.bmod (2 ^ 32) = z := by
  rw [abs_lt] at h
  rw [Int.bmod_eq_iff (by decide)]
  refine ⟨by omega, by omega, ?_⟩
  simp

/-- An int32 dot product of int8 vectors is exact when the exact value fits in int32. -/
theorem toInt_int32Dot {x y : Nat → Int8} {n : Nat} (h : |∑ i ∈ range n, (x i).toInt * (y i).toInt| < 2 ^ 31) :
    (int32Dot x y n).toInt = ∑ i ∈ range n, (x i).toInt * (y i).toInt := by
  rw [int32Dot, toInt_int32Sum _ (fun i => (x i).toInt * (y i).toInt), bmod_eq_of_abs_lt h]
  intro i _
  rw [Int32.toInt_mul, Int8.toInt_toInt32, Int8.toInt_toInt32]

/-- An int32 addition is exact when the exact value fits in int32. -/
theorem toInt_add_of_abs_lt {a b : Int32} (h : |a.toInt + b.toInt| < 2 ^ 31) : (a + b).toInt = a.toInt + b.toInt := by
  rw [Int32.toInt_add, bmod_eq_of_abs_lt h]
