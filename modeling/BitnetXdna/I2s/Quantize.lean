import BitnetXdna.Shim.Clients
import BitnetXdna.Lib.Rounding

/-!
# Quantising the activations

`i2s_quantize_activations` of `runtime/bitnet_i2s.c`: a row is scaled by 127 over its largest magnitude and rounded. It takes
its arithmetic from `QuantArith`; over the rationals a row is scaled into [-127, 127], so that neither clamp ever fires, every
activation is off by at most half a step, and an entry of the product is off by at most half a step for each of its terms
(`quantized_product_error`).
-/

namespace BitnetXdna

open Finset Rounding

/-- The arithmetic of `i2s_quantize_activations`: `float` in the code. -/
class QuantArith (F : Type) extends Mul F, Div F where
  /-- The value of an integer literal. -/
  ofInt : Int → F
  /-- The literal `1e-5f`. -/
  floor : F
  /-- `fabsf`. -/
  abs : F → F
  lt : F → F → Bool
  /-- `roundf`: to the nearest integer, ties away from zero. -/
  round : F → F
  /-- The conversion to `int8_t`, towards zero. -/
  toInt8 : F → Int8

instance : QuantArith ℚ where
  ofInt z := z
  floor := 1 / 100000
  abs q := |q|
  lt a b := decide (a < b)
  round q := roundAway q
  toInt8 q := Int8.ofInt (q.num.tdiv q.den)

section Model

variable {F : Type} [QuantArith F]

/-- The loop that finds the largest magnitude of a row. -/
def absMax (x : Buffer F) (K : Nat) : Option F :=
  forRange K (QuantArith.ofInt 0 : F) fun k amax => do
    let v ← x.load k
    let a := QuantArith.abs v
    pure (if QuantArith.lt amax a then a else amax)

/-- The body of the loop that rounds, clamps and sums. -/
def quantizeStep (x : Buffer F) (s : F) (k : Nat) (st : Buffer Int8 × Int32) : Option (Buffer Int8 × Int32) := do
  let xk ← x.load k
  let v := QuantArith.round (xk * s)
  let v := if QuantArith.lt (QuantArith.ofInt 127) v then QuantArith.ofInt 127 else v
  let v := if QuantArith.lt v (QuantArith.ofInt (-128)) then QuantArith.ofInt (-128) else v
  let q ← st.1.store k (QuantArith.toInt8 v)
  let qk ← q.load k
  pure (q, st.2 + qk.toInt32)

/-- `i2s_quantize_activations`: the quantised row, its scale and its sum. -/
def i2sQuantizeActivations (x : Buffer F) (K : Nat) (q : Buffer Int8) : Option (Buffer Int8 × F × Int32) := do
  let amax ← absMax x K
  let amax := if QuantArith.lt amax QuantArith.floor then QuantArith.floor else amax
  let s := QuantArith.ofInt 127 / amax
  let (q, acc) ← forRange K (q, (0 : Int32)) (quantizeStep x s)
  pure (q, s, acc)

end Model

/-! ## A quantised row -/

/-- The first `K` activations of a row, over the rationals, and what they are quantised to: the scale takes the row into
[-127, 127], each activation is scaled and rounded there, and the largest ones get all of it. -/
structure Quantized (x : Buffer ℚ) (K : Nat) (q : Buffer Int8) (s : ℚ) : Prop where
  pos : 0 < s
  rounded : ∀ k < K, (q.cell k).toInt = roundAway (x.cell k * s)
  unclamped : ∀ k < K, |roundAway (x.cell k * s)| ≤ 127
  error : ∀ k < K, |x.cell k - ((q.cell k).toInt : ℚ) / s| ≤ 1 / (2 * s)
  largest : ∀ k < K, (∀ i < K, |x.cell i| ≤ |x.cell k|) → 1 / 100000 ≤ |x.cell k| →
    (q.cell k).toInt = 127 ∨ (q.cell k).toInt = -127

section Row

variable {x : Buffer ℚ} {K : Nat} {q : Buffer Int8} {s : ℚ}

/-- The maximum is at least every magnitude, and is one of them or zero. -/
theorem absMax_eq (hx : K ≤ x.size) :
    ∃ amax, absMax x K = some amax ∧ (∀ k < K, |x.cell k| ≤ amax) ∧ (amax = 0 ∨ ∃ k < K, amax = |x.cell k|) := by
  unfold absMax
  refine forRange_option _ _ (fun n amax => (∀ k < n, |x.cell k| ≤ amax) ∧ (amax = 0 ∨ ∃ k < n, amax = |x.cell k|)) ?_ ?_
  · exact ⟨fun k hk => absurd hk (Nat.not_lt_zero k), Or.inl (by simp [QuantArith.ofInt])⟩
  · rintro n hn amax ⟨hle, hmax⟩
    rw [Buffer.load_eq (Nat.lt_of_lt_of_le hn hx)]
    refine ⟨_, rfl, ?_⟩
    simp only [QuantArith.lt, QuantArith.abs, decide_eq_true_eq]
    split
    · next hlt =>
      refine ⟨fun k hk => ?_, Or.inr ⟨n, Nat.lt_succ_self n, rfl⟩⟩
      rcases Nat.lt_succ_iff_lt_or_eq.mp hk with hk | rfl
      · exact (hle k hk).trans hlt.le
      · exact le_refl _
    · next hge =>
      constructor
      · intro k hk
        rcases Nat.lt_succ_iff_lt_or_eq.mp hk with hk | rfl
        · exact hle k hk
        · exact not_lt.mp hge
      · rcases hmax with h0 | ⟨k, hk, heq⟩
        · exact Or.inl h0
        · exact Or.inr ⟨k, Nat.lt_succ_of_lt hk, heq⟩

/-- The byte of a small integer is that integer. -/
theorem toInt_toInt8_intCast {z : Int} (hz : |z| ≤ 127) : (QuantArith.toInt8 (z : ℚ)).toInt = z := by
  have hbounds := abs_le.mp hz
  have hdef : QuantArith.toInt8 (z : ℚ) = Int8.ofInt ((z : ℚ).num.tdiv (z : ℚ).den) := rfl
  rw [hdef, Rat.num_intCast, Rat.den_intCast, Nat.cast_one, Int.tdiv_one, Int8.toInt_ofInt]
  exact Int.bmod_eq_of_le (by norm_num; omega) (by norm_num; omega)

/-- A scaled activation within [-127, 127] passes both clamps unchanged. -/
theorem quantizeStep_eq {b : Buffer Int8} {acc : Int32} {k : Nat} (hx : k < x.size) (hb : k < b.size)
    (h : |roundAway (x.cell k * s)| ≤ 127) :
    quantizeStep x s k (b, acc) =
      some (b.write k 1 fun _ => QuantArith.toInt8 (roundAway (x.cell k * s) : ℚ),
        acc + (QuantArith.toInt8 (roundAway (x.cell k * s) : ℚ)).toInt32) := by
  obtain ⟨hlow, hhigh⟩ := abs_le.mp h
  have hclampHigh : QuantArith.lt (QuantArith.ofInt 127) (roundAway (x.cell k * s) : ℚ) = false := by
    simp only [QuantArith.lt, QuantArith.ofInt, decide_eq_false_iff_not, not_lt]
    exact_mod_cast hhigh
  have hclampLow : QuantArith.lt (roundAway (x.cell k * s) : ℚ) (QuantArith.ofInt (-128)) = false := by
    simp only [QuantArith.lt, QuantArith.ofInt, decide_eq_false_iff_not, not_lt]
    exact_mod_cast (by omega : -128 ≤ roundAway (x.cell k * s))
  have hround : QuantArith.round (x.cell k * s) = (roundAway (x.cell k * s) : ℚ) := rfl
  unfold quantizeStep
  simp only [Buffer.load_eq hx, Option.bind_eq_bind, Option.bind_some, hround, hclampHigh, hclampLow, Bool.false_eq_true,
    if_false, Buffer.store_eq _ hb]
  rw [Buffer.load_eq (by simpa using hb), Option.bind_some, Buffer.cell_write, if_pos (by omega)]
  rfl

/-- The bytes that a row is quantised to at a scale. -/
def quantizedCell (x : Buffer ℚ) (s : ℚ) (k : Nat) : Int8 := QuantArith.toInt8 (roundAway (x.cell k * s) : ℚ)

/-- The loop over a row whose scaled activations are within [-127, 127]. -/
theorem quantizeLoop_eq (hx : K ≤ x.size) (hq : K ≤ q.size) (h : ∀ k < K, |roundAway (x.cell k * s)| ≤ 127) :
    forRange K (q, (0 : Int32)) (quantizeStep x s) =
      some (q.write 0 K (quantizedCell x s), int32Sum (fun k => (quantizedCell x s k).toInt32) K) := by
  have key := forRange_eq_some (quantizeStep x s) (n := K)
    (fun n => (q.write 0 n (quantizedCell x s), int32Sum (fun k => (quantizedCell x s k).toInt32) n)) ?_
  · rw [Buffer.write_zero] at key
    exact key
  · intro k hk
    rw [quantizeStep_eq (by omega) (by rw [Buffer.size_write]; omega) (h k hk)]
    have hwrite := Buffer.write_succ q 0 k (quantizedCell x s)
    rw [Nat.zero_add] at hwrite
    rw [← hwrite]
    rfl

/-- A row is quantised at the scale of its largest magnitude. -/
theorem quantized_of_le {a : ℚ} (hpos : 0 < a) (hle : ∀ k < K, |x.cell k| ≤ a)
    (hmax : ∀ k < K, (∀ i < K, |x.cell i| ≤ |x.cell k|) → 1 / 100000 ≤ |x.cell k| → |x.cell k| = a) :
    Quantized x K (q.write 0 K (quantizedCell x (127 / a))) (127 / a) := by
  have hspos : 0 < 127 / a := by positivity
  have hround : ∀ k < K, |roundAway (x.cell k * (127 / a))| ≤ 127 := by
    intro k hk
    apply abs_roundAway_le
    rw [abs_mul, abs_of_pos hspos]
    calc |x.cell k| * (127 / a) ≤ a * (127 / a) := mul_le_mul_of_nonneg_right (hle k hk) hspos.le
      _ = (127 : Int) := by
        push_cast
        field_simp
  have hcell : ∀ k < K, ((q.write 0 K (quantizedCell x (127 / a))).cell k).toInt = roundAway (x.cell k * (127 / a)) := by
    intro k hk
    rw [Buffer.cell_write, if_pos (by omega), Nat.sub_zero, quantizedCell, toInt_toInt8_intCast (hround k hk)]
  refine ⟨hspos, hcell, hround, fun k hk => ?_, fun k hk hlargest hbig => ?_⟩
  · -- half a step of the scaled row is half a step over the scale
    have herr := abs_roundAway_sub_le (x.cell k * (127 / a))
    have heq : x.cell k - (roundAway (x.cell k * (127 / a)) : ℚ) / (127 / a) =
        -((roundAway (x.cell k * (127 / a)) : ℚ) - x.cell k * (127 / a)) / (127 / a) := by
      field_simp
      ring
    rw [hcell k hk, heq, abs_div, abs_neg, abs_of_pos hspos, ← div_div]
    exact div_le_div_of_nonneg_right herr hspos.le
  · rw [hcell k hk]
    have habs : |x.cell k| = a := hmax k hk hlargest hbig
    rcases abs_cases (x.cell k) with ⟨heq, -⟩ | ⟨heq, -⟩
    · have hscaled : x.cell k * (127 / a) = (127 : Int) := by
        rw [← heq, habs]
        push_cast
        field_simp
      rw [hscaled, roundAway_intCast]
      exact Or.inl rfl
    · have hscaled : x.cell k * (127 / a) = (-127 : Int) := by
        rw [show x.cell k = -a by linarith]
        push_cast
        field_simp
      rw [hscaled, roundAway_intCast]
      exact Or.inr rfl

/-- The quantiser is defined, and its row is quantised; the sum is that of the row, in int32. -/
theorem i2sQuantizeActivations_eq (hx : K ≤ x.size) (hq : K ≤ q.size) :
    ∃ q' s sum, i2sQuantizeActivations x K q = some (q', s, sum) ∧ Quantized x K q' s ∧
      sum.toInt = (∑ k ∈ range K, (q'.cell k).toInt).bmod (2 ^ 32) := by
  obtain ⟨amax, hamax, hle, hmax⟩ := absMax_eq hx
  -- the maximum with its floor
  obtain ⟨a, ha⟩ : ∃ a : ℚ, a = if QuantArith.lt amax QuantArith.floor then QuantArith.floor else amax := ⟨_, rfl⟩
  have hfloor : (1 / 100000 : ℚ) ≤ a ∧ amax ≤ a ∧ (1 / 100000 ≤ amax → a = amax) := by
    rw [ha]
    simp only [QuantArith.lt, QuantArith.floor, decide_eq_true_eq]
    split
    · next hlt => exact ⟨le_refl _, hlt.le, fun hge => absurd hge (not_le.mpr hlt)⟩
    · next hge => exact ⟨not_lt.mp hge, le_refl _, fun _ => rfl⟩
  have hquant : Quantized x K (q.write 0 K (quantizedCell x (127 / a))) (127 / a) := by
    refine quantized_of_le (lt_of_lt_of_le (by norm_num) hfloor.1) (fun k hk => (hle k hk).trans hfloor.2.1) ?_
    intro k hk hlargest hbig
    have hge : |x.cell k| ≤ amax := hle k hk
    rw [hfloor.2.2 (hbig.trans hge)]
    rcases hmax with h0 | ⟨i, hi, heq⟩
    · exact absurd (hbig.trans hge) (by rw [h0]; norm_num)
    · exact le_antisymm hge (heq ▸ hlargest i hi)
  have hs : QuantArith.ofInt 127 / a = 127 / a := rfl
  refine ⟨_, 127 / a, int32Sum (fun k => (quantizedCell x (127 / a) k).toInt32) K, ?_, hquant, ?_⟩
  · unfold i2sQuantizeActivations
    simp only [hamax, Option.bind_eq_bind, Option.bind_some, ← ha, hs, quantizeLoop_eq hx hq hquant.unclamped]
    rfl
  · rw [toInt_int32Sum _ fun k => (quantizedCell x (127 / a) k).toInt]
    · refine congrArg (fun z : Int => z.bmod (2 ^ 32)) (sum_congr rfl fun k hk => ?_)
      rw [Buffer.cell_write, if_pos ⟨Nat.zero_le k, by simpa using hk⟩, Nat.sub_zero]
    · intro k _
      have := abs_int8_le (quantizedCell x (127 / a) k)
      rw [Int8.toInt_toInt32, bmod_eq_of_abs_lt (by omega)]

/-- The sum of a quantised row is within 127 times its length. -/
theorem Quantized.abs_sum_le (h : Quantized x K q s) : |∑ k ∈ range K, (q.cell k).toInt| ≤ 127 * K := by
  have hsum := abs_sum_range_le (n := K) (f := fun k => (q.cell k).toInt) (B := 127) fun k hk => by
    rw [h.rounded k hk]
    exact h.unclamped k hk
  omega

/-- An entry of the product with a quantised row, times `ws / s`, is off by at most half a step for each of its terms. -/
theorem Quantized.product_error (h : Quantized x K q s) {w : Nat → Int} (hw : ∀ k < K, |w k| ≤ 1) (ws : ℚ) :
    |((∑ k ∈ range K, w k * (q.cell k).toInt : Int) : ℚ) * (ws / s) - ws * ∑ k ∈ range K, w k * x.cell k| ≤
      |ws| * K / (2 * s) := by
  have hpos := h.pos
  have hdot := abs_dot_sub_le (w := fun k => (w k : ℚ)) (a := fun k => ((q.cell k).toInt : ℚ) / s) (b := x.cell)
    (fun k hk => by exact_mod_cast hw k hk) fun k hk => by
      rw [abs_sub_comm]
      exact h.error k hk
  have hscale : ∑ k ∈ range K, (w k : ℚ) * (((q.cell k).toInt : ℚ) / s) =
      ((∑ k ∈ range K, w k * (q.cell k).toInt : Int) : ℚ) / s := by
    push_cast
    rw [sum_div]
    exact sum_congr rfl fun k _ => (mul_div_assoc ..).symm
  rw [hscale] at hdot
  calc _ = |ws * (((∑ k ∈ range K, w k * (q.cell k).toInt : Int) : ℚ) / s - ∑ k ∈ range K, (w k : ℚ) * x.cell k)| := by
        congr 1
        ring
    _ ≤ |ws| * (K * (1 / (2 * s))) := by
        rw [abs_mul]
        exact mul_le_mul_of_nonneg_left hdot (abs_nonneg ws)
    _ = |ws| * K / (2 * s) := by ring

end Row

/-! ## Through the runtime -/

/-- Signed ternary weights. -/
def Ternary (w : Nat → Int) (K : Nat) : Prop := ∀ k < K, w k = -1 ∨ w k = 0 ∨ w k = 1

theorem Ternary.abs_le_one {w : Nat → Int} {K : Nat} (h : Ternary w K) : ∀ k < K, |w k| ≤ 1 := by
  intro k hk
  rcases h k hk with heq | heq | heq <;> rw [heq] <;> decide

/-- Row `t` of a call's activations is a quantised row. -/
def Call.RowIs (c : Call) (t : Nat) (q : Buffer Int8) : Prop := ∀ k < c.K, c.aQ.cell (t * c.aRowStride + k) = q.cell k

/-- An entry of the product of a call whose row is a quantised one. -/
theorem Call.gemm_of_row {c : Call} {t : Nat} {q : Buffer Int8} (h : c.RowIs t q) (n : Nat) :
    c.gemm t n = ∑ k ∈ range c.K, c.weight n k * (q.cell k).toInt := by
  rw [Call.gemm]
  refine sum_congr rfl ?_
  intro k hk
  rw [Call.act, h k (mem_range.mp hk)]

/-- A row of a job, over the rationals: each entry is the product times `ws` over the row's scale. -/
theorem Job.HasRow.load {j : Job ℚ} {t : Nat} {q : Buffer Int8} {gAcc : Buffer Int32} {dst : Buffer ℚ}
    (h : j.HasRow t dst) (hexact : j.call.Exact gAcc) (ht : t < j.call.T) (hrow : j.call.RowIs t q) {n : Nat}
    (hn : n < j.call.N) :
    dst.load (t * j.args.dstRowStride / 4 + n) =
      some (((∑ k ∈ range j.call.K, j.call.weight n k * (q.cell k).toInt : Int) : ℚ) *
        (j.args.ws / j.args.actScales.cell t)) := by
  obtain ⟨x, -, hx⟩ := hexact t ht n hn
  have hval : (EpilogueArith.ofInt32 (Int32.ofInt (j.call.gemm t n)) : ℚ) = (j.call.gemm t n : ℚ) := by
    rw [← hx, Int32.ofInt_toInt]
    rfl
  rw [h n hn, hval, Call.gemm_of_row hrow]

/-- Quantising a row over the rationals: the scale is positive and takes the row into [-127, 127], where it is rounded without
a clamp, each activation is off by at most half a step, and the largest ones get all of [-127, 127]. The sum is that of the
quantised row in int32, hence exact below 2^31. What accumulate and epilogue compute from a quantised row, the product times
`ws / s`, is off from the product with the row itself by at most half a step for each term. -/
theorem quantized_product_error (K : Nat) (x : Buffer ℚ) (q : Buffer Int8) (hx : K ≤ x.size) (hq : K ≤ q.size) :
    ∃ q' s sum, i2sQuantizeActivations x K q = some (q', s, sum) ∧ Quantized x K q' s ∧
      sum.toInt = (∑ k ∈ range K, (q'.cell k).toInt).bmod (2 ^ 32) ∧
      (127 * K < 2 ^ 31 → sum.toInt = ∑ k ∈ range K, (q'.cell k).toInt) ∧
      (∀ (w : Nat → Int) (ws : ℚ), Ternary w K →
        |((∑ k ∈ range K, w k * (q'.cell k).toInt : Int) : ℚ) * (ws / s) - ws * ∑ k ∈ range K, w k * x.cell k| ≤
          |ws| * K / (2 * s)) ∧
      ∀ (j : Job ℚ) (gAcc : Buffer Int32) (dst : Buffer ℚ) (rb re : Nat), Accumulated j.call gAcc → j.Fits dst →
        j.call.K = K → re ≤ j.call.T →
        ∃ dst', bitnetXdnaEpilogue gAcc j.call.N rb re j.args dst = some dst' ∧
          ∀ t, rb ≤ t → t < re → j.call.RowIs t q' → j.args.actScales.cell t = s →
            ∀ n < j.call.N, Ternary (j.call.weight n) K →
              ∃ v, dst'.load (t * j.args.dstRowStride / 4 + n) = some v ∧
                |v - j.args.ws * ∑ k ∈ range K, j.call.weight n k * x.cell k| ≤ |j.args.ws| * K / (2 * s) := by
  obtain ⟨q', s, sum, hrun, hquant, hsum⟩ := i2sQuantizeActivations_eq hx hq
  refine ⟨q', s, sum, hrun, hquant, hsum, fun hK => ?_, fun w ws hw => hquant.product_error hw.abs_le_one ws, ?_⟩
  · have hle := hquant.abs_sum_le
    rw [hsum, bmod_eq_of_abs_lt (by omega)]
  · rintro j gAcc dst rb re hacc hfits rfl hre
    have hexact := hacc.exact
    obtain ⟨dst', hepi, hrows⟩ := bitnetXdnaEpilogue_rows rb hfits hexact.size_le hre
    refine ⟨dst', hepi, fun t hlow hhigh hrow hscale n hn hw => ?_⟩
    refine ⟨_, (hrows hexact t hlow hhigh).load hexact (by omega) hrow hn, ?_⟩
    rw [hscale]
    exact hquant.product_error hw.abs_le_one j.args.ws

/-- A row of equal activations, as long as the rows of the smaller tensors. -/
theorem quantized_product_error_flat :
    ∃ q' s sum, i2sQuantizeActivations (.replicate 2560 (3 : ℚ)) 2560 (.replicate 2560 0) = some (q', s, sum) ∧
      Quantized (.replicate 2560 3) 2560 q' s ∧
      sum.toInt = (∑ k ∈ range 2560, (q'.cell k).toInt).bmod (2 ^ 32) ∧
      (127 * 2560 < 2 ^ 31 → sum.toInt = ∑ k ∈ range 2560, (q'.cell k).toInt) ∧
      (∀ (w : Nat → Int) (ws : ℚ), Ternary w 2560 →
        |((∑ k ∈ range 2560, w k * (q'.cell k).toInt : Int) : ℚ) * (ws / s) -
          ws * ∑ k ∈ range 2560, w k * (Buffer.replicate 2560 (3 : ℚ)).cell k| ≤ |ws| * (2560 : Nat) / (2 * s)) ∧
      ∀ (j : Job ℚ) (gAcc : Buffer Int32) (dst : Buffer ℚ) (rb re : Nat), Accumulated j.call gAcc → j.Fits dst →
        j.call.K = 2560 → re ≤ j.call.T →
        ∃ dst', bitnetXdnaEpilogue gAcc j.call.N rb re j.args dst = some dst' ∧
          ∀ t, rb ≤ t → t < re → j.call.RowIs t q' → j.args.actScales.cell t = s →
            ∀ n < j.call.N, Ternary (j.call.weight n) 2560 →
              ∃ v, dst'.load (t * j.args.dstRowStride / 4 + n) = some v ∧
                |v - j.args.ws * ∑ k ∈ range 2560, j.call.weight n k * (Buffer.replicate 2560 (3 : ℚ)).cell k| ≤
                  |j.args.ws| * (2560 : Nat) / (2 * s) :=
  quantized_product_error 2560 (.replicate 2560 3) (.replicate 2560 0) (Nat.le_refl 2560) (Nat.le_refl 2560)

/-- A row of 16909321 equal activations: all of them get 127, and the int32 sum wraps. -/
theorem quantized_sum_wraps :
    ∃ q' s sum, i2sQuantizeActivations (.replicate 16909321 (1 : ℚ)) 16909321 (.replicate 16909321 0) =
        some (q', s, sum) ∧
      sum.toInt = -2147483529 ∧ ∑ k ∈ range 16909321, (q'.cell k).toInt = 2147483767 := by
  obtain ⟨q', s, sum, hrun, hquant, hsum⟩ :=
    i2sQuantizeActivations_eq (K := 16909321) (x := .replicate 16909321 (1 : ℚ)) (q := .replicate 16909321 0)
      (Nat.le_refl _) (Nat.le_refl _)
  have hcell : ∀ k ∈ range 16909321, (q'.cell k).toInt = 127 := by
    intro k hk
    have hk := mem_range.mp hk
    rcases hquant.largest k hk (fun _ _ => le_refl _) (by norm_num) with h | h
    · exact h
    · -- a negative byte is more than half a step away from a positive activation
      have herr := hquant.error k hk
      have hpos := hquant.pos
      rw [h, Buffer.cell_replicate] at herr
      have hle := (abs_le.mp herr).2
      have hstep : (1 : ℚ) / (2 * s) ≤ 127 / s := by
        rw [div_le_div_iff₀ (by positivity) hpos]
        linarith
      push_cast at hle
      rw [neg_div] at hle
      linarith
  have htotal : ∑ k ∈ range 16909321, (q'.cell k).toInt = 2147483767 := by
    rw [sum_congr rfl hcell, sum_const, card_range]
    norm_num
  refine ⟨q', s, sum, hrun, ?_, htotal⟩
  rw [hsum, htotal]
  decide

end BitnetXdna
