import BitnetXdna.Shim.Maps

/-!
# The product of a call, and one chunk of it

`Call.gemm` is the product a call stands for, over the integers. A dispatch computes one K chunk of it in int32
(`toInt_dispatchResult`): the slab is zero past the tensor, so whatever the activation buffer holds there does not count.
The copy loops around a dispatch are writes of rows.
-/

namespace BitnetXdna

open Finset

/-- Weight (n, k) of the tensor of a call: its code less one. -/
def Call.weight (c : Call) (n k : Nat) : Int := i2sWeight c.packed (n * (c.K / 4)) k

/-- Activation (t, k) of a call. -/
def Call.act (c : Call) (t k : Nat) : Int := (c.aQ.cell (t * c.aRowStride + k)).toInt

/-- The first `m` terms of entry (t, n) of the product. -/
def Call.gemmTo (c : Call) (m t n : Nat) : Int := ∑ k ∈ range (min c.K m), c.weight n k * c.act t k

/-- Entry (t, n) of the product. -/
def Call.gemm (c : Call) (t n : Nat) : Int := ∑ k ∈ range c.K, c.weight n k * c.act t k

/-- The accumulator holds the product of a call, exactly and row after row. -/
def Call.Exact (c : Call) (acc : Buffer Int32) : Prop :=
  ∀ t < c.T, ∀ n < c.N, ∃ x, acc.load (t * c.N + n) = some x ∧ x.toInt = c.gemm t n

variable {c : Call}

/-- An accumulator that holds a product is large enough for it. -/
theorem Call.Exact.size_le {acc : Buffer Int32} (h : c.Exact acc) : c.T * c.N ≤ acc.size := by
  rcases Nat.eq_zero_or_pos c.T with hT | hT
  · simp [hT]
  rcases Nat.eq_zero_or_pos c.N with hN | hN
  · simp [hN]
  obtain ⟨x, hload, -⟩ := h (c.T - 1) (by omega) (c.N - 1) (by omega)
  have hlast : (c.T - 1) * c.N + (c.N - 1) < acc.size := by
    by_contra hbad
    simp [Buffer.load, hbad] at hload
  have hmul : c.T * c.N = (c.T - 1) * c.N + c.N := by rw [← Nat.succ_mul, Nat.succ_eq_add_one, Nat.sub_add_cancel hT]
  omega

@[simp] theorem Call.gemmTo_zero (t n : Nat) : c.gemmTo 0 t n = 0 := by simp [Call.gemmTo]

theorem Call.gemmTo_of_le {m : Nat} (h : c.K ≤ m) (t n : Nat) : c.gemmTo m t n = c.gemm t n := by
  rw [Call.gemmTo, Call.gemm, Nat.min_eq_left h]

/-- One term of the product. -/
theorem Call.abs_term_le (t n k : Nat) : |c.weight n k * c.act t k| ≤ 256 := by
  have hw := i2sWeight_bounds c.packed (n * (c.K / 4)) k
  have hw' : |c.weight n k| ≤ 2 := abs_le.mpr ⟨by rw [Call.weight]; omega, hw.2⟩
  have ha' : |c.act t k| ≤ 128 := abs_int8_le _
  calc |c.weight n k * c.act t k| = |c.weight n k| * |c.act t k| := abs_mul ..
    _ ≤ 2 * 128 := mul_le_mul hw' ha' (abs_nonneg _) (by decide)
    _ = 256 := by norm_num

/-- A partial product of a tensor that is served fits in int32. -/
theorem Call.abs_gemmTo_lt (hK : c.K ≤ 6912) (m t n : Nat) : |c.gemmTo m t n| < 2 ^ 31 := by
  have h := abs_sum_range_le (n := min c.K m) (f := fun k => c.weight n k * c.act t k) (B := 256)
    fun k _ => Call.abs_term_le t n k
  have hm : ((min c.K m : Nat) : Int) ≤ 6912 := by omega
  rw [Call.gemmTo]
  omega

/-! ## One dispatch -/

/-- The terms of entry (t, n) in K chunk `kc`. -/
def Call.chunkSum (c : Call) (kc t n : Nat) : Int :=
  ∑ i ∈ range kKChunk, if kc * kKChunk + i < c.K then c.weight n (kc * kKChunk + i) * c.act t (kc * kKChunk + i) else 0

/-- The chunks add up. -/
theorem Call.gemmTo_succ (kc t n : Nat) :
    c.gemmTo ((kc + 1) * kKChunk) t n = c.gemmTo (kc * kKChunk) t n + c.chunkSum kc t n :=
  sum_chunk_succ (fun k => c.weight n k * c.act t k) c.K kKChunk kc

/-- One chunk fits in int32. -/
theorem Call.abs_chunkSum_lt (kc t n : Nat) : |c.chunkSum kc t n| < 2 ^ 31 := by
  have h := abs_sum_range_le (n := kKChunk) (B := 256)
    (f := fun i => if kc * kKChunk + i < c.K then c.weight n (kc * kKChunk + i) * c.act t (kc * kKChunk + i) else 0)
    fun i _ => by
      split
      · exact Call.abs_term_le ..
      · simp
  rw [Call.chunkSum]
  simp only [kKChunk] at h ⊢
  omega

/-- The device's activations are those of `rows` tokens from `t0` on, in K chunk `kc`. -/
def StagedOn (c : Call) (t0 rows kc : Nat) (aDev : Buffer Int8) : Prop :=
  ∀ r < rows, ∀ i < min kKChunk (c.K - kc * kKChunk),
    aDev.cell (r * kKChunk + i) = c.aQ.cell ((t0 + r) * c.aRowStride + kc * kKChunk + i)

/-- What a dispatch of slab (nc, kc) computes from the staged activations: chunk `kc` of the entries of its columns. -/
theorem toInt_dispatchResult {aDev : Buffer Int8} {t0 rows kc nc r j : Nat} (hA : StagedOn c t0 rows kc aDev)
    (hr : r < rows) (hj : j < min kNChunk (c.N - nc * kNChunk)) :
    (dispatchResult aDev (slabBuffer c.packed c.K c.N nc kc) (r * kNChunk + j)).toInt =
      c.chunkSum kc (t0 + r) (nc * kNChunk + j) := by
  have hjn : j < kNChunk := by omega
  have hdiv : (r * kNChunk + j) / kNChunk = r := row_add_div hjn
  have hmod : (r * kNChunk + j) % kNChunk = j := row_add_mod hjn
  have hterm : ∀ i < kKChunk,
      (aDev.cell (r * kKChunk + i)).toInt * ((slabBuffer c.packed c.K c.N nc kc).cell (j * kKChunk + i)).toInt =
        if kc * kKChunk + i < c.K then
          c.weight (nc * kNChunk + j) (kc * kKChunk + i) * c.act (t0 + r) (kc * kKChunk + i)
        else 0 := by
    intro i hi
    have hpos : j * kKChunk + i < kNChunk * kKChunk := row_add_lt hjn hi
    rw [Nat.mul_comm kNChunk] at hpos
    rw [cell_slabBuffer hpos, slabCell, row_add_div hi, row_add_mod hi]
    by_cases hk : kc * kKChunk + i < c.K
    · rw [if_pos ⟨by omega, hk⟩, if_pos hk, toInt_code_sub_one, hA r hr i (by omega), Call.weight, Call.act,
        Nat.add_assoc, Int.mul_comm]
    · rw [if_neg fun h => hk h.2, if_neg hk]
      exact Int.mul_zero _
  have hsum : ∑ i ∈ range kKChunk,
      (aDev.cell (r * kKChunk + i)).toInt * ((slabBuffer c.packed c.K c.N nc kc).cell (j * kKChunk + i)).toInt =
        c.chunkSum kc (t0 + r) (nc * kNChunk + j) :=
    sum_congr rfl fun i hi => hterm i (mem_range.mp hi)
  rw [dispatchResult, hdiv, hmod, toInt_int32Dot (by rw [hsum]; exact Call.abs_chunkSum_lt ..), hsum]

/-! ## The copy loops -/

/-- The staged buffer holds the activations of its rows, whatever it held before. -/
theorem stageActivations_eq {boA : Buffer Int8} {t0 rows kc : Nat} (hsize : boA.size = kMTile * kKChunk)
    (hrows : rows ≤ kMTile) (hk : kc * kKChunk ≤ c.K)
    (haQ : ∀ r < rows, (t0 + r) * c.aRowStride + c.K ≤ c.aQ.size) :
    ∃ boA', stageActivations c t0 rows (kc * kKChunk) (min kKChunk (c.K - kc * kKChunk)) boA = some boA' ∧
      boA'.size = kMTile * kKChunk ∧ StagedOn c t0 rows kc boA' := by
  have hcopy : ∀ b : Buffer Int8, b.size = kMTile * kKChunk →
      forRange rows b (fun r b => b.copy (r * kKChunk) c.aQ ((t0 + r) * c.aRowStride + kc * kKChunk)
        (min kKChunk (c.K - kc * kKChunk))) =
      some (b.writeRows 0 kKChunk rows (min kKChunk (c.K - kc * kKChunk))
        fun r i => c.aQ.cell ((t0 + r) * c.aRowStride + kc * kKChunk + i)) := by
    intro b hb
    refine Buffer.forRange_writeRow _ ?_
    intro r hr b' hb'
    have hend := row_add_le (m := kMTile) (s := kKChunk) (r := r)
      (n := min kKChunk (c.K - kc * kKChunk)) (by omega) (Nat.min_le_left ..)
    have := haQ r hr
    rw [Nat.zero_add, Buffer.copy_eq (by omega) (by omega)]
  have hstaged : ∀ b : Buffer Int8, StagedOn c t0 rows kc
      (b.writeRows 0 kKChunk rows (min kKChunk (c.K - kc * kKChunk))
        fun r i => c.aQ.cell ((t0 + r) * c.aRowStride + kc * kKChunk + i)) := by
    intro b r hr i hi
    have := Buffer.cell_writeRows b 0 (s := kKChunk)
      (v := fun r i => c.aQ.cell ((t0 + r) * c.aRowStride + kc * kKChunk + i)) (Nat.min_le_left ..) hr hi
    rwa [Nat.zero_add] at this
  by_cases hfill : rows < kMTile ∨ min kKChunk (c.K - kc * kKChunk) < kKChunk
  · refine ⟨_, ?_, ?_, hstaged (boA.write 0 (kMTile * kKChunk) fun _ => 0)⟩
    · simp only [stageActivations, if_pos hfill, Buffer.fill_eq (0 : Int8) (show 0 + kMTile * kKChunk ≤ boA.size by omega),
        Option.bind_eq_bind, Option.bind_some]
      exact hcopy _ hsize
    · rw [Buffer.size_writeRows]
      exact hsize
  · refine ⟨_, ?_, ?_, hstaged boA⟩
    · simp only [stageActivations, if_neg hfill, Option.bind_eq_bind, Option.bind_some]
      exact hcopy _ hsize
    · rw [Buffer.size_writeRows]
      exact hsize

/-- The result of a dispatch lands in its block of the accumulator. -/
theorem copyOut_eq {boC gAcc : Buffer Int32} {T N t0 rows nOff nKeep : Nat} (hC : boC.size = kMTile * kNChunk)
    (hacc : T * N ≤ gAcc.size) (hrows : rows ≤ kMTile) (ht : t0 + rows ≤ T) (hkeep : nKeep ≤ kNChunk)
    (hN : nOff + nKeep ≤ N) :
    copyOut N t0 rows nOff nKeep boC gAcc =
      some (gAcc.writeRows (t0 * N + nOff) N rows nKeep fun r j => boC.cell (r * kNChunk + j)) := by
  refine Buffer.forRange_writeRow _ ?_
  intro r hr b hb
  have hend := row_add_le (m := T) (s := N) (r := t0 + r) (by omega) hN
  have hsrc := row_add_le (m := kMTile) (s := kNChunk) (r := r) (by omega) hkeep
  rw [Buffer.copy_eq (by omega) (by omega)]
  congr 2
  ring

/-- The result of a dispatch is added to its block of the partial sums. -/
theorem addPartial_eq {boC part : Buffer Int32} {N rows nOff nKeep : Nat} (hC : boC.size = kMTile * kNChunk)
    (hpart : part.size = kMTile * N) (hrows : rows ≤ kMTile) (hkeep : nKeep ≤ kNChunk) (hN : nOff + nKeep ≤ N) :
    addPartial N rows nOff nKeep boC part =
      some (part.writeRows nOff N rows nKeep
        fun r j => part.cell (nOff + r * N + j) + boC.cell (r * kNChunk + j)) := by
  refine Buffer.forRange_updateRow (fun r j x => x + boC.cell (r * kNChunk + j)) (by omega) ?_
  intro r hr b hb
  rw [Nat.add_comm nOff]
  refine Buffer.forRange_update (fun j x => x + boC.cell (r * kNChunk + j)) ?_
  intro j hj b' hb'
  have hpos := row_add_lt (m := kMTile) (s := N) (r := r) (j := nOff + j) (by omega) (by omega)
  have hsrc := row_add_lt (m := kMTile) (s := kNChunk) (r := r) (j := j) (by omega) (by omega)
  rw [Buffer.load_eq (show r * N + nOff + j < b'.size by omega), Buffer.load_eq (by omega)]
  exact Buffer.store_eq _ (by omega)

/-- The partial sums of a tile land in its rows of the accumulator. -/
theorem copyPartial_eq {part gAcc : Buffer Int32} {T N t0 rows : Nat} (hpart : part.size = kMTile * N)
    (hacc : T * N ≤ gAcc.size) (hrows : rows ≤ kMTile) (ht : t0 + rows ≤ T) :
    copyPartial N t0 rows part gAcc =
      some (gAcc.writeRows (t0 * N) N rows N fun r j => part.cell (r * N + j)) := by
  refine Buffer.forRange_writeRow _ ?_
  intro r hr b hb
  have hend := row_add_le (m := T) (s := N) (r := t0 + r) (by omega) (Nat.le_refl N)
  have hsrc := row_add_le (m := kMTile) (s := N) (r := r) (by omega) (Nat.le_refl N)
  rw [Buffer.copy_eq (by omega) (by omega), Nat.add_mul]

end BitnetXdna
