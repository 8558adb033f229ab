import BitnetXdna.Ggml.Share
import BitnetXdna.I2s.Golden

/-!
# The three epilogues agree

The golden epilogue converts `acc_u - act_sum`, subtracted in int32; the CPU share converts both and subtracts in float; the
NPU epilogue converts a sum over signed weights. The three numbers are the same integer, every intermediate one has at most 24
bits, and on such integers conversion and subtraction are exact, so the three floats are the same.
-/

namespace BitnetXdna

open Finset

section Sums

variable (code : Nat → Nat → UInt8) (a : Nat → Nat → Int8) (K : Nat)

/-- The sum over unsigned codes. -/
def biasedSum (t n : Nat) : Int := ∑ k ∈ range K, ((code n k).toNat : Int) * (a t k).toInt

/-- The sum over signed weights. -/
def signedSum (t n : Nat) : Int := ∑ k ∈ range K, ((code n k).toNat - 1 : Int) * (a t k).toInt

/-- The sum of the activations. -/
def actSum (t : Nat) : Int := ∑ k ∈ range K, (a t k).toInt

/-- The offset identity. -/
theorem biasedSum_sub_actSum (t n : Nat) : biasedSum code a K t n - actSum a K t = signedSum code a K t n := by
  rw [biasedSum, actSum, signedSum, ← sum_sub_distrib]
  exact sum_congr rfl fun k _ => by ring

/-- Only the codes and the activations summed matter. -/
theorem biasedSum_congr {code' : Nat → Nat → UInt8} {a' : Nat → Nat → Int8} {t n : Nat} (hc : ∀ k < K, code n k = code' n k)
    (ha : ∀ k < K, a t k = a' t k) : biasedSum code a K t n = biasedSum code' a' K t n :=
  sum_congr rfl fun k hk => by rw [hc k (mem_range.mp hk), ha k (mem_range.mp hk)]

variable {code K}

/-- The magnitudes of the three sums, for codes of two bits. -/
theorem abs_sums_le {n : Nat} (hcode : ∀ k < K, (code n k).toNat < 4) (hK : 3 * 128 * K ≤ 2 ^ 24) (t : Nat) :
    |biasedSum code a K t n| ≤ 2 ^ 24 ∧ |actSum a K t| ≤ 2 ^ 24 ∧ |signedSum code a K t n| ≤ 2 ^ 24 := by
  have hbound : ∀ {f : Nat → Int} {B : Int}, (∀ k < K, |f k| ≤ B) → B ≤ 384 → |∑ k ∈ range K, f k| ≤ 2 ^ 24 := by
    intro f B hf hB
    have h := abs_sum_range_le hf
    have hKB : (K : Int) * B ≤ K * 384 := mul_le_mul_of_nonneg_left hB (by omega)
    omega
  refine ⟨hbound (B := 384) (fun k hk => ?_) (le_refl _), hbound (B := 128) (fun k _ => abs_int8_le (a t k)) (by decide),
    hbound (B := 384) (fun k hk => ?_) (le_refl _)⟩
  · have hc : |((code n k).toNat : Int)| ≤ 3 := abs_le.mpr ⟨by omega, by have := hcode k hk; omega⟩
    rw [abs_mul]
    exact mul_le_mul hc (abs_int8_le _) (abs_nonneg _) (by decide)
  · have hc : |((code n k).toNat - 1 : Int)| ≤ 3 := abs_le.mpr ⟨by omega, by have := hcode k hk; omega⟩
    rw [abs_mul]
    exact mul_le_mul hc (abs_int8_le _) (abs_nonneg _) (by decide)

variable {a}

/-- The golden accumulator of a row does not wrap. -/
theorem toInt_refSum {wCodes : Buffer UInt8} {aQ : Buffer Int8} {t n : Nat} (hcode : ∀ k < K, (code n k).toNat < 4)
    (hK : 3 * 128 * K ≤ 2 ^ 24) (hw : ∀ k < K, wCodes.entry K n k = code n k) (ha : ∀ k < K, aQ.entry K t k = a t k) :
    (refSum wCodes aQ K (n * K) (t * K)).toInt = biasedSum code a K t n := by
  have hsum : refSum wCodes aQ K (n * K) (t * K) = int32Sum (fun k => (code n k).toUInt32.toInt32 * (a t k).toInt32) K :=
    int32Sum_congr fun k hk => by rw [← hw k hk, ← ha k hk, Buffer.entry, Buffer.entry]
  have habs := (abs_sums_le a hcode hK t).1
  rw [hsum, toInt_int32Sum _ (fun k => ((code n k).toNat : Int) * (a t k).toInt) (fun k hk => ?_), bmod_eq_of_abs_lt]
  · rfl
  · exact lt_of_le_of_lt habs (by decide)
  · have hc : ((code n k).toUInt32.toInt32).toInt = ((code n k).toNat : Int) := toInt_code (hcode k hk)
    rw [Int32.toInt_mul, hc, Int8.toInt_toInt32]

/-- The sum of the activations does not wrap. -/
theorem toInt_actSum {t : Nat} (hK : 3 * 128 * K ≤ 2 ^ 24) :
    (int32Sum (fun k => (a t k).toInt32) K).toInt = actSum a K t := by
  have habs := (@abs_sums_le (fun _ _ => 0) a K 0 (fun _ _ => by decide) hK t).2.1
  rw [toInt_int32Sum _ (fun k => (a t k).toInt) (fun k _ => ?_)]
  · exact bmod_eq_of_abs_lt (lt_of_le_of_lt habs (by decide))
  · rw [Int8.toInt_toInt32, bmod_eq_of_abs_lt]
    exact lt_of_le_of_lt (abs_int8_le (a t k)) (by decide)

/-- The sum over signed weights does not wrap. -/
theorem toInt_signedDot {t n : Nat} (hcode : ∀ k < K, (code n k).toNat < 4) (hK : 3 * 128 * K ≤ 2 ^ 24) :
    (int32Dot (a t) (fun k => (code n k).toInt8 - 1) K).toInt = signedSum code a K t n := by
  have habs := (abs_sums_le a hcode hK t).2.2
  have hsum : ∑ k ∈ range K, (a t k).toInt * ((code n k).toInt8 - 1).toInt = signedSum code a K t n :=
    sum_congr rfl fun k hk => by rw [toInt_signedCode (hcode k (mem_range.mp hk)), Int.mul_comm]
  rw [toInt_int32Dot, hsum]
  rw [hsum]
  exact lt_of_le_of_lt habs (by decide)

/-- The golden subtraction in int32 does not wrap. -/
theorem toInt_biased_sub {acc asum : Int32} {t n : Nat} (hcode : ∀ k < K, (code n k).toNat < 4) (hK : 3 * 128 * K ≤ 2 ^ 24)
    (hacc : acc.toInt = biasedSum code a K t n) (hasum : asum.toInt = actSum a K t) :
    (acc - asum).toInt = signedSum code a K t n := by
  have habs := (abs_sums_le a hcode hK t).2.2
  rw [Int32.toInt_sub, hacc, hasum, biasedSum_sub_actSum, bmod_eq_of_abs_lt (lt_of_le_of_lt habs (by decide))]

/-- The subtraction of the CPU share in float is exact. -/
theorem ofInt_biased_sub {asum : Int32} {t n : Nat} (hcode : ∀ k < K, (code n k).toNat < 4) (hK : 3 * 128 * K ≤ 2 ^ 24)
    (hasum : asum.toInt = actSum a K t) :
    Binary32.ofInt (biasedSum code a K t n) - EpilogueArith.ofInt32 asum = Binary32.ofInt (signedSum code a K t n) := by
  obtain ⟨hb, ha, hs⟩ := abs_sums_le a hcode hK t
  have hsub := biasedSum_sub_actSum code a K t n
  have hexact := Binary32.ofInt_sub hb ha (hsub ▸ hs)
  have hval : EpilogueArith.ofInt32 asum = Binary32.ofInt (actSum a K t) := congrArg Binary32.ofInt hasum
  rw [hval, hexact, hsub]

end Sums

/-! ## The memory of a node -/

/-- The code of weight (n, k). -/
def MulMat.code {F : Type} (nd : MulMat F) (n k : Nat) : UInt8 := i2sCode nd.packed (n * (nd.ne00 / 4)) k

/-- Activation (t, k). -/
def MulMat.act {F : Type} (nd : MulMat F) (t k : Nat) : Int8 := nd.src1.cell (t * nd.src1ColStride + k)

theorem MulMat.code_lt {F : Type} (nd : MulMat F) (n k : Nat) : (nd.code n k).toNat < 4 := i2sCode_lt ..

/-- The tensors of a node are a matrix of codes and a matrix of activations. -/
structure MulMat.Holds {F : Type} (nd : MulMat F) (wCodes : Buffer UInt8) (aQ : Buffer Int8) : Prop where
  codes : ∀ n < nd.ne01, ∀ k < nd.ne00, nd.code n k = wCodes.entry nd.ne00 n k
  acts : ∀ t < nd.ne11, ∀ k < nd.ne00, nd.act t k = aQ.entry nd.ne00 t k

/-- The ggml kernels return the biased sum of each row and token they are called for, converted to float. -/
structure Kernels.Exact (kern : Kernels Float32) (nd : MulMat Float32) (code : Nat → Nat → UInt8) (a : Nat → Nat → Int8) :
    Prop where
  gemm : ∀ s0 nr c, ∀ j < 4, ∀ r < nr, c + j < nd.ne11 → s0 + r < nd.ne01 →
    kern.gemm nd.packed nd.src1 nd.ne00 nr (s0 * nd.nb01 / 4) (nd.src1ColStride * c) 4 nr (j * nr + r) =
      Binary32.ofInt (biasedSum code a nd.ne00 (c + j) (s0 + r))
  gemv : ∀ s0 nr c, ∀ r < nr, c < nd.ne11 → s0 + r < nd.ne01 →
    kern.gemv nd.packed nd.src1 nd.ne00 nd.ne01 (s0 * nd.nb01 / 4) (nd.src1ColStride * c) 1 nr r =
      Binary32.ofInt (biasedSum code a nd.ne00 c (s0 + r))

/-- The kernels on rows and tokens that follow one another in memory. -/
def refKernels : Kernels Float32 where
  gemm vx vy n bs ox oy _ _ i := Binary32.ofInt (biasedSum (fun r k => i2sCode vx (ox + r * (n / 4)) k)
    (fun c k => vy.cell (oy + c * n + k)) n (i / bs) (i % bs))
  gemv vx vy n _ ox oy _ _ i := Binary32.ofInt (biasedSum (fun r k => i2sCode vx (ox + r * (n / 4)) k)
    (fun _ k => vy.cell (oy + k)) n 0 i)

/-- The rows of a tensor of whole rows follow one another, and so do the tokens. -/
theorem refKernels_exact {nd : MulMat Float32} (h4 : 4 ∣ nd.ne00) (hnb : nd.nb01 = nd.ne00)
    (hstride : nd.src1ColStride = nd.ne00) : refKernels.Exact nd nd.code nd.act := by
  have hrow : ∀ s0 r, s0 * nd.nb01 / 4 + r * (nd.ne00 / 4) = (s0 + r) * (nd.ne00 / 4) := fun s0 r => by
    rw [hnb, Nat.mul_div_assoc _ h4, Nat.add_mul]
  constructor
  · intro s0 nr c j _ r hr _ _
    refine congrArg Binary32.ofInt ?_
    rw [row_add_div hr, row_add_mod hr]
    refine Finset.sum_congr rfl fun k _ => ?_
    simp only [MulMat.code, MulMat.act, hrow, hstride]
    rw [Nat.mul_comm nd.ne00 c, ← Nat.add_mul]
  · intro s0 nr c r _ _ _
    refine congrArg Binary32.ofInt (Finset.sum_congr rfl fun k _ => ?_)
    simp only [MulMat.code, MulMat.act, hrow, Nat.mul_comm nd.src1ColStride c]

/-- Kernels that are exact on the memory of a node are exact on the matrices that it holds. -/
theorem Kernels.Exact.of_holds {kern : Kernels Float32} {nd : MulMat Float32} {wCodes : Buffer UInt8} {aQ : Buffer Int8}
    (h : kern.Exact nd nd.code nd.act) (hnd : nd.Holds wCodes aQ) :
    kern.Exact nd (wCodes.entry nd.ne00) (aQ.entry nd.ne00) where
  gemm s0 nr c j hj r hr hc hs := by
    rw [h.gemm s0 nr c j hj r hr hc hs, biasedSum_congr _ _ _ (hnd.codes _ hs) (hnd.acts _ hc)]
  gemv s0 nr c r hr hc hs := by
    rw [h.gemv s0 nr c r hr hc hs, biasedSum_congr _ _ _ (hnd.codes _ hs) (hnd.acts _ hc)]

/-! ## The three epilogues -/

section Agree

variable {kern : Kernels Float32} {nd : MulMat Float32} {code : Nat → Nat → UInt8} {a : Nat → Nat → Int8}

/-- The golden functions on a matrix of codes and a matrix of activations: no int32 value wraps, and the result is the
floats of the sums over signed weights. -/
theorem exists_golden (wCodes : Buffer UInt8) (aQ : Buffer Int8) (accOut : Buffer Int32) (dstOut : Buffer Float32)
    (hcode : ∀ n < nd.ne01, ∀ k < nd.ne00, (code n k).toNat < 4) (hK : 3 * 128 * nd.ne00 ≤ 2 ^ 24)
    (hw : nd.ne01 * nd.ne00 ≤ wCodes.size) (hwc : ∀ n < nd.ne01, ∀ k < nd.ne00, wCodes.entry nd.ne00 n k = code n k)
    (ha : nd.ne11 * nd.ne00 ≤ aQ.size) (hac : ∀ t < nd.ne11, ∀ k < nd.ne00, aQ.entry nd.ne00 t k = a t k)
    (hxsm : ∀ t < nd.ne11, (nd.xsm.cell t).toInt = actSum a nd.ne00 t) (hscales : nd.ne11 ≤ nd.xsc.size)
    (hsums : nd.ne11 ≤ nd.xsm.size) (hacc : nd.ne11 * nd.ne01 ≤ accOut.size) (hdst : nd.ne11 * nd.ne01 ≤ dstOut.size) :
    ∃ acc dst, i2sRefAccumulate wCodes aQ nd.ne00 nd.ne01 nd.ne11 accOut = some acc ∧
      i2sApplyEpilogue acc nd.ne01 nd.ne11 nd.xsc nd.xsm nd.xws dstOut = some dst ∧ dst.size = dstOut.size ∧
      ∀ t < nd.ne11, ∀ n < nd.ne01,
        (acc.cell (t * nd.ne01 + n)).toInt = biasedSum code a nd.ne00 t n ∧
        (acc.cell (t * nd.ne01 + n) - nd.xsm.cell t).toInt = signedSum code a nd.ne00 t n ∧
        dst.cell (t * nd.ne01 + n) = Binary32.ofInt (signedSum code a nd.ne00 t n) * (nd.xws / nd.xsc.cell t) := by
  refine ⟨_, _, i2sRefAccumulate_eq hw ha hacc,
    i2sApplyEpilogue_eq (by rw [Buffer.size_writeRows]; exact hacc) hscales hsums hdst, Buffer.size_writeRows .., ?_⟩
  intro t ht n hn
  have hrow := fun v : Nat → Nat → Int32 => Buffer.cell_writeRows accOut 0 (v := v) (Nat.le_refl nd.ne01) ht hn
  have hout := fun v : Nat → Nat → Float32 => Buffer.cell_writeRows dstOut 0 (v := v) (Nat.le_refl nd.ne01) ht hn
  simp only [Nat.zero_add] at hrow hout
  have hbiased := toInt_refSum (hcode n hn) hK (hwc n hn) (hac t ht)
  have hsigned := toInt_biased_sub (hcode n hn) hK hbiased (hxsm t ht)
  rw [hout, hrow]
  exact ⟨hbiased, hsigned, congrArg (· * (nd.xws / nd.xsc.cell t)) (congrArg Binary32.ofInt hsigned)⟩

/-- A write with the value that the integer sum over signed weights gives. -/
def Write.Agrees (nd : MulMat Float32) (code : Nat → Nat → UInt8) (a : Nat → Nat → Int8) (w : Write Float32) : Prop :=
  w.val = Binary32.ofInt (signedSum code a nd.ne00 w.row w.col) * (nd.xws / nd.xsc.cell w.row)

/-- One token of the CPU share. -/
theorem cpuToken_agrees {tmp : Nat → Float32} {s0 nr c : Nat} (hcode : ∀ n < nd.ne01, ∀ k < nd.ne00, (code n k).toNat < 4)
    (hK : 3 * 128 * nd.ne00 ≤ 2 ^ 24) (hsum : (nd.xsm.cell c).toInt = actSum a nd.ne00 c)
    (htmp : ∀ r < nr, s0 + r < nd.ne01 → tmp r = Binary32.ofInt (biasedSum code a nd.ne00 c (s0 + r))) :
    ∀ w ∈ cpuToken nd tmp s0 nr c, w.col < nd.ne01 → w.Agrees nd code a := by
  intro w hw hcol
  obtain ⟨r, hr, rfl⟩ := List.mem_map.mp hw
  simp only [Write.Agrees]
  rw [htmp r (List.mem_range.mp hr) hcol, ofInt_biased_sub (hcode _ hcol) hK hsum]

/-- Every write of the CPU share. -/
theorem cpuShare_agrees {tNpu nth ith : Nat} (hcode : ∀ n < nd.ne01, ∀ k < nd.ne00, (code n k).toNat < 4)
    (hK : 3 * 128 * nd.ne00 ≤ 2 ^ 24) (hkern : kern.Exact nd code a)
    (hxsm : ∀ t < nd.ne11, (nd.xsm.cell t).toInt = actSum a nd.ne00 t) :
    ∀ w ∈ cpuShare kern nd tNpu nth ith, w.row < nd.ne11 → w.col < nd.ne01 → w.Agrees nd code a := by
  intro w hw hrow hcol
  rw [cpuShare] at hw
  generalize cpuRows nd.ne01 (ith - 1) (nth - 1) = rows at hw
  obtain ⟨s0, s1⟩ := rows
  by_cases hs : s0 < s1
  · simp only [if_pos hs, List.mem_append, List.mem_flatMap, List.mem_range] at hw
    rcases hw with ⟨g, hg, j, hj, hw⟩ | ⟨i, hi, hw⟩
    · -- four tokens at a time
      have hc : w.row = tNpu + 4 * g + j := by
        obtain ⟨r, -, rfl⟩ := List.mem_map.mp hw
        rfl
      exact cpuToken_agrees hcode hK (hxsm _ (hc ▸ hrow))
        (fun r hr hn => hkern.gemm _ _ _ j hj r hr (hc ▸ hrow) hn) w hw hcol
    · -- the rest
      have hc : w.row = tNpu + 4 * ((nd.ne11 - tNpu) / 4) + i := by
        obtain ⟨r, -, rfl⟩ := List.mem_map.mp hw
        rfl
      exact cpuToken_agrees hcode hK (hxsm _ (hc ▸ hrow)) (fun r hr hn => hkern.gemv _ _ _ r hr (hc ▸ hrow) hn) w hw hcol
  · simp [hs] at hw

/-- Every write of the NPU epilogue. -/
theorem epilogueWrites_agrees {gAcc : Buffer Int32} {rb re nb1 : Nat}
    (hgAcc : ∀ t < nd.ne11, ∀ n < nd.ne01, (gAcc.cell (t * nd.ne01 + n)).toInt = signedSum code a nd.ne00 t n) :
    ∀ w ∈ epilogueWrites gAcc nd.ne01 rb re ⟨nd.xsc, nd.xws, nb1⟩, w.row < nd.ne11 → w.Agrees nd code a := by
  intro w hw hrow
  simp only [epilogueWrites, List.mem_flatMap, List.mem_range, List.mem_map] at hw
  obtain ⟨i, -, j, hj, rfl⟩ := hw
  have hval : EpilogueArith.ofInt32 (gAcc.cell ((rb + i) * nd.ne01 + j)) =
      Binary32.ofInt (signedSum code a nd.ne00 (rb + i) j) := congrArg Binary32.ofInt (hgAcc _ hrow j hj)
  simp only [Write.Agrees, hval]

/-- Every write of a thread on the success path. -/
theorem threadWrites_agrees {gAcc : Buffer Int32} {nb1 tNpu nth ith : Nat}
    (hcode : ∀ n < nd.ne01, ∀ k < nd.ne00, (code n k).toNat < 4) (hK : 3 * 128 * nd.ne00 ≤ 2 ^ 24)
    (hkern : kern.Exact nd code a) (hxsm : ∀ t < nd.ne11, (nd.xsm.cell t).toInt = actSum a nd.ne00 t)
    (hgAcc : ∀ t < nd.ne11, ∀ n < nd.ne01, (gAcc.cell (t * nd.ne01 + n)).toInt = signedSum code a nd.ne00 t n) :
    ∀ w ∈ threadWrites kern nd gAcc nb1 tNpu nth ith, w.row < nd.ne11 → w.col < nd.ne01 → w.Agrees nd code a := by
  intro w hw hrow hcol
  rcases List.mem_append.mp hw with hw | hw
  · by_cases h0 : ith = 0
    · simp [h0] at hw
    · by_cases hlt : tNpu < nd.ne11
      · rw [if_neg h0, if_pos hlt] at hw
        exact cpuShare_agrees hcode hK hkern hxsm w hw hrow hcol
      · simp [h0, hlt] at hw
  · exact epilogueWrites_agrees hgAcc w hw hrow

/-- The golden accumulator, the CPU share and the NPU accumulate on one matrix of two-bit codes and one matrix of int8
activations, for every row length up to 3 * 128 * K = 2^24. No int32 value wraps, the biased sum less the activation sum is
the signed sum, and for every token and row the float of the CPU share and that of the NPU epilogue are the one that the
golden epilogue writes. So if a node holds the two matrices, then however its batch is split every cell is written by some
thread, and all that any thread writes there is the golden float. -/
theorem epilogues_agree (nd : MulMat Float32) (hK : 3 * 128 * nd.ne00 ≤ 2 ^ 24) (wCodes : Buffer UInt8) (aQ : Buffer Int8)
    (accOut gAcc : Buffer Int32) (dstOut : Buffer Float32) (hw : nd.ne01 * nd.ne00 ≤ wCodes.size)
    (hcode : ∀ n < nd.ne01, ∀ k < nd.ne00, (wCodes.entry nd.ne00 n k).toNat < 4) (ha : nd.ne11 * nd.ne00 ≤ aQ.size)
    (hxsm : ∀ t < nd.ne11, nd.xsm.cell t = int32Sum (fun k => (aQ.entry nd.ne00 t k).toInt32) nd.ne00)
    (hgAcc : ∀ t < nd.ne11, ∀ n < nd.ne01, gAcc.cell (t * nd.ne01 + n) =
      int32Dot (aQ.entry nd.ne00 t) (fun k => (wCodes.entry nd.ne00 n k).toInt8 - 1) nd.ne00)
    (hscales : nd.ne11 ≤ nd.xsc.size) (hsums : nd.ne11 ≤ nd.xsm.size) (hacc : nd.ne11 * nd.ne01 ≤ accOut.size)
    (hdst : nd.ne11 * nd.ne01 ≤ dstOut.size) :
    ∃ acc dst, i2sRefAccumulate wCodes aQ nd.ne00 nd.ne01 nd.ne11 accOut = some acc ∧
      i2sApplyEpilogue acc nd.ne01 nd.ne11 nd.xsc nd.xsm nd.xws dstOut = some dst ∧
      (∀ t < nd.ne11, ∀ n < nd.ne01,
        (acc.cell (t * nd.ne01 + n)).toInt = biasedSum (wCodes.entry nd.ne00) (aQ.entry nd.ne00) nd.ne00 t n ∧
        (nd.xsm.cell t).toInt = actSum (aQ.entry nd.ne00) nd.ne00 t ∧
        (gAcc.cell (t * nd.ne01 + n)).toInt = signedSum (wCodes.entry nd.ne00) (aQ.entry nd.ne00) nd.ne00 t n ∧
        acc.cell (t * nd.ne01 + n) - nd.xsm.cell t = gAcc.cell (t * nd.ne01 + n) ∧
        (Binary32.ofInt (biasedSum (wCodes.entry nd.ne00) (aQ.entry nd.ne00) nd.ne00 t n) -
          EpilogueArith.ofInt32 (nd.xsm.cell t)) * (nd.xws / nd.xsc.cell t) = dst.cell (t * nd.ne01 + n) ∧
        EpilogueArith.ofInt32 (gAcc.cell (t * nd.ne01 + n)) * (nd.xws / nd.xsc.cell t) = dst.cell (t * nd.ne01 + n)) ∧
      ∀ kern : Kernels Float32, nd.Holds wCodes aQ → kern.Exact nd nd.code nd.act → ∀ nb1 tNpu nth, 1 ≤ nth →
        tNpu ≤ nd.ne11 → (nth = 1 → tNpu = nd.ne11) → ∀ t < nd.ne11, ∀ n < nd.ne01,
          (∃ ith < nth, Hits (threadWrites kern nd gAcc nb1 tNpu nth ith) t n) ∧
          ∀ ith < nth, ∀ w ∈ threadWrites kern nd gAcc nb1 tNpu nth ith, w.row = t → w.col = n →
            w.val = dst.cell (t * nd.ne01 + n) := by
  have hxsm' : ∀ t < nd.ne11, (nd.xsm.cell t).toInt = actSum (aQ.entry nd.ne00) nd.ne00 t := fun t ht => by
    rw [hxsm t ht, toInt_actSum hK]
  have hgAcc' : ∀ t < nd.ne11, ∀ n < nd.ne01,
      (gAcc.cell (t * nd.ne01 + n)).toInt = signedSum (wCodes.entry nd.ne00) (aQ.entry nd.ne00) nd.ne00 t n :=
    fun t ht n hn => by rw [hgAcc t ht n hn, toInt_signedDot (hcode n hn) hK]
  obtain ⟨acc, dst, hrun, hepi, -, hcell⟩ := exists_golden wCodes aQ accOut dstOut hcode hK hw (fun _ _ _ _ => rfl) ha
    (fun _ _ _ _ => rfl) hxsm' hscales hsums hacc hdst
  refine ⟨acc, dst, hrun, hepi, fun t ht n hn => ?_, ?_⟩
  · obtain ⟨hbiased, hsigned, hval⟩ := hcell t ht n hn
    refine ⟨hbiased, hxsm' t ht, hgAcc' t ht n hn, Int32.toInt_inj.mp (hsigned.trans (hgAcc' t ht n hn).symm), ?_, ?_⟩
    · rw [ofInt_biased_sub (hcode n hn) hK (hxsm' t ht), hval]
    · rw [hval]
      exact congrArg (· * (nd.xws / nd.xsc.cell t)) (congrArg Binary32.ofInt (hgAcc' t ht n hn))
  · intro kern hnd hkern nb1 tNpu nth hnth hle hone t ht n hn
    refine ⟨exists_threadWrites_hits kern nd gAcc hnth hle hone ht hn, fun ith hith w hw hrow hcol => ?_⟩
    subst hrow hcol
    rw [(hcell _ ht _ hn).2.2]
    exact threadWrites_agrees hcode hK (hkern.of_holds hnd) hxsm' hgAcc' w hw ht hn

/-- A tensor of 64 rows of one block, all of its bytes different from their neighbours, and six tokens. -/
def agreeNode : MulMat Float32 where
  src0 := 1
  packed := ⟨64 * 32, fun i => UInt8.ofNat (37 * i)⟩
  ne00 := 128
  ne01 := 64
  ne11 := 6
  nb01 := 128
  src1 := ⟨6 * 128, fun i => Int8.ofNat (29 * i)⟩
  src1ColStride := 128
  xsc := .replicate 6 3
  xsm := ⟨6, fun t => int32Sum (fun k => (Int8.ofNat (29 * (t * 128 + k))).toInt32) 128⟩
  xws := 2

/-- Its codes, row after row. -/
def agreeCodes : Buffer UInt8 := ⟨64 * 128, fun x => agreeNode.code (x / 128) (x % 128)⟩

/-- Its accumulators. -/
def agreeAcc : Buffer Int32 :=
  ⟨6 * 64, fun x => int32Dot (agreeNode.act (x / 64)) (fun k => (agreeNode.code (x % 64) k).toInt8 - 1) 128⟩

theorem agreeCodes_entry (n : Nat) {k : Nat} (hk : k < 128) : agreeCodes.entry 128 n k = agreeNode.code n k := by
  simp only [Buffer.entry, agreeCodes, row_add_div hk, row_add_mod hk]

/-- One token for the NPU and five for the CPU, on three threads. -/
theorem epilogues_agree_three_threads :
    ∃ acc dst, i2sRefAccumulate agreeCodes agreeNode.src1 128 64 6 (.replicate (6 * 64) 0) = some acc ∧
      i2sApplyEpilogue acc 64 6 agreeNode.xsc agreeNode.xsm agreeNode.xws (.replicate (6 * 64) 0) = some dst ∧
      ∀ t < 6, ∀ n < 64,
        EpilogueArith.ofInt32 (agreeAcc.cell (t * 64 + n)) * (agreeNode.xws / agreeNode.xsc.cell t) = dst.cell (t * 64 + n) ∧
        (∃ ith < 3, Hits (threadWrites refKernels agreeNode agreeAcc 256 1 3 ith) t n) ∧
        ∀ ith < 3, ∀ w ∈ threadWrites refKernels agreeNode agreeAcc 256 1 3 ith, w.row = t → w.col = n →
          w.val = dst.cell (t * 64 + n) := by
  have hcode : ∀ n < 64, ∀ k < 128, (agreeCodes.entry 128 n k).toNat < 4 := fun n _ k hk => by
    rw [agreeCodes_entry n hk]
    exact agreeNode.code_lt n k
  have hacc : ∀ t < 6, ∀ n < 64, agreeAcc.cell (t * 64 + n) =
      int32Dot (agreeNode.src1.entry 128 t) (fun k => (agreeCodes.entry 128 n k).toInt8 - 1) 128 := fun t _ n hn => by
    simp only [agreeAcc, row_add_div hn, row_add_mod hn]
    refine int32Sum_congr fun k hk => ?_
    simp only [agreeCodes_entry n hk]
    rfl
  obtain ⟨acc, dst, hrun, hepi, hcell, hwrites⟩ := epilogues_agree agreeNode (by decide) agreeCodes agreeNode.src1
    (.replicate (6 * 64) 0) agreeAcc (.replicate (6 * 64) 0) (Nat.le_refl _) hcode (Nat.le_refl _) (fun _ _ => rfl) hacc
    (Nat.le_refl _) (Nat.le_refl _) (Nat.le_refl _) (Nat.le_refl _)
  refine ⟨acc, dst, hrun, hepi, fun t ht n hn => ⟨(hcell t ht n hn).2.2.2.2.2, ?_⟩⟩
  exact hwrites refKernels ⟨fun n _ k hk => (agreeCodes_entry n hk).symm, fun _ _ _ _ => rfl⟩
    (refKernels_exact (by decide) rfl rfl) 256 1 3 (by decide) (by decide) (by decide) t ht n hn

end Agree

end BitnetXdna
