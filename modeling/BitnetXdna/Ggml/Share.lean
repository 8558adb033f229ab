import BitnetXdna.Shim.Gemm
import BitnetXdna.Lib.Sharding

/-!
# Who writes what on the success path of the patched mul_mat

The block that `patches/001-bitnet-xdna.patch` adds to `ggml_compute_forward_mul_mat`, on the path where the accumulate
succeeds: threads 1, ..., nth - 1 compute the tokens from `t_npu` on, sharded over the rows of the weights, and all threads
convert the accumulators of the tokens below `t_npu`, sharded over the tokens. A thread's share is the list of its writes to
`dst`, in program order. The two ggml kernels are parameters.
-/

namespace BitnetXdna

/-- A write of one float: its token, its output feature and its value. -/
structure Write (F : Type) where
  row : Nat
  col : Nat
  val : F

/-- Carry out writes, with rows `rowStride` bytes apart. -/
def applyWrites {F : Type} (rowStride : Nat) (ws : List (Write F)) (dst : Buffer F) : Option (Buffer F) :=
  ws.foldlM (fun dst w =>
    if w.row * rowStride % 4 ≠ 0 then none else dst.store (w.row * rowStride / 4 + w.col) w.val) dst

theorem applyWrites_append {F : Type} (rowStride : Nat) (ws ws' : List (Write F)) (dst : Buffer F) :
    applyWrites rowStride (ws ++ ws') dst = applyWrites rowStride ws dst >>= applyWrites rowStride ws' :=
  List.foldlM_append

/-- The write of a cell. -/
def Write.isCell {F : Type} (t n : Nat) (w : Write F) : Bool := decide (w.row = t ∧ w.col = n)

/-- Some write has the cell. -/
def Hits {F : Type} (ws : List (Write F)) (t n : Nat) : Prop := ∃ w ∈ ws, w.row = t ∧ w.col = n

/-- A cell that writes have at least once is hit. -/
theorem hits_of_countP_pos {F : Type} {ws : List (Write F)} {t n : Nat} (h : 0 < ws.countP (Write.isCell t n)) :
    Hits ws t n := by
  obtain ⟨w, hw, hcell⟩ := List.countP_pos_iff.mp h
  exact ⟨w, hw, by simpa [Write.isCell] using hcell⟩

/-- How often a row of writes has a cell. -/
theorem countP_row {F : Type} {c t n s w : Nat} (v : Nat → F) :
    ((List.range w).map fun r => (⟨c, s + r, v r⟩ : Write F)).countP (Write.isCell t n) =
      if c = t ∧ s ≤ n ∧ n < s + w then 1 else 0 :=
  Sharding.countP_map_cuts (q := c = t) fun _ _ => rfl

/-- How often consecutive rows of writes have a cell. -/
theorem countP_rows {F : Type} {t n s w : Nat} (off : Nat) {m : Nat} {l : Nat → List (Write F)}
    (h : ∀ i < m, (l i).countP (Write.isCell t n) = if off + i = t ∧ s ≤ n ∧ n < s + w then 1 else 0) :
    ((List.range m).flatMap l).countP (Write.isCell t n) =
      if off ≤ t ∧ t < off + m then (if s ≤ n ∧ n < s + w then 1 else 0) else 0 := by
  refine Sharding.countP_flatMap_cuts (f := fun i => off + i) (fun i j hij => by simpa using hij) ?_
  intro i hi
  rw [h i hi]
  by_cases hn : s ≤ n ∧ n < s + w
  · simp only [hn, and_true, if_true]
    exact if_congr (by omega) rfl rfl
  · rw [if_neg (fun hc => hn hc.2), if_neg hn]
    split <;> rfl

/-- A mul_mat node as the patched block reads it. `xsc`, `xsm` and `xws` are the activation scales, the activation sums and
the weight scale; `nb01` and `src1ColStride` are in bytes. -/
structure MulMat (F : Type) where
  src0 : Ptr
  packed : Buffer UInt8
  ne00 : Nat
  ne01 : Nat
  ne11 : Nat
  nb01 : Nat
  src1 : Buffer Int8
  src1ColStride : Nat
  xsc : Buffer F
  xsm : Buffer Int32
  xws : F

/-- `ggml_gemm_i2_i8_s` and `ggml_gemv_i2_i8_s`: what they leave in `tmp`, as a function of the two memories, `n`, `bs`, the
positions of `vx` and `vy`, `nr` and `nc`. -/
structure Kernels (F : Type) where
  gemm : Buffer UInt8 → Buffer Int8 → Nat → Nat → Nat → Nat → Nat → Nat → Nat → F
  gemv : Buffer UInt8 → Buffer Int8 → Nat → Nat → Nat → Nat → Nat → Nat → Nat → F

/-- `mnc`, the rounding of the row split. -/
def mnc : Nat := 4

/-- The rounding of one end of a row range up to a multiple of `mnc`. -/
def roundRow (s : Nat) : Nat := if s % mnc ≠ 0 then s + mnc - s % mnc else s

/-- The rows of CPU thread `cith` out of `cnth`. -/
def cpuRows (ne01 cith cnth : Nat) : Nat × Nat :=
  (roundRow (cith * ne01 / cnth), roundRow ((cith + 1) * ne01 / cnth))

section Shares

variable {F : Type} [EpilogueArith F]

/-- One token of the CPU share: `nr` rows from `s0` on, from the kernel's result `tmp`. -/
def cpuToken (nd : MulMat F) (tmp : Nat → F) (s0 nr c : Nat) : List (Write F) :=
  let ps := nd.xws / nd.xsc.cell c
  let as := nd.xsm.cell c
  (List.range nr).map fun r => ⟨c, s0 + r, (tmp r - EpilogueArith.ofInt32 as) * ps⟩

/-- The share of CPU thread `ith`: its rows of the tokens from `t_npu` on, four tokens at a time and the rest one by one. -/
def cpuShare (kern : Kernels F) (nd : MulMat F) (tNpu nth ith : Nat) : List (Write F) :=
  let (s0, s1) := cpuRows nd.ne01 (ith - 1) (nth - 1)
  if s0 < s1 then
    let nr := s1 - s0
    let groups := (nd.ne11 - tNpu) / 4
    ((List.range groups).flatMap fun g =>
      let c := tNpu + 4 * g
      let tmp := kern.gemm nd.packed nd.src1 nd.ne00 nr (s0 * nd.nb01 / 4) (nd.src1ColStride * c) 4 nr
      (List.range 4).flatMap fun j => cpuToken nd (fun r => tmp (j * nr + r)) s0 nr (c + j)) ++
    (List.range (nd.ne11 - (tNpu + 4 * groups))).flatMap fun i =>
      let c := tNpu + 4 * groups + i
      let tmp := kern.gemv nd.packed nd.src1 nd.ne00 nd.ne01 (s0 * nd.nb01 / 4) (nd.src1ColStride * c) 1 nr
      cpuToken nd tmp s0 nr c
  else []

/-- The writes of `bitnet_xdna_epilogue` over the rows from `rb` to `re`. -/
def epilogueWrites (gAcc : Buffer Int32) (N rb re : Nat) (e : EpilogueArgs F) : List (Write F) :=
  (List.range (re - rb)).flatMap fun i =>
    let t := rb + i
    let post := e.ws / e.actScales.cell t
    (List.range N).map fun j => ⟨t, j, EpilogueArith.ofInt32 (gAcc.cell (t * N + j)) * post⟩

/-- All writes of thread `ith` when the accumulate succeeded: thread 0 drives the NPU while the others compute the CPU share;
then every thread runs the epilogue over its tokens. -/
def threadWrites (kern : Kernels F) (nd : MulMat F) (gAcc : Buffer Int32) (nb1 tNpu nth ith : Nat) : List (Write F) :=
  (if ith = 0 then [] else if tNpu < nd.ne11 then cpuShare kern nd tNpu nth ith else []) ++
    epilogueWrites gAcc nd.ne01 (ith * tNpu / nth) ((ith + 1) * tNpu / nth) ⟨nd.xsc, nd.xws, nb1⟩

/-- One row of the epilogue carries out the writes of that row. -/
theorem epilogueRow_eq_applyWrites {gAcc : Buffer Int32} {N t : Nat} {e : EpilogueArgs F} (hN : 0 < N)
    (hscale : t < e.actScales.size) (hacc : (t + 1) * N ≤ gAcc.size) (dst : Buffer F) :
    epilogueRow gAcc N e t dst = applyWrites e.dstRowStride ((List.range N).map fun j =>
      (⟨t, j, EpilogueArith.ofInt32 (gAcc.cell (t * N + j)) * (e.ws / e.actScales.cell t)⟩ : Write F)) dst := by
  simp only [epilogueRow, Buffer.load_eq hscale, Option.bind_eq_bind, Option.bind_some, applyWrites, List.foldlM_map]
  by_cases halign : t * e.dstRowStride % 4 = 0
  · simp only [halign, ne_eq, not_true_eq_false, if_false]
    rw [forRange_eq_foldlM]
    refine foldlM_congr_range ?_
    intro j hj b
    have hpos := row_add_lt (s := N) (m := t + 1) (Nat.lt_succ_self t) hj
    rw [Buffer.load_eq (by omega)]
    rfl
  · -- the first write of a misaligned row is undefined
    obtain ⟨n, rfl⟩ : ∃ n, N = n + 1 := ⟨N - 1, by omega⟩
    simp [halign, List.range_succ_eq_map]

/-- The epilogue of the shim carries out exactly the writes listed. -/
theorem bitnetXdnaEpilogue_eq_applyWrites {gAcc : Buffer Int32} {N rb re : Nat} {e : EpilogueArgs F} (hN : 0 < N)
    (hscales : re ≤ e.actScales.size) (hacc : re * N ≤ gAcc.size) (dst : Buffer F) :
    bitnetXdnaEpilogue gAcc N rb re e dst = applyWrites e.dstRowStride (epilogueWrites gAcc N rb re e) dst := by
  have key : ∀ n ≤ re - rb, forRange n dst (fun i dst => epilogueRow gAcc N e (rb + i) dst) =
      applyWrites e.dstRowStride ((List.range n).flatMap fun i => (List.range N).map fun j =>
        (⟨rb + i, j, EpilogueArith.ofInt32 (gAcc.cell ((rb + i) * N + j)) *
          (e.ws / e.actScales.cell (rb + i))⟩ : Write F)) dst := by
    intro n hn
    induction n with
    | zero => rfl
    | succ n ih =>
      have hrow : (rb + n + 1) * N ≤ re * N := Nat.mul_le_mul_right N (by omega)
      rw [forRange, ih (by omega), List.range_succ, List.flatMap_append, applyWrites_append, List.flatMap_singleton]
      congr 1
      funext b
      exact epilogueRow_eq_applyWrites hN (by omega) (by omega) b
  exact key (re - rb) (Nat.le_refl _)

/-! ## How often a share has a cell -/

/-- How often the CPU share of a thread has a cell: once if the token and the row are its own. -/
theorem countP_cpuShare (kern : Kernels F) (nd : MulMat F) {tNpu nth ith t n : Nat} (hle : tNpu ≤ nd.ne11) :
    (cpuShare kern nd tNpu nth ith).countP (Write.isCell t n) =
      if (tNpu ≤ t ∧ t < nd.ne11) ∧ (cpuRows nd.ne01 (ith - 1) (nth - 1)).1 ≤ n ∧
        n < (cpuRows nd.ne01 (ith - 1) (nth - 1)).2 then 1 else 0 := by
  rw [cpuShare]
  generalize cpuRows nd.ne01 (ith - 1) (nth - 1) = rows
  obtain ⟨s0, s1⟩ := rows
  by_cases hs : s0 < s1
  · simp only [if_pos hs, List.countP_append]
    have hfour : ((List.range ((nd.ne11 - tNpu) / 4)).flatMap fun g => (List.range 4).flatMap fun j =>
        cpuToken nd (fun r => kern.gemm nd.packed nd.src1 nd.ne00 (s1 - s0) (s0 * nd.nb01 / 4)
          (nd.src1ColStride * (tNpu + 4 * g)) 4 (s1 - s0) (j * (s1 - s0) + r)) s0 (s1 - s0)
          (tNpu + 4 * g + j)).countP (Write.isCell t n) =
        if tNpu ≤ t ∧ t < tNpu + 4 * ((nd.ne11 - tNpu) / 4) then
          (if s0 ≤ n ∧ n < s0 + (s1 - s0) then 1 else 0) else 0 :=
      Sharding.countP_flatMap_cuts (f := fun g => tNpu + 4 * g) (fun i j hij => by simp only; omega) fun g hg =>
        countP_rows (tNpu + 4 * g) fun j hj => countP_row _
    have htail : ((List.range (nd.ne11 - (tNpu + 4 * ((nd.ne11 - tNpu) / 4)))).flatMap fun i =>
        cpuToken nd (kern.gemv nd.packed nd.src1 nd.ne00 nd.ne01 (s0 * nd.nb01 / 4)
          (nd.src1ColStride * (tNpu + 4 * ((nd.ne11 - tNpu) / 4) + i)) 1 (s1 - s0)) s0 (s1 - s0)
          (tNpu + 4 * ((nd.ne11 - tNpu) / 4) + i)).countP (Write.isCell t n) =
        if tNpu + 4 * ((nd.ne11 - tNpu) / 4) ≤ t ∧
            t < tNpu + 4 * ((nd.ne11 - tNpu) / 4) + (nd.ne11 - (tNpu + 4 * ((nd.ne11 - tNpu) / 4))) then
          (if s0 ≤ n ∧ n < s0 + (s1 - s0) then 1 else 0) else 0 :=
      countP_rows _ fun i hi => countP_row _
    rw [hfour, htail, Nat.add_sub_cancel' (by omega), Nat.add_sub_cancel' (by omega)]
    split_ifs <;> omega
  · simp only [if_neg hs, List.countP_nil]
    rw [if_neg (by omega)]

/-- The tokens and the rows of the CPU share of a thread. -/
theorem of_mem_cpuShare {kern : Kernels F} {nd : MulMat F} {tNpu nth ith : Nat} {w : Write F} (hle : tNpu ≤ nd.ne11)
    (hw : w ∈ cpuShare kern nd tNpu nth ith) : (tNpu ≤ w.row ∧ w.row < nd.ne11) ∧
      (cpuRows nd.ne01 (ith - 1) (nth - 1)).1 ≤ w.col ∧ w.col < (cpuRows nd.ne01 (ith - 1) (nth - 1)).2 := by
  have hcount : 0 < (cpuShare kern nd tNpu nth ith).countP (Write.isCell w.row w.col) :=
    List.countP_pos_iff.mpr ⟨w, hw, by simp [Write.isCell]⟩
  rw [countP_cpuShare kern nd hle] at hcount
  split_ifs at hcount with hin
  · exact hin
  · omega

/-- How often the epilogue of a token range has a cell. -/
theorem countP_epilogueWrites (gAcc : Buffer Int32) {N rb re t n : Nat} (e : EpilogueArgs F) (hle : rb ≤ re) :
    (epilogueWrites gAcc N rb re e).countP (Write.isCell t n) = if (rb ≤ t ∧ t < re) ∧ n < N then 1 else 0 := by
  have h := countP_rows rb (m := re - rb) (t := t) (n := n) (s := 0) (w := N) (l := fun i =>
    (List.range N).map fun j => (⟨rb + i, j, EpilogueArith.ofInt32 (gAcc.cell ((rb + i) * N + j)) *
      (e.ws / e.actScales.cell (rb + i))⟩ : Write F)) fun i hi => by
    have := countP_row (c := rb + i) (t := t) (n := n) (s := 0) (w := N) fun j =>
      EpilogueArith.ofInt32 (gAcc.cell ((rb + i) * N + j)) * (e.ws / e.actScales.cell (rb + i))
    simpa only [Nat.zero_add] using this
  rw [epilogueWrites, h]
  split_ifs <;> omega

/-- How often a thread has a cell on the success path. -/
theorem countP_threadWrites (kern : Kernels F) (nd : MulMat F) (gAcc : Buffer Int32) {nb1 tNpu nth ith t n : Nat}
    (hle : tNpu ≤ nd.ne11) :
    (threadWrites kern nd gAcc nb1 tNpu nth ith).countP (Write.isCell t n) =
      (if ith ≠ 0 ∧ (tNpu ≤ t ∧ t < nd.ne11) ∧ (cpuRows nd.ne01 (ith - 1) (nth - 1)).1 ≤ n ∧
        n < (cpuRows nd.ne01 (ith - 1) (nth - 1)).2 then 1 else 0) +
      if (ith * tNpu / nth ≤ t ∧ t < (ith + 1) * tNpu / nth) ∧ n < nd.ne01 then 1 else 0 := by
  have hmono : ith * tNpu / nth ≤ (ith + 1) * tNpu / nth :=
    Sharding.monotone_mul_div tNpu nth (Nat.le_add_right ith 1)
  rw [threadWrites, List.countP_append, countP_epilogueWrites _ _ hmono]
  congr 1
  by_cases h0 : ith = 0
  · simp [h0]
  · by_cases hlt : tNpu < nd.ne11
    · rw [if_neg h0, if_pos hlt, countP_cpuShare kern nd hle]
      exact if_congr (by omega) rfl rfl
    · rw [if_neg h0, if_neg hlt, List.countP_nil, if_neg (by omega)]

end Shares

/-! ## Every cell is written once -/

/-- Rounding goes up to the next multiple of four. -/
theorem roundRow_eq (s : Nat) : roundRow s = (s + 3) / 4 * 4 := by
  rw [roundRow, mnc]
  split <;> omega

theorem monotone_roundRow : Monotone roundRow := by
  intro a b hab
  rw [roundRow_eq, roundRow_eq]
  omega

/-- The row ranges of the CPU threads, as cut points. -/
theorem monotone_cpuRows (ne01 cnth : Nat) : Monotone fun i => roundRow (i * ne01 / cnth) :=
  monotone_roundRow.comp (Sharding.monotone_mul_div ne01 cnth)

/-- No CPU thread goes past the last row: the rows are a multiple of four. -/
theorem cpuRows_le {ne01 cith cnth : Nat} (h4 : 4 ∣ ne01) (hc : cith < cnth) : (cpuRows ne01 cith cnth).2 ≤ ne01 :=
  calc (cpuRows ne01 cith cnth).2 ≤ roundRow ne01 := monotone_roundRow (Sharding.mul_div_le hc)
    _ = ne01 := by rw [roundRow, mnc, if_neg (by omega)]

/-- Every row is in the range of some CPU thread. -/
theorem exists_cpuRows {ne01 cnth n : Nat} (hc : 0 < cnth) (hn : n < ne01) :
    ∃ cith < cnth, (cpuRows ne01 cith cnth).1 ≤ n ∧ n < (cpuRows ne01 cith cnth).2 := by
  refine Sharding.exists_shard (f := fun i => roundRow (i * ne01 / cnth)) (by simp [roundRow]) ?_
  rw [Nat.mul_div_cancel_left _ hc, roundRow_eq]
  omega

/-- Every cell of a token that the CPU has is in the share of some thread. -/
theorem exists_cpuShare_hits {F : Type} [EpilogueArith F] (kern : Kernels F) (nd : MulMat F) {tNpu nth t n : Nat}
    (hle : tNpu ≤ nd.ne11) (hnth : 2 ≤ nth) (hlow : tNpu ≤ t) (ht : t < nd.ne11) (hn : n < nd.ne01) :
    ∃ ith < nth, 1 ≤ ith ∧ Hits (cpuShare kern nd tNpu nth ith) t n := by
  obtain ⟨cith, hcith, hin⟩ := exists_cpuRows (show 0 < nth - 1 by omega) hn
  refine ⟨cith + 1, Nat.add_lt_of_lt_sub hcith, Nat.le_add_left .., hits_of_countP_pos ?_⟩
  rw [countP_cpuShare kern nd hle, if_pos ⟨⟨hlow, ht⟩, hin⟩]
  exact Nat.one_pos

/-- Every cell is written by some thread. -/
theorem exists_threadWrites_hits {F : Type} [EpilogueArith F] (kern : Kernels F) (nd : MulMat F) (gAcc : Buffer Int32)
    {nb1 tNpu nth t n : Nat} (hnth : 1 ≤ nth) (hle : tNpu ≤ nd.ne11) (hone : nth = 1 → tNpu = nd.ne11) (ht : t < nd.ne11)
    (hn : n < nd.ne01) : ∃ ith < nth, Hits (threadWrites kern nd gAcc nb1 tNpu nth ith) t n := by
  by_cases hlow : t < tNpu
  · -- a token of the NPU: converted by the thread that has it
    obtain ⟨ith, hith, hin⟩ := Sharding.exists_share hnth hlow
    refine ⟨ith, hith, hits_of_countP_pos ?_⟩
    rw [countP_threadWrites kern nd gAcc hle, if_neg (by omega), if_pos ⟨hin, hn⟩]
    exact Nat.one_pos
  · -- a token of the CPU: computed by the thread that has the row
    obtain ⟨ith, hith, hpos, w, hw, hcell⟩ :=
      exists_cpuShare_hits kern nd hle (show 2 ≤ nth by omega) (Nat.not_lt.mp hlow) ht hn
    refine ⟨ith, hith, w, List.mem_append_left _ ?_, hcell⟩
    rwa [if_neg (Nat.ne_of_gt hpos), if_pos (Nat.lt_of_le_of_lt (Nat.not_lt.mp hlow) ht)]

/-- On the success path the writes of the threads are an exact partition of `dst`: none is out of range, and every cell is
written exactly once, by exactly one thread. -/
theorem dst_written_once {F : Type} [EpilogueArith F] (kern : Kernels F) (nd : MulMat F) (gAcc : Buffer Int32)
    (nb1 tNpu nth : Nat) (hnth : 1 ≤ nth) (h64 : 64 ∣ nd.ne01) (hle : tNpu ≤ nd.ne11)
    (hone : nth = 1 → tNpu = nd.ne11) :
    (∀ ith < nth, ∀ w ∈ threadWrites kern nd gAcc nb1 tNpu nth ith, w.row < nd.ne11 ∧ w.col < nd.ne01) ∧
    ∀ t < nd.ne11, ∀ n < nd.ne01, ∃ ith < nth,
      (threadWrites kern nd gAcc nb1 tNpu nth ith).countP (Write.isCell t n) = 1 ∧
      ∀ ith' < nth, ith' ≠ ith → (threadWrites kern nd gAcc nb1 tNpu nth ith').countP (Write.isCell t n) = 0 := by
  have h4 : 4 ∣ nd.ne01 := Dvd.dvd.trans (by decide) h64
  -- the cut points of the tokens of the epilogue and of the rows of the CPU share
  have htok := Sharding.monotone_mul_div tNpu nth
  have hrow := monotone_cpuRows nd.ne01 (nth - 1)
  have hlast : ∀ ith < nth, (ith + 1) * tNpu / nth ≤ tNpu := fun ith => Sharding.mul_div_le
  constructor
  · intro ith hith w hw
    have hcount : 0 < (threadWrites kern nd gAcc nb1 tNpu nth ith).countP (Write.isCell w.row w.col) :=
      List.countP_pos_iff.mpr ⟨w, hw, by simp [Write.isCell]⟩
    rw [countP_threadWrites kern nd gAcc hle] at hcount
    have hend := hlast ith hith
    by_cases hcpu : ith ≠ 0 ∧ (tNpu ≤ w.row ∧ w.row < nd.ne11) ∧
        (cpuRows nd.ne01 (ith - 1) (nth - 1)).1 ≤ w.col ∧ w.col < (cpuRows nd.ne01 (ith - 1) (nth - 1)).2
    · have hrowEnd := cpuRows_le h4 (show ith - 1 < nth - 1 by omega)
      exact ⟨hcpu.2.1.2, by omega⟩
    · rw [if_neg hcpu, Nat.zero_add] at hcount
      split_ifs at hcount with hepi
      · exact ⟨by omega, hepi.2⟩
      · omega
  · intro t ht n hn
    by_cases hlow : t < tNpu
    · -- a token of the NPU: converted by the thread that has it
      obtain ⟨ith, hith, hin⟩ := Sharding.exists_share hnth hlow
      refine ⟨ith, hith, ?_, fun ith' hith' hne => ?_⟩
      · rw [countP_threadWrites kern nd gAcc hle, if_neg (by omega), if_pos ⟨hin, hn⟩]
      · rw [countP_threadWrites kern nd gAcc hle, if_neg (by omega), if_neg]
        rintro ⟨hin', -⟩
        exact hne (Sharding.shard_unique htok hin' hin)
    · -- a token of the CPU: computed by the thread that has the row
      obtain ⟨cith, hcith, hin⟩ := exists_cpuRows (show 0 < nth - 1 by omega) hn
      have hnpu : ∀ ith < nth, ¬((ith * tNpu / nth ≤ t ∧ t < (ith + 1) * tNpu / nth) ∧ n < nd.ne01) := by
        intro ith hith
        have := hlast ith hith
        omega
      refine ⟨cith + 1, by omega, ?_, fun ith' hith' hne => ?_⟩
      · rw [countP_threadWrites kern nd gAcc hle, if_pos ⟨by omega, ⟨by omega, ht⟩, hin⟩,
          if_neg (hnpu _ (by omega))]
      · rw [countP_threadWrites kern nd gAcc hle, if_neg, if_neg (hnpu _ hith')]
        rintro ⟨hpos, -, hin'⟩
        have := Sharding.shard_unique hrow hin' hin
        omega

/-- Three threads, a batch of six tokens of which the NPU has one, 64 output features. -/
theorem dst_written_once_three_threads :
    let kern : Kernels Float32 := ⟨fun _ _ _ _ _ _ _ _ _ => 0, fun _ _ _ _ _ _ _ _ _ => 0⟩
    let nd : MulMat Float32 :=
      ⟨0, .replicate 4096 0, 256, 64, 6, 256, .replicate 1536 0, 256, .replicate 6 1, .replicate 6 0, 1⟩
    (∀ ith < 3, ∀ w ∈ threadWrites kern nd (.replicate 64 0) 256 1 3 ith, w.row < 6 ∧ w.col < 64) ∧
    ∀ t < 6, ∀ n < 64, ∃ ith < 3,
      (threadWrites kern nd (.replicate 64 0) 256 1 3 ith).countP (Write.isCell t n) = 1 ∧
      ∀ ith' < 3, ith' ≠ ith → (threadWrites kern nd (.replicate 64 0) 256 1 3 ith').countP (Write.isCell t n) = 0 :=
  dst_written_once ⟨fun _ _ _ _ _ _ _ _ _ => 0, fun _ _ _ _ _ _ _ _ _ => 0⟩
    ⟨0, .replicate 4096 0, 256, 64, 6, 256, .replicate 1536 0, 256, .replicate 6 1, .replicate 6 0, 1⟩
    (.replicate 64 0) 256 1 3 (by decide) (by decide) (by decide) (by decide)

end BitnetXdna
