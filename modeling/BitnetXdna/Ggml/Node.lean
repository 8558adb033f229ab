import BitnetXdna.Ggml.Agree
import BitnetXdna.Shim.Histories

/-!
# A mul_mat node and its golden result

A node of the graph with its memory, the call that thread 0 makes for it, and the result of the golden functions of
`runtime/bitnet_i2s.c` on it: unpack, accumulate, epilogue (`GraphNode.golden_eq`). The writes of the CPU share and the rows of
the epilogue stay inside the node's rows of `dst` and have the golden values (`share_paints`, `epilogueRow_paints`). Writes
that agree on every cell leave the same `dst` in whatever order they are carried out (`applyWrites_paints`).
-/

namespace BitnetXdna

/-! ## Writes that agree -/

/-- A write inside `rows` rows of `cols` cells, with the value `v` has there. -/
def Write.Paints {F : Type} (rows cols : Nat) (v : Nat → Nat → F) (w : Write F) : Prop :=
  w.row < rows ∧ w.col < cols ∧ w.val = v w.row w.col

/-- A `dst` of aligned rows that do not overlap. -/
structure RowsFit {F : Type} (rows cols rowStride : Nat) (dst : Buffer F) : Prop where
  aligned : 4 ∣ rowStride
  apart : 4 * cols ≤ rowStride
  size : ∀ t < rows, t * rowStride / 4 + cols ≤ dst.size

section Paint

variable {F : Type} {rows cols rowStride t t' n n' : Nat} {ws ws' : List (Write F)} {dst : Buffer F}

theorem Hits.append : Hits (ws ++ ws') t n ↔ Hits ws t n ∨ Hits ws' t n := by
  simp only [Hits, List.mem_append, or_and_right, exists_or]

/-- Aligned rows do not overlap. -/
theorem RowsFit.cell_inj (h : RowsFit rows cols rowStride dst) (hn : n < cols) (hn' : n' < cols)
    (heq : t * rowStride / 4 + n = t' * rowStride / 4 + n') : t = t' ∧ n = n' := by
  obtain ⟨q, rfl⟩ := h.aligned
  have hq : cols ≤ q := by have := h.apart; omega
  have hdiv : ∀ x, x * (4 * q) / 4 = x * q := fun x => by
    rw [Nat.mul_left_comm, Nat.mul_div_cancel_left _ (by decide)]
  rw [hdiv, hdiv] at heq
  have ht : t = t' := by
    rw [← row_add_div (r := t) (Nat.lt_of_lt_of_le hn hq), heq, row_add_div (Nat.lt_of_lt_of_le hn' hq)]
  subst ht
  exact ⟨rfl, Nat.add_left_cancel heq⟩

/-- Writes inside the rows are carried out, and a cell that is hit has the value on which the writes agree. -/
theorem applyWrites_paints {v : Nat → Nat → F} (hfit : RowsFit rows cols rowStride dst)
    (hws : ∀ w ∈ ws, w.Paints rows cols v) :
    ∃ dst', applyWrites rowStride ws dst = some dst' ∧ dst'.size = dst.size ∧
      (∀ t n, Hits ws t n → dst'.cell (t * rowStride / 4 + n) = v t n) ∧
      ∀ p, (∀ w ∈ ws, w.row * rowStride / 4 + w.col ≠ p) → dst'.cell p = dst.cell p := by
  induction ws generalizing dst with
  | nil => exact ⟨dst, rfl, rfl, fun t n ⟨w, hw, _⟩ => absurd hw (by simp), fun _ _ => rfl⟩
  | cons w ws ih =>
    obtain ⟨hrow, hcol, hval⟩ := hws w List.mem_cons_self
    have hzero : w.row * rowStride % 4 = 0 := Nat.mod_eq_zero_of_dvd (hfit.aligned.mul_left _)
    have hlt : w.row * rowStride / 4 + w.col < dst.size := by
      have := hfit.size w.row hrow
      omega
    have hnext : RowsFit rows cols rowStride (dst.write (w.row * rowStride / 4 + w.col) 1 fun _ => w.val) :=
      ⟨hfit.aligned, hfit.apart, hfit.size⟩
    obtain ⟨dst', hrun, hsize, hhits, hkeep⟩ := ih hnext fun x hx => hws x (List.mem_cons_of_mem _ hx)
    refine ⟨dst', ?_, hsize, fun t n hhit => ?_, fun p hp => ?_⟩
    · rw [applyWrites, List.foldlM_cons, if_neg (not_not_intro hzero), Buffer.store_eq _ hlt, Option.bind_eq_bind,
        Option.bind_some]
      exact hrun
    · by_cases hlater : Hits ws t n
      · exact hhits t n hlater
      obtain ⟨x, hx, rfl, rfl⟩ := hhit
      obtain rfl : x = w := by
        rcases List.mem_cons.mp hx with hx | hx
        · exact hx
        · exact absurd ⟨x, hx, rfl, rfl⟩ hlater
      have hfirst : (dst.write (x.row * rowStride / 4 + x.col) 1 fun _ => x.val).cell
          (x.row * rowStride / 4 + x.col + 0) = x.val := Buffer.cell_write_add dst (fun _ => x.val) (Nat.lt_add_one 0)
      rw [hkeep _ fun y hy heq => ?_, ← hval]
      · exact hfirst
      · obtain ⟨hr, hc⟩ := hfit.cell_inj (hws y (List.mem_cons_of_mem _ hy)).2.1 hcol heq
        exact hlater ⟨y, hy, hr, hc⟩
    · have hne := hp w List.mem_cons_self
      rw [hkeep p fun x hx => hp x (List.mem_cons_of_mem _ hx), Buffer.cell_write_of_not _ _ (by omega)]

end Paint

/-! ## The node -/

/-- A mul_mat node of the graph: what the patched block reads, the stride of its `dst` in bytes, and the memory at `dst`. -/
structure GraphNode extends MulMat Float32 where
  nb1 : Nat
  dst : Buffer Float32

namespace GraphNode

/-- The call of `bitnet_xdna_accumulate` for the first `tNpu` tokens. -/
def call (g : GraphNode) (tNpu : Nat) : Call where
  src0 := g.src0
  packed := g.packed
  K := g.ne00
  N := g.ne01
  aQ := g.src1
  T := tNpu
  aRowStride := g.src1ColStride

/-- What the epilogue is given. -/
def args (g : GraphNode) : EpilogueArgs Float32 := ⟨g.xsc, g.xws, g.nb1⟩

/-- The activations, row after row. -/
def rows (g : GraphNode) : Buffer Int8 := ⟨g.ne11 * g.ne00, fun x => g.act (x / g.ne00) (x % g.ne00)⟩

/-- The golden result: `i2s_unpack_matrix`, `i2s_ref_accumulate`, `i2s_apply_epilogue`. -/
def golden (g : GraphNode) : Option (Buffer Float32) := do
  let codes ← i2sUnpackMatrix g.packed g.ne00 g.ne01 (.replicate (g.ne01 * g.ne00) 0)
  let acc ← i2sRefAccumulate codes g.rows g.ne00 g.ne01 g.ne11 (.replicate (g.ne11 * g.ne01) 0)
  i2sApplyEpilogue acc g.ne01 g.ne11 g.xsc g.xsm g.xws (.replicate (g.ne11 * g.ne01) 0)

/-- Cell (t, n) of it. -/
def value (g : GraphNode) (t n : Nat) : Float32 :=
  Binary32.ofInt (signedSum g.code g.act g.ne00 t n) * (g.xws / g.xsc.cell t)

/-- The memory of a node: its tensor, the activations of its tokens with their scales and sums as the quantiser leaves them,
and a `dst` of aligned rows that do not overlap. -/
structure Fits (g : GraphNode) : Prop where
  packed : g.ne01 * g.ne00 / 4 ≤ g.packed.size
  src1 : ∀ t < g.ne11, t * g.src1ColStride + g.ne00 ≤ g.src1.size
  scales : g.ne11 ≤ g.xsc.size
  sums : g.ne11 ≤ g.xsm.size
  actSums : ∀ t < g.ne11, g.xsm.cell t = int32Sum (fun k => (g.act t k).toInt32) g.ne00
  dst : RowsFit g.ne11 g.ne01 g.nb1 g.dst

variable {g : GraphNode}

/-- The shapes that the shim serves. -/
theorem shape_of_supports (h : bitnetXdnaSupports g.ne00 g.ne01 = true) :
    128 ∣ g.ne00 ∧ 64 ∣ g.ne01 ∧ 0 < g.ne01 ∧ 3 * 128 * g.ne00 ≤ 2 ^ 24 := by
  obtain ⟨plan, hplan⟩ := Option.isSome_iff_exists.mp h
  obtain ⟨hK, hN, -⟩ := planFor_eq_some hplan
  refine ⟨?_, ?_, ?_, ?_⟩
  · rcases hK with hK | hK <;> rw [hK] <;> decide
  · rcases hN with hN | hN <;> rw [hN] <;> decide
  · rcases hN with hN | hN <;> rw [hN] <;> decide
  · rcases hK with hK | hK <;> rw [hK] <;> decide

/-- The memory that a call of the node may read. -/
theorem Fits.call (h : g.Fits) {tNpu : Nat} (hle : tNpu ≤ g.ne11) : (g.call tNpu).Valid :=
  ⟨fun _ => h.packed, fun _ t ht => h.src1 t (Nat.lt_of_lt_of_le ht hle)⟩

/-- With other weights the rest of the memory still fits. -/
theorem Fits.with_weights (h : g.Fits) {packed : Buffer UInt8} {xws : Float32} (hp : g.ne01 * g.ne00 / 4 ≤ packed.size) :
    ({ g with packed := packed, xws := xws } : GraphNode).Fits :=
  ⟨hp, h.src1, h.scales, h.sums, h.actSums, h.dst⟩

/-- The sum of the activations of a token. -/
theorem Fits.toInt_xsm (h : g.Fits) (hK : 3 * 128 * g.ne00 ≤ 2 ^ 24) {t : Nat} (ht : t < g.ne11) :
    (g.xsm.cell t).toInt = actSum g.act g.ne00 t := by
  rw [h.actSums t ht, toInt_actSum hK]

/-- The golden functions are defined on a node that is served, and their result is `value`. -/
theorem golden_eq (h : g.Fits) (hs : bitnetXdnaSupports g.ne00 g.ne01 = true) :
    ∃ b, g.golden = some b ∧ b.size = g.ne11 * g.ne01 ∧
      ∀ t < g.ne11, ∀ n < g.ne01, b.cell (t * g.ne01 + n) = g.value t n := by
  obtain ⟨h128, -, -, hK⟩ := shape_of_supports hs
  obtain ⟨codes, hunpack, hsize, hcode⟩ := exists_unpackMatrix h128 h.packed
    (show g.ne01 * g.ne00 ≤ (Buffer.replicate (g.ne01 * g.ne00) 0).size from Nat.le_refl _)
  rw [Buffer.size_replicate] at hsize
  obtain ⟨acc, dst, hacc, hepi, hlen, hcell⟩ := exists_golden codes g.rows (.replicate (g.ne11 * g.ne01) 0)
    (.replicate (g.ne11 * g.ne01) 0) (fun n _ k _ => g.code_lt n k) hK (Nat.le_of_eq hsize.symm) hcode (Nat.le_refl _)
    (fun t _ k hk => by simp only [Buffer.entry, rows, row_add_div hk, row_add_mod hk]) (fun t ht => h.toInt_xsm hK ht)
    h.scales h.sums (Nat.le_refl _) (Nat.le_refl _)
  refine ⟨dst, ?_, hlen, fun t ht n hn => (hcell t ht n hn).2.2⟩
  rw [golden, hunpack, Option.bind_eq_bind, Option.bind_some, hacc, Option.bind_eq_bind, Option.bind_some, hepi]

/-! ## What the threads write -/

/-- The writes of the CPU share of a thread: their tokens, their rows, and the golden values. -/
theorem share_paints {kern : Kernels Float32} (h : g.Fits) (hK : 3 * 128 * g.ne00 ≤ 2 ^ 24)
    (hkern : kern.Exact g.toMulMat g.code g.act) (h4 : 4 ∣ g.ne01) {tNpu nth ith : Nat} (hle : tNpu ≤ g.ne11)
    (hone : 1 ≤ ith) (hith : ith < nth) :
    ∀ w ∈ cpuShare kern g.toMulMat tNpu nth ith, w.Paints g.ne11 g.ne01 g.value := by
  intro w hw
  obtain ⟨⟨-, hrow⟩, -, hend⟩ := of_mem_cpuShare hle hw
  have hcol : w.col < g.ne01 := Nat.lt_of_lt_of_le hend (cpuRows_le h4 (show ith - 1 < nth - 1 by omega))
  exact ⟨hrow, hcol,
    cpuShare_agrees (fun n _ k _ => g.code_lt n k) hK hkern (fun t ht => h.toInt_xsm hK ht) w hw hrow hcol⟩

/-- An accumulator that holds the product of the node's call holds the sums over signed weights. -/
theorem cell_of_exact {tNpu t n : Nat} {gAcc : Buffer Int32} (hexact : (g.call tNpu).Exact gAcc) (ht : t < tNpu)
    (hn : n < g.ne01) : (gAcc.cell (t * g.ne01 + n)).toInt = signedSum g.code g.act g.ne00 t n := by
  obtain ⟨x, hload, hx⟩ := hexact t ht n hn
  simp only [Buffer.load, Option.ite_none_right_eq_some, Option.some.injEq] at hload
  rw [show g.ne01 = (g.call tNpu).N from rfl, hload.2, hx]
  rfl

/-- One row of the epilogue from such an accumulator: writes of all cells of the row with the golden values. -/
theorem epilogueRow_paints (h : g.Fits) (hpos : 0 < g.ne01) {tNpu t : Nat} {gAcc : Buffer Int32}
    (hexact : (g.call tNpu).Exact gAcc) (hle : tNpu ≤ g.ne11) (ht : t < tNpu) :
    ∃ ws : List (Write Float32), (∀ dst, epilogueRow gAcc g.ne01 g.args t dst = applyWrites g.nb1 ws dst) ∧
      (∀ w ∈ ws, w.Paints g.ne11 g.ne01 g.value) ∧ ∀ n < g.ne01, Hits ws t n := by
  have hsize : (t + 1) * g.ne01 ≤ gAcc.size := Nat.le_trans (Nat.mul_le_mul_right _ ht) hexact.size_le
  refine ⟨_, epilogueRow_eq_applyWrites (e := g.args) hpos ?_ hsize, fun w hw => ?_, fun n hn => ?_⟩
  · exact Nat.lt_of_lt_of_le ht (Nat.le_trans hle h.scales)
  · obtain ⟨n, hn, rfl⟩ := List.mem_map.mp hw
    have hn' : n < g.ne01 := List.mem_range.mp hn
    refine ⟨Nat.lt_of_lt_of_le ht hle, hn', ?_⟩
    exact congrArg (· * (g.xws / g.xsc.cell t)) (congrArg Binary32.ofInt (cell_of_exact hexact ht hn'))
  · exact ⟨_, List.mem_map_of_mem (List.mem_range.mpr hn), rfl, rfl⟩

end GraphNode

/-- A node of one shape that is served: every code is 0 and every activation 1. -/
def plainNode (tokens : Nat) : GraphNode where
  src0 := 0
  packed := .replicate (2560 * 2560 / 4) 0
  ne00 := 2560
  ne01 := 2560
  ne11 := tokens
  nb01 := 2560
  src1 := .replicate (tokens * 2560) 1
  src1ColStride := 2560
  xsc := .replicate tokens 1
  xsm := .replicate tokens 2560
  xws := 1
  nb1 := 4 * 2560
  dst := .replicate (tokens * 2560) 0

theorem plainNode_fits (tokens : Nat) : (plainNode tokens).Fits := by
  have hsum : ∀ t, actSum (plainNode tokens).act 2560 t = 2560 := fun t => by simp [actSum, MulMat.act, plainNode]
  refine ⟨Nat.le_refl _, fun t ht => ?_, Nat.le_refl _, Nat.le_refl _, fun t ht => ?_,
    ⟨Nat.dvd_mul_right 4 2560, Nat.le_refl _, fun t ht => ?_⟩⟩
  · have hlt : t < tokens := ht
    simp only [plainNode, Buffer.size_replicate]
    omega
  · refine Int32.toInt_inj.mp ?_
    rw [show (plainNode tokens).ne00 = 2560 from rfl, toInt_actSum (by decide), hsum]
    rfl
  · have hlt : t < tokens := ht
    simp only [plainNode, Buffer.size_replicate]
    omega

end BitnetXdna
