import BitnetXdna.Npu.Int4

/-!
# The int8 x int4 path computes the matrix product

Each packing is a matrix of tiles; each tile of C is the sum of the products of the tiles of its row of A and its column of B;
the sum fits 32 bits, so the accumulator's lanes are exact.
-/

namespace BitnetXdna

namespace Int4

open Finset

/-! ## Nibbles -/

/-- The two weights of a packed byte. -/
theorem nibble_packNibbles (lo hi : Int8) :
    nibble (packNibbles lo hi) 0 = lo.toBitVec.extractLsb' 0 4 ∧
      nibble (packNibbles lo hi) 1 = hi.toBitVec.extractLsb' 0 4 := by
  have hlow : ∀ i < 4, (15#8).getLsbD i = true := by decide
  have hhigh : ∀ i < 4, (15#8).getLsbD (4 + i) = false := by decide
  unfold nibble packNibbles
  constructor
  · ext i hi
    simp [hi, hlow i hi]
  · ext i hi
    simp [hlow i hi, hhigh i hi]
    omega

/-- A value of four bits is read back with its sign. -/
theorem toInt_extractLsb' {x : Int8} (h : -8 ≤ x.toInt ∧ x.toInt ≤ 7) : (x.toBitVec.extractLsb' 0 4).toInt = x.toInt := by
  have key : ∀ v : BitVec 8, -8 ≤ v.toInt → v.toInt ≤ 7 → (v.extractLsb' 0 4).toInt = v.toInt := by decide
  exact key x.toBitVec h.1 h.2

/-! ## The packings -/

/-- A block that is contiguous where it is written. -/
theorem assignBlock_eq {α : Type} {out src : Buffer α} {off soff sstride rows n : Nat} (hout : off + rows * n ≤ out.size)
    (hsrc : ∀ r < rows, soff + r * sstride + n ≤ src.size) :
    assignBlock out off n src soff sstride rows n =
      some (out.write off (rows * n) fun x => src.cell (soff + x / n * sstride + x % n)) := by
  refine Buffer.forRange_write n _ ?_
  intro r hr b hb
  have hrow : r * n + n ≤ rows * n := row_add_le hr (Nat.le_refl n)
  have hlast := hsrc r hr
  rw [Buffer.copy_eq (by omega) hlast]
  refine congrArg some (Buffer.write_congr b fun x hx => ?_)
  rw [row_add_div hx, row_add_mod hx]

/-- The value that both packings give position `x` of tile (z, i): tiles of `rows` x `n` cells of a matrix of `stride`
columns. -/
def tileCell {α : Type} (src : Buffer α) (stride rows n z i x : Nat) : α :=
  src.cell (z * rows * stride + i * n + x / n * stride + x % n)

/-- The loops that both packings share. -/
theorem packTiles_eq {src : Buffer Int8} {rows n a b stride : Nat} (hb : b * n = stride)
    (hsrc : a * rows * stride ≤ src.size) :
    (forRange a (.replicate (a * b * (rows * n)) 0) fun z out =>
      forRange b out fun i out =>
        assignBlock out ((z * b + i) * (rows * n)) n src (z * rows * stride + i * n) stride rows n) =
      some ((Buffer.replicate (a * b * (rows * n)) 0).writeTiles a b (rows * n) (tileCell src stride rows n)) := by
  refine Buffer.forRange_writeTiles _ ?_
  intro z hz i hi out hout
  refine assignBlock_eq ?_ fun r hr => ?_
  · rw [hout, Buffer.size_replicate, ← Nat.succ_mul]
    exact Nat.mul_le_mul_right _ (row_add_lt hz hi)
  · -- row `z * rows + r` of the matrix ends inside it
    have hcol : i * n + n ≤ stride := hb ▸ row_add_le hi (Nat.le_refl n)
    have hend : (z * rows + r) * stride + (i * n + n) ≤ a * rows * stride := row_add_le (row_add_lt hz hr) hcol
    rw [Nat.add_mul] at hend
    omega

/-- The activations, tile-major. -/
theorem packA_eq {A : Buffer Int8} {M K : Nat} (hM : M / mmR * mmR = M) (hK : K / mmS * mmS = K) (hA : M * K ≤ A.size) :
    packA A M K = some ((Buffer.replicate (M / mmR * (K / mmS) * (mmR * mmS)) 0).writeTiles (M / mmR) (K / mmS) (mmR * mmS)
      (tileCell A K mmR mmS)) :=
  packTiles_eq hK (by rwa [hM])

/-- The weights, tile-major. -/
theorem tilesB_eq {B : Buffer Int8} {K N : Nat} (hK : K / mmS * mmS = K) (hN : N / mmT * mmT = N) (hB : K * N ≤ B.size) :
    tilesB B K N = some ((Buffer.replicate (K / mmS * (N / mmT) * (mmS * mmT)) 0).writeTiles (K / mmS) (N / mmT) (mmS * mmT)
      (tileCell B N mmS mmT)) :=
  packTiles_eq hN (by rwa [hK])

/-- A lane of a packed tile of B is the low four bits of its weight. -/
theorem packBInt4_eq {B : Buffer Int8} {K N : Nat} (hK : K / mmS * mmS = K) (hN : N / mmT * mmT = N)
    (hB : K * N ≤ B.size) :
    ∃ pb, packBInt4 .interleave B K N = some pb ∧ pb.size = K / mmS * (N / mmT) * (mmS * mmT / 2) ∧
      ∀ i < K / mmS, ∀ j < N / mmT, ∀ l < mmS * mmT,
        nibble (pb.cell ((i * (N / mmT) + j) * (mmS * mmT / 2) + l / 2)) (l % 2) =
          (tileCell B N mmS mmT i j l).toBitVec.extractLsb' 0 4 := by
  have hsize : K / mmS * (N / mmT) * (mmS * mmT) = 2 * (K / mmS * (N / mmT) * (mmS * mmT / 2)) := by
    simp only [mmS, mmT]
    omega
  simp only [packBInt4, tilesB_eq hK hN hB, Option.bind_eq_bind, Option.bind_some, Buffer.size_writeTiles,
    Buffer.size_replicate, hsize, Nat.mul_mod_right, ne_eq, not_true_eq_false, if_false, Option.pure_def]
  refine ⟨_, rfl, Nat.mul_div_cancel_left _ (by decide), fun i hi j hj l hl => ?_⟩
  have hcell := Buffer.cell_writeTiles (Buffer.replicate (2 * (K / mmS * (N / mmT) * (mmS * mmT / 2))) 0)
    (tileCell B N mmS mmT) hi hj hl
  have hpos : (i * (N / mmT) + j) * (mmS * mmT) + l = 2 * ((i * (N / mmT) + j) * (mmS * mmT / 2) + l / 2) + l % 2 := by
    simp only [mmS, mmT]
    omega
  rw [hpos] at hcell
  simp only [Nibble.lanes]
  rcases Nat.mod_two_eq_zero_or_one l with h | h
  · rw [h, (nibble_packNibbles _ _).1, ← hcell, h, Nat.add_zero]
  · rw [h, (nibble_packNibbles _ _).2, ← hcell, h]

/-! ## The kernel -/

section Kernel

variable {aie : Aie} {lane : aie.Acc → Nat → Int}

/-- The accumulator after K-block `n` of the tiles `a` and `b`. -/
def accOf (aie : Aie) (a : Nat → Nat → Int8) (b : Nat → Nat → BitVec 4) : Nat → aie.Acc
  | 0 => aie.mul (a 0) (b 0)
  | n + 1 => aie.mac (accOf aie a b n) (a (n + 1)) (b (n + 1))

/-- The loop over the K-blocks: block `i` of A is 64 bytes further, block `i` of B `colB` tiles of 128 bytes. -/
theorem tileAcc_eq {pA pB : Buffer Int8} {colA colB pA1 pB1 : Nat} (hcolA : 0 < colA)
    (hA : ∀ i < colA, pA1 + i * (mmR * mmS) + mmR * mmS ≤ pA.size)
    (hB : ∀ i < colA, pB1 + i * (mmS * mmT / 2 * colB) + mmS * mmT / 2 ≤ pB.size) :
    tileAcc aie pA pB colA colB pA1 pB1 = some (accOf aie (fun i l => pA.cell (pA1 + i * (mmR * mmS) + l))
      (fun i => aie.loadInt4 pB (pB1 + i * (mmS * mmT / 2 * colB))) (colA - 1)) := by
  have hloadA : ∀ i < colA, loadV pA (pA1 + i * (mmR * mmS)) (mmR * mmS) =
      some fun l => pA.cell (pA1 + i * (mmR * mmS) + l) := fun i hi => if_pos (hA i hi)
  have hloadB : ∀ i < colA, loadB aie pB (pB1 + i * (mmS * mmT / 2 * colB)) =
      some (aie.loadInt4 pB (pB1 + i * (mmS * mmT / 2 * colB))) := fun i hi => if_pos (hB i hi)
  have key := forRange_eq_some (fun _ (st : Nat × Nat × aie.Acc) => do
      let a0 ← loadV pA st.1 (mmR * mmS)
      let b0 ← loadB aie pB st.2.1
      pure (st.1 + mmR * mmS, st.2.1 + mmS * mmT / 2 * colB, aie.mac st.2.2 a0 b0))
    (fun i => (pA1 + (i + 1) * (mmR * mmS), pB1 + (i + 1) * (mmS * mmT / 2 * colB),
      accOf aie (fun i l => pA.cell (pA1 + i * (mmR * mmS) + l))
        (fun i => aie.loadInt4 pB (pB1 + i * (mmS * mmT / 2 * colB))) i)) (n := colA - 1) ?_
  · have hA0 := hloadA 0 hcolA
    have hB0 := hloadB 0 hcolA
    simp only [Nat.zero_mul, Nat.add_zero] at hA0 hB0
    simp only [Nat.zero_add, Nat.one_mul, accOf, Nat.zero_mul, Nat.add_zero] at key
    simp only [tileAcc, hA0, hB0, Option.bind_eq_bind, Option.bind_some]
    exact congrArg (Option.bind · fun st => some st.2.2) key
  · intro i hi
    simp only [hloadA (i + 1) (by omega), hloadB (i + 1) (by omega), Option.bind_eq_bind, Option.bind_some, Option.pure_def]
    rw [Nat.succ_mul (i + 1), Nat.succ_mul (i + 1), Nat.add_assoc, Nat.add_assoc]
    rfl

/-- A weight of four bits. -/
theorem abs_toInt_le (b : BitVec 4) : |b.toInt| ≤ 8 := by
  have key : ∀ v : BitVec 4, -8 ≤ v.toInt ∧ v.toInt ≤ 8 := by decide
  exact abs_le.mpr (key b)

/-- One cell of the product of two tiles. -/
theorem abs_tileDot_le (a : Nat → Int8) (b : Nat → BitVec 4) (r t : Nat) : |tileDot a b r t| ≤ 16 * 1024 := by
  refine abs_sum_range_le ?_
  intro s _
  rw [abs_mul]
  exact mul_le_mul (abs_int8_le _) (abs_toInt_le _) (abs_nonneg _) (by decide)

/-- The lanes hold the sum of the products so far. -/
theorem lane_accOf (haie : aie.Documented lane) (a : Nat → Nat → Int8) (b : Nat → Nat → BitVec 4) {r t : Nat} (hr : r < mmR)
    (ht : t < mmT) (n : Nat) (hn : (n + 1) * (16 * 1024) < 2 ^ 31) :
    lane (accOf aie a b n) (r * mmT + t) = ∑ i ∈ range (n + 1), tileDot (a i) (b i) r t := by
  induction n with
  | zero => rw [accOf, haie.mul _ _ r hr t ht, sum_range_one]
  | succ n ih =>
    have hprev := ih (Nat.lt_of_le_of_lt (Nat.mul_le_mul_right _ (Nat.le_succ _)) hn)
    have hsum := abs_sum_range_le (n := n + 1 + 1) (f := fun i => tileDot (a i) (b i) r t)
      fun i _ => abs_tileDot_le (a i) (b i) r t
    rw [sum_range_succ] at hsum
    rw [accOf, haie.mac _ _ _ r hr t ht, hprev, ← sum_range_succ (fun i => tileDot (a i) (b i) r t)]
    rw [hprev]
    refine lt_of_le_of_lt hsum ?_
    omega

/-- The accumulator of tile (z, j) of C. -/
def tileC (aie : Aie) (pA pB : Buffer Int8) (colA colB z j : Nat) : aie.Acc :=
  accOf aie (fun i l => pA.cell ((z * colA + i) * (mmR * mmS) + l))
    (fun i => aie.loadInt4 pB ((i * colB + j) * (mmS * mmT / 2))) (colA - 1)

/-- The pointer into C follows the index of the tile. -/
theorem tileRow_eq {pA pB : Buffer Int8} {colA colB z : Nat} (pC : Buffer Int32) :
    tileRow aie colA colB pA pB z pC = forRange colB pC fun j pC =>
      (tileAcc aie pA pB colA colB (z * colA * (mmR * mmS)) (j * (mmS * mmT / 2))).bind fun c00 =>
        storeV pC ((z * colB + j) * (mmR * mmT)) (mmR * mmT) (aie.toVector c00) := by
  have key := forRange_counter (n := colB) (b := pC) (f := fun j (st : Nat × Buffer Int32) => do
      let c00 ← tileAcc aie pA pB colA colB (z * colA * (mmR * mmS)) (j * (mmS * mmT / 2))
      let pC ← storeV st.2 st.1 (mmR * mmT) (aie.toVector c00)
      pure (st.1 + mmR * mmT, pC))
    (fun j pC => (tileAcc aie pA pB colA colB (z * colA * (mmR * mmS)) (j * (mmS * mmT / 2))).bind fun c00 =>
      storeV pC ((z * colB + j) * (mmR * mmT)) (mmR * mmT) (aie.toVector c00))
    (fun j => (z * colB + j) * (mmR * mmT)) fun j _ pC => by
      cases tileAcc aie pA pB colA colB (z * colA * (mmR * mmS)) (j * (mmS * mmT / 2)) with
      | none => rfl
      | some c00 =>
        rw [← Nat.add_assoc, Nat.succ_mul]
        simp only [Option.bind_eq_bind, Option.bind_some]
        cases storeV pC ((z * colB + j) * (mmR * mmT)) (mmR * mmT) (aie.toVector c00) with
        | none => rfl
        | some pC => rfl
  simp only [Nat.add_zero] at key
  unfold tileRow
  rw [key, Option.bind_eq_bind, Option.bind_map]
  exact Option.bind_fun_some _

/-- The kernel writes every tile of C. -/
theorem matmulI8I4Core_eq {pA pB : Buffer Int8} {rowA colA colB : Nat} {pC : Buffer Int32} (hcolA : 0 < colA)
    (hA : rowA * colA * (mmR * mmS) ≤ pA.size) (hB : colA * colB * (mmS * mmT / 2) ≤ pB.size)
    (hC : rowA * colB * (mmR * mmT) ≤ pC.size) :
    matmulI8I4Core aie rowA colA colB pA pB pC =
      some (pC.writeTiles rowA colB (mmR * mmT) fun z j => aie.toVector (tileC aie pA pB colA colB z j)) := by
  unfold matmulI8I4Core
  have hrow : tileRow aie colA colB pA pB = _ := funext fun z => funext fun pC => tileRow_eq pC
  rw [hrow]
  refine Buffer.forRange_writeTiles _ ?_
  intro z hz j hj pC' hpC'
  have hz' : ∀ i, z * colA * (mmR * mmS) + i * (mmR * mmS) = (z * colA + i) * (mmR * mmS) := fun i => by rw [Nat.add_mul]
  have hj' : ∀ i, j * (mmS * mmT / 2) + i * (mmS * mmT / 2 * colB) = (i * colB + j) * (mmS * mmT / 2) := fun i => by ring
  have htile : tileAcc aie pA pB colA colB (z * colA * (mmR * mmS)) (j * (mmS * mmT / 2)) =
      some (tileC aie pA pB colA colB z j) := by
    rw [tileAcc_eq hcolA]
    · simp only [hz', hj', tileC]
    · intro i hi
      rw [hz', ← Nat.succ_mul]
      exact Nat.le_trans (Nat.mul_le_mul_right _ (row_add_lt hz hi)) hA
    · intro i hi
      rw [hj', ← Nat.succ_mul]
      exact Nat.le_trans (Nat.mul_le_mul_right _ (row_add_lt hi hj)) hB
  have hend : (z * colB + j + 1) * (mmR * mmT) ≤ rowA * colB * (mmR * mmT) :=
    Nat.mul_le_mul_right _ (row_add_lt hz hj)
  rw [htile, Option.bind_some]
  refine if_pos ?_
  rw [Nat.succ_mul] at hend
  omega

/-- Repeating the kernel writes the same tiles again. -/
theorem matmulI8I4I32_eq {aIn bIn : Buffer Int8} {cOut : Buffer Int32} {dimM dimK dimN rep : Nat} (hrep : 0 < rep)
    (hK : 0 < dimK / mmS) (hA : dimM / mmR * (dimK / mmS) * (mmR * mmS) ≤ aIn.size)
    (hB : dimK / mmS * (dimN / mmT) * (mmS * mmT / 2) ≤ bIn.size)
    (hC : dimM / mmR * (dimN / mmT) * (mmR * mmT) ≤ cOut.size) :
    matmulI8I4I32 aie dimM dimK dimN rep aIn bIn cOut =
      some (cOut.writeTiles (dimM / mmR) (dimN / mmT) (mmR * mmT) fun z j =>
        aie.toVector (tileC aie aIn bIn (dimK / mmS) (dimN / mmT) z j)) := by
  have key : ∀ n, matmulI8I4I32 aie dimM dimK dimN (n + 1) aIn bIn cOut =
      some (cOut.writeTiles (dimM / mmR) (dimN / mmT) (mmR * mmT) fun z j =>
        aie.toVector (tileC aie aIn bIn (dimK / mmS) (dimN / mmT) z j)) := by
    intro n
    induction n with
    | zero => exact matmulI8I4Core_eq hK hA hB hC
    | succ n ih =>
      rw [matmulI8I4I32, forRange, ← matmulI8I4I32, ih, Option.bind_eq_bind, Option.bind_some,
        matmulI8I4Core_eq hK hA hB (by rwa [Buffer.size_writeTiles]), Buffer.writeTiles_writeTiles]
  obtain ⟨n, rfl⟩ := Nat.exists_eq_add_of_lt hrep
  rw [Nat.zero_add]
  exact key n

end Kernel

/-- A block that is contiguous where it is read. -/
theorem assignBlock_rows {α : Type} {out src : Buffer α} {off stride soff rows n : Nat}
    (hout : ∀ r < rows, off + r * stride + n ≤ out.size) (hsrc : soff + rows * n ≤ src.size) :
    assignBlock out off stride src soff n rows n =
      some (out.writeRows off stride rows n fun r x => src.cell (soff + r * n + x)) := by
  refine Buffer.forRange_writeRow _ ?_
  intro r hr b hb
  have hrow : r * n + n ≤ rows * n := row_add_le hr (Nat.le_refl n)
  have hend := hout r hr
  exact Buffer.copy_eq (by omega) (by omega)

/-- A cell of the output that has its value from the tiles. -/
def Placed (c : Buffer Int32) (N : Nat) (out : Buffer Int32) (m n : Nat) : Prop :=
  out.cell (m * N + n) = c.cell ((m / mmR * (N / mmT) + n / mmT) * (mmR * mmT) + (m % mmR * mmT + n % mmT))

/-- One tile puts its own cells in place and leaves the others. -/
theorem placed_block {c out : Buffer Int32} {N z j m n : Nat} (hjN : j * mmT + mmT ≤ N) (hn : n < N)
    (h : Placed c N out m n ∨ (z * mmR ≤ m ∧ m < z * mmR + mmR ∧ j * mmT ≤ n ∧ n < j * mmT + mmT)) :
    Placed c N (out.writeRows (z * mmR * N + j * mmT) N mmR mmT fun r x =>
      c.cell ((z * (N / mmT) + j) * (mmR * mmT) + r * mmT + x)) m n := by
  unfold Placed
  rw [Buffer.cell_writeRows_block _ _ _ _ _ hjN hn]
  split
  · rename_i hin
    have hz' : m / mmR = z := by simp only [mmR] at hin ⊢; omega
    have hr' : m % mmR = m - z * mmR := by simp only [mmR] at hin ⊢; omega
    have hj' : n / mmT = j := by simp only [mmT] at hin ⊢; omega
    have ht' : n % mmT = n - j * mmT := by simp only [mmT] at hin ⊢; omega
    rw [hz', hr', hj', ht', Nat.add_assoc]
  · rename_i hout
    rcases h with h | h
    · exact h
    · exact absurd h hout

/-- The tiles of C are put back in their rows and columns. -/
theorem unpackC_eq {c : Buffer Int32} {M N : Nat} (hM : M / mmR * mmR = M) (hN : N / mmT * mmT = N)
    (hc : c.size = M / mmR * (N / mmT) * (mmR * mmT)) :
    ∃ out, unpackC c M N = some out ∧ ∀ m < M, ∀ n < N, Placed c N out m n := by
  rw [unpackC, if_neg (not_not.mpr hc)]
  -- after the tiles before (z, j), their cells are in place
  have key := forRange_option (fun z out => forRange (N / mmT) out fun j out =>
      assignBlock out (z * mmR * N + j * mmT) N c ((z * (N / mmT) + j) * (mmR * mmT)) mmT mmR mmT)
    (.replicate (M * N) 0) (n := M / mmR)
    (fun z out => out.size = M * N ∧ ∀ m < z * mmR, ∀ n < N, Placed c N out m n) ⟨rfl, fun m hm => by omega⟩ ?_
  · obtain ⟨out, hrun, -, hdone⟩ := key
    exact ⟨out, hrun, fun m hm => hdone m (hM.symm ▸ hm)⟩
  · rintro z hz out ⟨hsize, hdone⟩
    have hinner := forRange_option (fun j out =>
        assignBlock out (z * mmR * N + j * mmT) N c ((z * (N / mmT) + j) * (mmR * mmT)) mmT mmR mmT) out (n := N / mmT)
      (fun j out => out.size = M * N ∧ (∀ m < z * mmR, ∀ n < N, Placed c N out m n) ∧
        ∀ m, z * mmR ≤ m → m < z * mmR + mmR → ∀ n < j * mmT, Placed c N out m n)
      ⟨hsize, hdone, fun m _ _ n hn => by omega⟩ ?_
    · obtain ⟨out', hrun, hsize', hdone', hrow⟩ := hinner
      refine ⟨out', hrun, hsize', fun m hm n hn => ?_⟩
      rw [Nat.succ_mul] at hm
      rcases Nat.lt_or_ge m (z * mmR) with hlt | hge
      · exact hdone' m hlt n hn
      · exact hrow m hge hm n (by rwa [hN])
    · rintro j hj out ⟨hsize, hdone, hrow⟩
      have hjN : j * mmT + mmT ≤ N := by
        have hcol := row_add_le hj (Nat.le_refl mmT)
        rwa [hN] at hcol
      have hblock : assignBlock out (z * mmR * N + j * mmT) N c ((z * (N / mmT) + j) * (mmR * mmT)) mmT mmR mmT =
          some (out.writeRows (z * mmR * N + j * mmT) N mmR mmT fun r x =>
            c.cell ((z * (N / mmT) + j) * (mmR * mmT) + r * mmT + x)) := by
        refine assignBlock_rows (fun r hr => ?_) ?_
        · have hend : (z * mmR + r) * N + (j * mmT + mmT) ≤ M / mmR * mmR * N := row_add_le (row_add_lt hz hr) hjN
          rw [hM, Nat.add_mul] at hend
          omega
        · rw [hc, ← Nat.succ_mul]
          exact Nat.mul_le_mul_right _ (row_add_lt hz hj)
      refine ⟨_, hblock, by rw [Buffer.size_writeRows]; exact hsize,
        fun m hm n hn => placed_block hjN hn (Or.inl (hdone m hm n hn)), fun m hlow hhigh n hn => ?_⟩
      rw [Nat.succ_mul] at hn
      refine placed_block hjN (by omega) ?_
      rcases Nat.lt_or_ge n (j * mmT) with hlt | hge
      · exact Or.inl (hrow m hlow hhigh n hlt)
      · exact Or.inr ⟨hlow, hhigh, hge, hn⟩

/-! ## The product -/

/-- A lane of a tile of C is a cell of the product. -/
theorem toInt_tileC {aie : Aie} {lane : aie.Acc → Nat → Int} (haie : aie.Documented lane) {A B pa pb : Buffer Int8}
    {K N z j r t : Nat} (hK : K / mmS * mmS = K) (hK0 : 0 < K / mmS) (hbound : K * 1024 < 2 ^ 31) (hr : r < mmR) (ht : t < mmT)
    (hj : j < N / mmT) (hN : N / mmT * mmT = N) (hB4 : ∀ x < K * N, -8 ≤ (B.cell x).toInt ∧ (B.cell x).toInt ≤ 7)
    (hpa : ∀ i < K / mmS, ∀ l < mmR * mmS, pa.cell ((z * (K / mmS) + i) * (mmR * mmS) + l) = tileCell A K mmR mmS z i l)
    (hpb : ∀ i < K / mmS, ∀ l < mmS * mmT, nibble (pb.cell ((i * (N / mmT) + j) * (mmS * mmT / 2) + l / 2)) (l % 2) =
      (tileCell B N mmS mmT i j l).toBitVec.extractLsb' 0 4) :
    (aie.toVector (tileC aie pa pb (K / mmS) (N / mmT) z j) (r * mmT + t)).toInt =
      ∑ k ∈ range K, (A.cell ((z * mmR + r) * K + k)).toInt * (B.cell (k * N + (j * mmT + t))).toInt := by
  have hlane : r * mmT + t < mmR * mmT := row_add_lt hr ht
  have hn : K / mmS - 1 + 1 = K / mmS := Nat.sub_add_cancel hK0
  have hfit : (K / mmS - 1 + 1) * (16 * 1024) < 2 ^ 31 := by
    rw [hn, ← Nat.mul_assoc]
    exact lt_of_eq_of_lt (congrArg (· * 1024) hK) hbound
  have hsum := lane_accOf haie (fun i l => pa.cell ((z * (K / mmS) + i) * (mmR * mmS) + l))
    (fun i => aie.loadInt4 pb ((i * (N / mmT) + j) * (mmS * mmT / 2))) hr ht (K / mmS - 1) hfit
  have hdot : ∀ i < K / mmS, tileDot (fun l => pa.cell ((z * (K / mmS) + i) * (mmR * mmS) + l))
      (aie.loadInt4 pb ((i * (N / mmT) + j) * (mmS * mmT / 2))) r t =
      ∑ s ∈ range mmS, (A.cell ((z * mmR + r) * K + (i * mmS + s))).toInt *
        (B.cell ((i * mmS + s) * N + (j * mmT + t))).toInt := by
    intro i hi
    refine sum_congr rfl ?_
    intro s hs
    have hs' := mem_range.mp hs
    have hrow : i * mmS + s < K := hK ▸ row_add_lt hi hs'
    have hcol : j * mmT + t < N := hN ▸ row_add_lt hj ht
    have hB := hB4 ((i * mmS + s) * N + (j * mmT + t)) (row_add_lt hrow hcol)
    beta_reduce
    rw [hpa i hi _ (row_add_lt hr hs'), haie.loadInt4 _ _ _ (row_add_lt hs' ht), hpb i hi _ (row_add_lt hs' ht)]
    unfold tileCell
    rw [row_add_div hs', row_add_mod hs', row_add_div ht, row_add_mod ht]
    have hposA : z * mmR * K + i * mmS + r * K + s = (z * mmR + r) * K + (i * mmS + s) := by ring
    have hposB : i * mmS * N + j * mmT + s * N + t = (i * mmS + s) * N + (j * mmT + t) := by ring
    rw [hposA, hposB, toInt_extractLsb' hB]
  rw [tileC, haie.toVector _ _ hlane, hsum, hn, sum_congr rfl fun i hi => hdot i (mem_range.mp hi),
    sum_range_blocks (fun k => (A.cell ((z * mmR + r) * K + k)).toInt * (B.cell (k * N + (j * mmT + t))).toInt), hK]
  rw [hsum]
  refine lt_of_le_of_lt (abs_sum_range_le fun i _ => abs_tileDot_le _ _ r t) ?_
  exact_mod_cast hfit

/-- The int8 x int4 path computes the plain matrix product: for all M, K and N that are positive multiples of 4, 16 and 16,
every int8 matrix A, every B with entries from -8 to 7 and K * 1024 < 2^31, in the default nibble mode, for any number of
repetitions and whatever the output held before. -/
theorem int4_gemm_exact (aie : Aie) (lane : aie.Acc → Nat → Int) (haie : aie.Documented lane) (M K N rep : Nat)
    (hM : 0 < M ∧ 4 ∣ M) (hK : 0 < K ∧ 16 ∣ K) (hN : 0 < N ∧ 16 ∣ N) (hrep : 1 ≤ rep) (hbound : K * 1024 < 2 ^ 31)
    (A B : Buffer Int8) (hA : A.size = M * K) (hB : B.size = K * N)
    (hB4 : ∀ x < K * N, -8 ≤ (B.cell x).toInt ∧ (B.cell x).toInt ≤ 7) (cOut : Buffer Int32) (hC : cOut.size = M * N) :
    ∃ pa pb c out, packA A M K = some pa ∧ packBInt4 (.ofEnv none) B K N = some pb ∧
      matmulI8I4I32 aie M K N rep pa pb cOut = some c ∧ unpackC c M N = some out ∧
      ∀ m < M, ∀ n < N,
        out.cell (m * N + n) = int32Dot (fun k => A.cell (m * K + k)) (fun k => B.cell (k * N + n)) K ∧
        (out.cell (m * N + n)).toInt = ∑ k ∈ range K, (A.cell (m * K + k)).toInt * (B.cell (k * N + n)).toInt := by
  have hM' : M / mmR * mmR = M := Nat.div_mul_cancel hM.2
  have hK' : K / mmS * mmS = K := Nat.div_mul_cancel hK.2
  have hN' : N / mmT * mmT = N := Nat.div_mul_cancel hN.2
  have hK0 : 0 < K / mmS := Nat.div_pos (Nat.le_of_dvd hK.1 hK.2) (by decide)
  have hMN : M / mmR * (N / mmT) * (mmR * mmT) = M * N := by rw [Nat.mul_mul_mul_comm, hM', hN']
  obtain ⟨pb, hpb, hpbsize, hnib⟩ := packBInt4_eq hK' hN' (Nat.le_of_eq hB.symm)
  have hpa := packA_eq hM' hK' (Nat.le_of_eq hA.symm)
  have hrun : matmulI8I4I32 aie M K N rep ((Buffer.replicate (M / mmR * (K / mmS) * (mmR * mmS)) 0).writeTiles
      (M / mmR) (K / mmS) (mmR * mmS) (tileCell A K mmR mmS)) pb cOut = _ :=
    matmulI8I4I32_eq hrep hK0 (Nat.le_refl _) (Nat.le_of_eq hpbsize.symm) (Nat.le_of_eq (hMN.trans hC.symm))
  obtain ⟨out, hout, hplaced⟩ := unpackC_eq hM' hN' (c := cOut.writeTiles (M / mmR) (N / mmT) (mmR * mmT) fun z j =>
    aie.toVector (tileC aie _ pb (K / mmS) (N / mmT) z j)) (hC.trans hMN.symm)
  refine ⟨_, pb, _, out, hpa, hpb, hrun, hout, fun m hm n hn => ?_⟩
  have hz : m / mmR < M / mmR := Nat.div_lt_of_lt_mul (by rwa [Nat.mul_comm, hM'])
  have hj : n / mmT < N / mmT := Nat.div_lt_of_lt_mul (by rwa [Nat.mul_comm, hN'])
  have hr : m % mmR < mmR := Nat.mod_lt m (by decide)
  have ht : n % mmT < mmT := Nat.mod_lt n (by decide)
  have hexact : (out.cell (m * N + n)).toInt = ∑ k ∈ range K, (A.cell (m * K + k)).toInt * (B.cell (k * N + n)).toInt := by
    rw [hplaced m hm n hn, Buffer.cell_writeTiles _ _ hz hj (row_add_lt hr ht),
      toInt_tileC haie hK' hK0 hbound hr ht hj hN' hB4 (fun i hi l hl => Buffer.cell_writeTiles _ _ hz hi hl)
        (fun i hi l hl => hnib i hi _ hj l hl), Nat.div_add_mod', Nat.div_add_mod']
  refine ⟨Int32.toInt_inj.mp ?_, hexact⟩
  have habs : |∑ k ∈ range K, (A.cell (m * K + k)).toInt * (B.cell (k * N + n)).toInt| < 2 ^ 31 := by
    refine lt_of_le_of_lt (abs_sum_range_le (B := 1024) fun k hk => ?_) (by exact_mod_cast hbound)
    have hb : |(B.cell (k * N + n)).toInt| ≤ 8 :=
      abs_le.mpr (by have := hB4 _ (row_add_lt hk hn); omega)
    rw [abs_mul]
    exact mul_le_mul (abs_int8_le _) hb (abs_nonneg _) (by decide)
  rw [hexact, toInt_int32Dot habs]

/-- A vector unit whose lanes are exact integers. -/
def exactAie : Aie where
  Acc := Nat → Int
  loadInt4 b p l := nibble (b.cell (p + l / 2)) (l % 2)
  mul a b x := tileDot a b (x / mmT) (x % mmT)
  mac acc a b x := acc x + tileDot a b (x / mmT) (x % mmT)
  toVector acc x := Int32.ofInt (acc x)

theorem exactAie_documented : exactAie.Documented fun acc x => acc x where
  loadInt4 _ _ _ _ := rfl
  mul a b r _ t ht := by
    simp only [exactAie]
    rw [row_add_div ht, row_add_mod ht]
  mac acc a b r _ t ht _ := by
    simp only [exactAie]
    rw [row_add_div ht, row_add_mod ht]
  toVector acc x _ h := Int32.toInt_ofInt.trans (bmod_eq_of_abs_lt h)

/-- Two row tiles, two K-blocks and two column tiles, run twice. -/
theorem int4_gemm_exact_two_blocks :
    ∃ pa pb c out, packA (.replicate (8 * 32) (-128)) 8 32 = some pa ∧
      packBInt4 (.ofEnv none) (.replicate (32 * 32) (-8)) 32 32 = some pb ∧
      matmulI8I4I32 exactAie 8 32 32 2 pa pb (.replicate (8 * 32) 7) = some c ∧ unpackC c 8 32 = some out ∧
      ∀ m < 8, ∀ n < 32,
        out.cell (m * 32 + n) = int32Dot (fun k => (Buffer.replicate (8 * 32) (-128)).cell (m * 32 + k))
          (fun k => (Buffer.replicate (32 * 32) (-8)).cell (k * 32 + n)) 32 ∧
        (out.cell (m * 32 + n)).toInt = ∑ k ∈ range 32, ((Buffer.replicate (8 * 32) (-128 : Int8)).cell (m * 32 + k)).toInt *
          ((Buffer.replicate (32 * 32) (-8 : Int8)).cell (k * 32 + n)).toInt :=
  int4_gemm_exact exactAie (fun acc x => acc x) exactAie_documented 8 32 32 2 (by decide) (by decide) (by decide) (by decide)
    (by decide) (.replicate (8 * 32) (-128)) (.replicate (32 * 32) (-8)) rfl rfl
    (fun _ _ => (by decide : -8 ≤ (-8 : Int8).toInt ∧ (-8 : Int8).toInt ≤ 7)) (.replicate (8 * 32) 7) rfl

end Int4

end BitnetXdna
