import BitnetXdna.I2s.Format
import BitnetXdna.Shim.Accumulate

/-!
# The golden accumulator and epilogue

`i2s_ref_accumulate` and `i2s_apply_epilogue` of `runtime/bitnet_i2s.c`: the biased sums over unsigned codes, and the epilogue
that subtracts the activation sum from them in int32.
-/

namespace BitnetXdna

open Finset

/-- The inner loop of `i2s_ref_accumulate`: the biased sum of one row of codes and one row of activations. -/
def refDot (wCodes : Buffer UInt8) (aQ : Buffer Int8) (K w a : Nat) : Option Int32 :=
  forRange K 0 fun k s => do
    let c ← wCodes.load (w + k)
    let x ← aQ.load (a + k)
    pure (s + c.toUInt32.toInt32 * x.toInt32)

/-- `i2s_ref_accumulate`. -/
def i2sRefAccumulate (wCodes : Buffer UInt8) (aQ : Buffer Int8) (K N T : Nat) (acc : Buffer Int32) :
    Option (Buffer Int32) :=
  forRange T acc fun t acc =>
    forRange N acc fun n acc => do
      let s ← refDot wCodes aQ K (n * K) (t * K)
      acc.store (t * N + n) s

/-- `i2s_apply_epilogue`. -/
def i2sApplyEpilogue {F : Type} [EpilogueArith F] (acc : Buffer Int32) (N T : Nat) (actScales : Buffer F)
    (actSums : Buffer Int32) (ws : F) (dst : Buffer F) : Option (Buffer F) :=
  forRange T dst fun t dst => do
    let scale ← actScales.load t
    let post := ws / scale
    let asum ← actSums.load t
    forRange N dst fun n dst => do
      let a ← acc.load (t * N + n)
      dst.store (t * N + n) (EpilogueArith.ofInt32 (a - asum) * post)

/-! ## What they compute -/

/-- The int32 sum that `refDot` computes. -/
def refSum (wCodes : Buffer UInt8) (aQ : Buffer Int8) (K w a : Nat) : Int32 :=
  int32Sum (fun k => (wCodes.cell (w + k)).toUInt32.toInt32 * (aQ.cell (a + k)).toInt32) K

theorem refDot_eq {wCodes : Buffer UInt8} {aQ : Buffer Int8} {K w a : Nat} (hw : w + K ≤ wCodes.size)
    (ha : a + K ≤ aQ.size) : refDot wCodes aQ K w a = some (refSum wCodes aQ K w a) := by
  refine forRange_eq_some _
    (int32Sum fun k => (wCodes.cell (w + k)).toUInt32.toInt32 * (aQ.cell (a + k)).toInt32) fun k hk => ?_
  rw [Buffer.load_eq (by omega), Buffer.load_eq (by omega)]
  rfl

/-- The golden accumulator writes the sums row after row. -/
theorem i2sRefAccumulate_eq {wCodes : Buffer UInt8} {aQ : Buffer Int8} {K N T : Nat} {acc : Buffer Int32}
    (hw : N * K ≤ wCodes.size) (ha : T * K ≤ aQ.size) (hacc : T * N ≤ acc.size) :
    i2sRefAccumulate wCodes aQ K N T acc =
      some (acc.writeRows 0 N T N fun t n => refSum wCodes aQ K (n * K) (t * K)) := by
  refine Buffer.forRange_writeRow _ ?_
  intro t ht b hb
  rw [Nat.zero_add]
  refine Buffer.forRange_store _ ?_
  intro n hn b' hb'
  have hrow := row_add_le (s := K) hn (Nat.le_refl K)
  have hcol := row_add_le (s := K) ht (Nat.le_refl K)
  have hpos := row_add_lt (s := N) ht hn
  rw [refDot_eq (by omega) (by omega)]
  exact Buffer.store_eq _ (by omega)

/-- The golden epilogue writes its rows. -/
theorem i2sApplyEpilogue_eq {F : Type} [EpilogueArith F] {acc : Buffer Int32} {N T : Nat} {actScales : Buffer F}
    {actSums : Buffer Int32} {ws : F} {dst : Buffer F} (hacc : T * N ≤ acc.size) (hscales : T ≤ actScales.size)
    (hsums : T ≤ actSums.size) (hdst : T * N ≤ dst.size) :
    i2sApplyEpilogue acc N T actScales actSums ws dst =
      some (dst.writeRows 0 N T N fun t n =>
        EpilogueArith.ofInt32 (acc.cell (t * N + n) - actSums.cell t) * (ws / actScales.cell t)) := by
  refine Buffer.forRange_writeRow _ ?_
  intro t ht b hb
  rw [Buffer.load_eq (by omega), Buffer.load_eq (by omega), Nat.zero_add]
  refine Buffer.forRange_store _ ?_
  intro n hn b' hb'
  have hpos := row_add_lt (s := N) ht hn
  rw [Buffer.load_eq (by omega)]
  exact Buffer.store_eq _ (by omega)

end BitnetXdna
