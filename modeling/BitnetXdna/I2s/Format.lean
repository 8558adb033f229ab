import BitnetXdna.Lib.Buffer
import BitnetXdna.Lib.LittleEndian
import Mathlib.Algebra.BigOperators.Group.Finset.Basic

/-!
# The I2_S weight format

`runtime/bitnet_i2s.c`: unpacking rows and whole matrices, the scale of a tensor, the change from the unsigned codes 0, 1, 2 to
the signed weights -1, 0, +1, and the packer that `tests/test_i2s_packing.c` transcribes from `quantize_i2_s`.

Pointers into a buffer are a buffer and an offset. `i2sCode` is the format itself, one code at a time; every function that
walks the packed bytes is equal to a write of these codes (`i2sUnpackRow_eq`, `i2sUnpackMatrix_eq`).
-/

namespace BitnetXdna

/-- `I2S_QK`, the weights of a block. -/
def i2sQk : Nat := 128

/-- `I2S_PER_BYTE`, the weights of a packed byte. -/
def i2sPerByte : Nat := 4

/-- `i2s_packed_bytes`. -/
def i2sPackedBytes (K N : Nat) : Nat := K * N / i2sPerByte

/-- `i2s_scale_offset`. -/
def i2sScaleOffset (K N : Nat) : Nat := i2sPackedBytes K N

/-- `i2s_tensor_scale`: the float behind the packed bytes. -/
def i2sTensorScale (packed : Buffer UInt8) (K N : Nat) : Option Float32 := do
  let s ← (Buffer.replicate 4 0).copy 0 packed (i2sScaleOffset K N) 4
  pure (Float32.ofBits (UInt32.ofNat (LittleEndian.ofLeBytes s.toList)))

/-- `i2s_unpack_row`: the packed row at `row + rowOff` is unpacked to `K` codes at `out + outOff`. -/
def i2sUnpackRow (row : Buffer UInt8) (rowOff K : Nat) (out : Buffer UInt8) (outOff : Nat) : Option (Buffer UInt8) :=
  forRange (K / i2sQk) out fun i out =>
    let blk := rowOff + i * (i2sQk / i2sPerByte)
    forRange 4 out fun g out =>
      let shift := 6 - 2 * g
      let dst := outOff + i * i2sQk + g * 32
      forRange 32 out fun p out => do
        let b ← row.load (blk + p)
        out.store (dst + p) ((b >>> shift.toUInt8) &&& 0x3)

/-- `i2s_unpack_matrix`: row `n` starts at byte `n * (K / 4)`, its codes at `n * K`. -/
def i2sUnpackMatrix (packed : Buffer UInt8) (K N : Nat) (out : Buffer UInt8) : Option (Buffer UInt8) :=
  let rowBytes := K / i2sPerByte
  forRange N out fun n out => i2sUnpackRow packed (n * rowBytes) K out (n * K)

/-- `i2s_codes_to_signed`. -/
def i2sCodesToSigned (codes : Buffer UInt8) (n : Nat) (out : Buffer Int8) : Option (Buffer Int8) :=
  forRange n out fun i out => do
    let c ← codes.load i
    out.store i (c.toInt8 - 1)

/-- One step of the packer: code `j` of block `i` is ORed into its byte. -/
def packCode (codes : Buffer UInt8) (i j : Nat) (out : Buffer UInt8) : Option (Buffer UInt8) := do
  let groupIdx := j / 32
  let groupPos := j % 32
  let c ← codes.load (i * i2sQk + j)
  let temp := c <<< (6 - 2 * groupIdx).toUInt8
  let b ← out.load (i * 32 + groupPos)
  out.store (i * 32 + groupPos) (b ||| temp)

/-- `reference_pack`, the loop of `quantize_i2_s`: the flat sequence of codes is packed in blocks of 128, with no regard to
rows. Each code is ORed into a byte that starts at zero. -/
def referencePack (codes : Buffer UInt8) (n : Nat) (out : Buffer UInt8) : Option (Buffer UInt8) := do
  let out ← out.fill 0 (n / 4) 0
  forRange (n / i2sQk) out fun i out => forRange i2sQk out (packCode codes i)

/-- The code of weight `k` in the packed row at `off`: weight `j` of a block is in byte `j % 32` of the block, at bit
position `6 - 2 * (j / 32)`. -/
def i2sCode (packed : Buffer UInt8) (off k : Nat) : UInt8 :=
  (packed.cell (off + k / 128 * 32 + k % 32) >>> (6 - 2 * (k % 128 / 32)).toUInt8) &&& 0x3

/-- The signed weight of a code: 0, 1, 2 stand for -1, 0, +1. -/
def i2sWeight (packed : Buffer UInt8) (off k : Nat) : Int := (i2sCode packed off k).toNat - 1

/-! ## Unpacking is a write of the codes -/

/-- A code is at most three. -/
theorem i2sCode_lt (packed : Buffer UInt8) (off k : Nat) : (i2sCode packed off k).toNat < 4 := by
  have h : (3 : UInt8).toNat = 2 ^ 2 - 1 := rfl
  rw [i2sCode, UInt8.toNat_and, h, Nat.and_two_pow_sub_one_eq_mod]
  exact Nat.mod_lt _ (by decide)

/-- Weight `i * 128 + g * 32 + p` is weight `p` of group `g` of block `i`. -/
theorem i2sCode_block (packed : Buffer UInt8) {off i g p : Nat} (hg : g < 4) (hp : p < 32) :
    i2sCode packed off (i * 128 + g * 32 + p) =
      (packed.cell (off + i * 32 + p) >>> (6 - 2 * g).toUInt8) &&& 0x3 := by
  have h1 : (i * 128 + g * 32 + p) / 128 = i := by omega
  have h2 : (i * 128 + g * 32 + p) % 32 = p := by omega
  have h3 : (i * 128 + g * 32 + p) % 128 / 32 = g := by omega
  rw [i2sCode, h1, h2, h3]

/-- `i2s_unpack_row` writes the codes of the whole blocks of the row. -/
theorem i2sUnpackRow_eq {row out : Buffer UInt8} {rowOff K outOff : Nat} (hr : rowOff + K / 128 * 32 ≤ row.size)
    (ho : outOff + K / 128 * 128 ≤ out.size) :
    i2sUnpackRow row rowOff K out outOff = some (out.write outOff (K / 128 * 128) (i2sCode row rowOff)) := by
  refine Buffer.forRange_write _ _ ?_
  intro i hi b hb
  have hi' : (i + 1) * 128 ≤ K / 128 * 128 := Nat.mul_le_mul_right 128 hi
  refine Buffer.forRange_write 32 (n := 4) (fun j => i2sCode row rowOff (i * 128 + j)) ?_
  intro g hg b' hb'
  refine Buffer.forRange_store (fun p => i2sCode row rowOff (i * 128 + (g * 32 + p))) ?_
  intro p hp b'' hb''
  have hload : rowOff + i * (i2sQk / i2sPerByte) + p < row.size := by
    simp only [i2sQk, i2sPerByte] at hi' ⊢
    omega
  have hstore : outOff + i * i2sQk + g * 32 + p < b''.size := by
    simp only [hb'', hb', hb, i2sQk] at hi' ⊢
    omega
  rw [Buffer.load_eq hload, ← Nat.add_assoc, i2sCode_block row hg hp]
  exact Buffer.store_eq _ hstore

/-- `i2s_unpack_matrix` writes the codes of all rows, one row after the other. -/
theorem i2sUnpackMatrix_eq {packed out : Buffer UInt8} {K N : Nat} (hK : 128 ∣ K) (hp : N * (K / 4) ≤ packed.size)
    (ho : N * K ≤ out.size) :
    i2sUnpackMatrix packed K N out =
      some (out.write 0 (N * K) fun x => i2sCode packed (x / K * (K / 4)) (x % K)) := by
  obtain ⟨q, rfl⟩ := hK
  have h128 : 128 * q / 128 * 128 = 128 * q := by omega
  have h32 : 128 * q / 128 * 32 = 128 * q / 4 := by omega
  refine Buffer.forRange_write _ _ ?_
  intro n hn b hb
  have h1 : (n + 1) * (128 * q / 4) ≤ N * (128 * q / 4) := Nat.mul_le_mul_right _ hn
  have h2 : (n + 1) * (128 * q) ≤ N * (128 * q) := Nat.mul_le_mul_right _ hn
  rw [Nat.succ_mul] at h1 h2
  have key : i2sUnpackRow packed (n * (128 * q / i2sPerByte)) (128 * q) b (n * (128 * q)) =
      some (b.write (n * (128 * q)) (128 * q) (i2sCode packed (n * (128 * q / 4)))) := by
    rw [i2sUnpackRow_eq (by simp only [i2sPerByte, h32]; omega) (by rw [h128, hb]; omega), h128]
    rfl
  rw [key, Nat.zero_add]
  refine congrArg some (Buffer.write_congr b fun j hj => ?_)
  rw [row_add_div hj, row_add_mod hj]

/-- The unpacked matrix holds the codes. -/
theorem exists_unpackMatrix {packed out : Buffer UInt8} {K N : Nat} (hK : 128 ∣ K) (hp : N * K / 4 ≤ packed.size)
    (ho : N * K ≤ out.size) : ∃ codes, i2sUnpackMatrix packed K N out = some codes ∧ codes.size = out.size ∧
      ∀ n < N, ∀ k < K, codes.cell (n * K + k) = i2sCode packed (n * (K / 4)) k := by
  have hbytes : N * (K / 4) ≤ packed.size := by
    rw [← Nat.mul_div_assoc _ (Dvd.dvd.trans (by decide) hK)]
    exact hp
  refine ⟨_, i2sUnpackMatrix_eq hK hbytes ho, rfl, fun n hn k hk => ?_⟩
  rw [← Nat.zero_add (n * K + k), Buffer.cell_write_add _ _ (row_add_lt hn hk), row_add_div hk, row_add_mod hk]

/-- `i2s_codes_to_signed` writes the codes less one. -/
theorem i2sCodesToSigned_eq {codes : Buffer UInt8} {n : Nat} {out : Buffer Int8} (hc : n ≤ codes.size)
    (ho : n ≤ out.size) :
    i2sCodesToSigned codes n out = some (out.write 0 n fun i => (codes.cell i).toInt8 - 1) := by
  refine Buffer.forRange_store _ ?_
  intro i hi b hb
  rw [Buffer.load_eq (by omega), Nat.zero_add]
  exact Buffer.store_eq _ (by omega)

/-- A code as a signed byte, less one. -/
theorem toInt_signedCode {c : UInt8} (hc : c.toNat < 4) : (c.toInt8 - 1).toInt = (c.toNat : Int) - 1 := by
  have key : ∀ c : Fin 4, ((UInt8.ofNat c.val).toInt8 - 1).toInt = (c.val : Int) - 1 := by decide
  have h := key ⟨_, hc⟩
  rwa [UInt8.ofNat_toNat] at h

/-- A code as an int32. -/
theorem toInt_code {c : UInt8} (hc : c.toNat < 4) : c.toUInt32.toInt32.toInt = c.toNat := by
  have key : ∀ c : Fin 4, (UInt8.ofNat c.val).toUInt32.toInt32.toInt = (c.val : Int) := by decide
  have h := key ⟨_, hc⟩
  rwa [UInt8.ofNat_toNat] at h

/-- The signed byte of a code is the weight the code stands for. -/
theorem toInt_code_sub_one (packed : Buffer UInt8) (off k : Nat) :
    ((i2sCode packed off k).toInt8 - 1).toInt = i2sWeight packed off k :=
  toInt_signedCode (i2sCode_lt packed off k)

/-- A signed weight is between -1 and 2. -/
theorem i2sWeight_bounds (packed : Buffer UInt8) (off k : Nat) :
    -1 ≤ i2sWeight packed off k ∧ i2sWeight packed off k ≤ 2 := by
  have h := i2sCode_lt packed off k
  rw [i2sWeight]
  omega

end BitnetXdna
