import BitnetXdna.Lib.Buffer
import BitnetXdna.Lib.Tiling

/-!
# The int8 x int4 kernel and its host packing

`pack_A`, `pack_B_int4` and `unpack_C` of `int4_gemm.py` and `matmul_i8_i4_i32` of `mm_i8_i4.cc`. All three operands are
tile-major: tiles of 4 x 16, 16 x 16 and 4 x 16 cells, each contiguous. B has two 4-bit weights in a byte. The vector unit
is a parameter.
-/

namespace BitnetXdna

namespace Int4

/-! ## Host packing -/

/-- `R`, `MM_R`. -/
def mmR : Nat := 4

/-- `S`, `MM_S`. -/
def mmS : Nat := 16

/-- `T`, `MM_T`. -/
def mmT : Nat := 16

/-- Assign a block of `rows` rows of `n` cells: row `r` is read at `soff + r * sstride` and written at `off + r * stride`. -/
def assignBlock {α : Type} (out : Buffer α) (off stride : Nat) (src : Buffer α) (soff sstride rows n : Nat) :
    Option (Buffer α) :=
  forRange rows out fun r out => out.copy (off + r * stride) src (soff + r * sstride) n

/-- `pack_A`. -/
def packA (A : Buffer Int8) (M K : Nat) : Option (Buffer Int8) :=
  forRange (M / mmR) (.replicate (M / mmR * (K / mmS) * (mmR * mmS)) 0) fun z out =>
    forRange (K / mmS) out fun i out =>
      assignBlock out ((z * (K / mmS) + i) * (mmR * mmS)) mmS A (z * mmR * K + i * mmS) K mmR mmS

/-- The values of `NIBBLE`. -/
inductive Nibble
  | interleave
  | hiFirst
  | unzip
  deriving DecidableEq, Repr

/-- `os.environ.get("NIBBLE", "interleave")`. -/
def Nibble.ofEnv (env : Option String) : Nibble :=
  let mode := env.getD "interleave"
  if mode = "unzip" then .unzip else if mode = "hi_first" then .hiFirst else .interleave

/-- The weights in the low and the high nibble of byte `x` of `n / 2`. -/
def Nibble.lanes (mode : Nibble) (n x : Nat) : Nat × Nat :=
  match mode with
  | .interleave => (2 * x, 2 * x + 1)
  | .hiFirst => (2 * x + 1, 2 * x)
  | .unzip => (x, n / 2 + x)

/-- `((hi << 4) | lo).astype(np.int8)`, of the low four bits of two values. -/
def packNibbles (lo hi : Int8) : Int8 := (((hi &&& 0x0F).toUInt8 <<< 4) ||| (lo &&& 0x0F).toUInt8).toInt8

/-- The tiles of B, before the packing of nibbles. -/
def tilesB (B : Buffer Int8) (K N : Nat) : Option (Buffer Int8) :=
  forRange (K / mmS) (.replicate (K / mmS * (N / mmT) * (mmS * mmT)) 0) fun i tiles =>
    forRange (N / mmT) tiles fun j tiles =>
      assignBlock tiles ((i * (N / mmT) + j) * (mmS * mmT)) mmT B (i * mmS * N + j * mmT) N mmS mmT

/-- `pack_B_int4`. The halves of every other mode than the two named are interleaved; slices of unequal length do not
broadcast. -/
def packBInt4 (mode : Nibble) (B : Buffer Int8) (K N : Nat) : Option (Buffer Int8) := do
  let flat ← tilesB B K N
  if flat.size % 2 ≠ 0 then none
  else pure ⟨flat.size / 2, fun x =>
    packNibbles (flat.cell (mode.lanes flat.size x).1) (flat.cell (mode.lanes flat.size x).2)⟩

/-- `unpack_C`. -/
def unpackC (cFlat : Buffer Int32) (M N : Nat) : Option (Buffer Int32) :=
  if cFlat.size ≠ M / mmR * (N / mmT) * (mmR * mmT) then none
  else
    forRange (M / mmR) (.replicate (M * N) 0) fun z out =>
      forRange (N / mmT) out fun j out =>
        assignBlock out (z * mmR * N + j * mmT) N cFlat ((z * (N / mmT) + j) * (mmR * mmT)) mmT mmR mmT

/-! ## The vector unit -/

/-- `aie::mmul<4, 16, 16, int8, int4>` and the load of 256 `int4` lanes. `Acc` is the accumulator of a tile. -/
structure Aie where
  Acc : Type
  loadInt4 : Buffer Int8 → Nat → Nat → BitVec 4
  mul : (Nat → Int8) → (Nat → BitVec 4) → Acc
  mac : Acc → (Nat → Int8) → (Nat → BitVec 4) → Acc
  toVector : Acc → Nat → Int32

/-- A 4-bit weight of a byte, the low one first. -/
def nibble (b : Int8) (h : Nat) : BitVec 4 := b.toBitVec.extractLsb' (4 * h) 4

/-- One cell of the row-major product of a 4 x 16 and a 16 x 16 tile. -/
def tileDot (a : Nat → Int8) (b : Nat → BitVec 4) (r t : Nat) : Int :=
  ∑ s ∈ Finset.range mmS, (a (r * mmS + s)).toInt * (b (s * mmT + t)).toInt

/-- What the vector unit documents, with the exact value of each accumulator lane: `mul` sets the product, `mac` adds it
where the sum has 32 bits, and lanes of 32 bits are read out unchanged. -/
structure Aie.Documented (aie : Aie) (lane : aie.Acc → Nat → Int) : Prop where
  loadInt4 : ∀ b p l, l < mmS * mmT → aie.loadInt4 b p l = nibble (b.cell (p + l / 2)) (l % 2)
  mul : ∀ a b, ∀ r < mmR, ∀ t < mmT, lane (aie.mul a b) (r * mmT + t) = tileDot a b r t
  mac : ∀ acc a b, ∀ r < mmR, ∀ t < mmT, |lane acc (r * mmT + t) + tileDot a b r t| < 2 ^ 31 →
    lane (aie.mac acc a b) (r * mmT + t) = lane acc (r * mmT + t) + tileDot a b r t
  toVector : ∀ acc, ∀ x < mmR * mmT, |lane acc x| < 2 ^ 31 → (aie.toVector acc x).toInt = lane acc x

/-! ## The kernel -/

section Kernel

variable (aie : Aie)

/-- `aie::load_v` of `n` cells. -/
def loadV {α : Type} (b : Buffer α) (p n : Nat) : Option (Nat → α) :=
  if p + n ≤ b.size then some fun l => b.cell (p + l) else none

/-- `aie::load_v` of a tile of B from its `MMUL::size_B / 2` bytes. -/
def loadB (pB : Buffer Int8) (p : Nat) : Option (Nat → BitVec 4) :=
  if p + mmS * mmT / 2 ≤ pB.size then some (aie.loadInt4 pB p) else none

/-- `aie::store_v` of `n` cells. -/
def storeV {α : Type} (b : Buffer α) (p n : Nat) (v : Nat → α) : Option (Buffer α) :=
  if p + n ≤ b.size then some (b.write p n v) else none

/-- One tile of C: the tiles of A and B are multiplied and accumulated over the K-blocks. `pA1` and `pB1` are in bytes. -/
def tileAcc (pA pB : Buffer Int8) (colA colB pA1 pB1 : Nat) : Option aie.Acc := do
  let bTileBytes := mmS * mmT / 2
  let a0 ← loadV pA pA1 (mmR * mmS)
  let b0 ← loadB aie pB pB1
  let (_, _, c00) ← forRange (colA - 1) (pA1 + mmR * mmS, pB1 + bTileBytes * colB, aie.mul a0 b0)
    fun _ (pA1, pB1, c00) => do
      let a0 ← loadV pA pA1 (mmR * mmS)
      let b0 ← loadB aie pB pB1
      pure (pA1 + mmR * mmS, pB1 + bTileBytes * colB, aie.mac c00 a0 b0)
  pure c00

/-- One row of tiles of C. `pC1` moves on by a tile at a time. -/
def tileRow (colA colB : Nat) (pA pB : Buffer Int8) (z : Nat) (pC : Buffer Int32) : Option (Buffer Int32) := do
  let (_, pC) ← forRange colB (z * colB * (mmR * mmT), pC) fun j (pC1, pC) => do
    let c00 ← tileAcc aie pA pB colA colB (z * colA * (mmR * mmS)) (j * (mmS * mmT / 2))
    let pC ← storeV pC pC1 (mmR * mmT) (aie.toVector c00)
    pure (pC1 + mmR * mmT, pC)
  pure pC

/-- `matmul_i8i4_core<rowA, colA, colB>`. -/
def matmulI8I4Core (rowA colA colB : Nat) (pA pB : Buffer Int8) (pC : Buffer Int32) : Option (Buffer Int32) :=
  forRange rowA pC (tileRow aie colA colB pA pB)

/-- `matmul_i8_i4_i32`, with the macros `DIM_M`, `DIM_K`, `DIM_N` and `REPEAT`. -/
def matmulI8I4I32 (dimM dimK dimN rep : Nat) (aIn bIn : Buffer Int8) (cOut : Buffer Int32) : Option (Buffer Int32) :=
  forRange rep cOut fun _ cOut =>
    matmulI8I4Core aie (dimM / mmR) (dimK / mmS) (dimN / mmT) aIn bIn cOut

end Kernel

end Int4

end BitnetXdna
