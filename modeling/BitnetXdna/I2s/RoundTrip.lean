import BitnetXdna.I2s.Format

/-!
# Packing and unpacking are inverse

The packer ORs each code into a zeroed byte; the four groups of a lane occupy disjoint bit fields, so a byte holds exactly its
four codes (`packGroups_code`) and is rebuilt from them (`packGroups_unpacked`). Rows are a whole number of blocks, so the
flat blocks of the packer and the rows of the unpacker cut the packed bytes at the same places (`packed_offset`).
-/

namespace BitnetXdna

/-- The byte that the first `m` groups of a lane leave: group `g` ORs its code in at bit `6 - 2 * g`. -/
def packGroups (c : Nat → UInt8) : Nat → UInt8
  | 0 => 0
  | g + 1 => packGroups c g ||| (c g <<< (6 - 2 * g).toUInt8)

/-- The packed byte `x` of a flat sequence of codes: lane `x % 32` of block `x / 32`. -/
def packByte (codes : Buffer UInt8) (x : Nat) : UInt8 :=
  packGroups (fun g => codes.cell (x / 32 * 128 + g * 32 + x % 32)) 4

/-! ## The bit fields of a byte -/

/-- The four fields of a byte are independent: each reads back the code put there. -/
theorem packGroups_code {c : Nat → UInt8} (hc : ∀ g < 4, (c g).toNat < 4) {g : Nat} (hg : g < 4) :
    (packGroups c 4 >>> (6 - 2 * g).toUInt8) &&& 0x3 = c g := by
  have key : ∀ a b d e : Fin 4, ∀ g : Fin 4,
      (packGroups (fun i => UInt8.ofNat ([a, b, d, e].getD i 0).val) 4 >>> (6 - 2 * g.val).toUInt8) &&& 0x3 =
        UInt8.ofNat ([a, b, d, e].getD g.val 0).val := by
    decide +kernel
  have h := key ⟨_, hc 0 (by decide)⟩ ⟨_, hc 1 (by decide)⟩ ⟨_, hc 2 (by decide)⟩ ⟨_, hc 3 (by decide)⟩ ⟨g, hg⟩
  obtain rfl | rfl | rfl | rfl : g = 0 ∨ g = 1 ∨ g = 2 ∨ g = 3 := by omega
  all_goals simpa [packGroups] using h

/-- A byte is the OR of its four fields. -/
theorem packGroups_unpacked (b : UInt8) :
    packGroups (fun g => (b >>> (6 - 2 * g).toUInt8) &&& 0x3) 4 = b := by
  have key : ∀ n : Fin 256,
      packGroups (fun g => (UInt8.ofNat n.val >>> (6 - 2 * g).toUInt8) &&& 0x3) 4 = UInt8.ofNat n.val := by
    decide +kernel
  have h := key ⟨b.toNat, b.toNat_lt⟩
  simpa using h

/-! ## Packing is a write of the packed bytes -/

/-- One step of the packer writes one byte. -/
theorem packCode_eq {codes b : Buffer UInt8} {i j : Nat} (hj : j < 128) (hc : (i + 1) * 128 ≤ codes.size)
    (hb : (i + 1) * 32 ≤ b.size) :
    packCode codes i j b = some (b.write (i * 32 + j % 32) 1 fun _ =>
      b.cell (i * 32 + j % 32) ||| (codes.cell (i * 128 + j) <<< (6 - 2 * (j / 32)).toUInt8)) := by
  have h1 : i * i2sQk + j < codes.size := by simp only [i2sQk]; omega
  have h2 : i * 32 + j % 32 < b.size := by omega
  simp only [packCode, Buffer.load_eq h1, Buffer.load_eq h2, Option.bind_eq_bind, Option.bind_some]
  exact Buffer.store_eq _ h2

/-- One block of the packer, from a block of zeros: after `j` steps lane `p` holds the groups `g` with `32 * g + p < j`. -/
theorem packBlock_eq {codes b : Buffer UInt8} {i : Nat} (hc : (i + 1) * 128 ≤ codes.size) (hb : (i + 1) * 32 ≤ b.size) :
    forRange i2sQk (b.write (i * 32) 32 fun _ => 0) (packCode codes i) =
      some (b.write (i * 32) 32 fun p => packByte codes (i * 32 + p)) := by
  have key := forRange_eq_some (packCode codes i) (n := i2sQk)
    (fun j => b.write (i * 32) 32 fun p => packGroups (fun g => codes.cell (i * 128 + g * 32 + p)) ((j + 31 - p) / 32)) ?_
  · have hstart : (b.write (i * 32) 32 fun p =>
        packGroups (fun g => codes.cell (i * 128 + g * 32 + p)) ((0 + 31 - p) / 32)) =
        b.write (i * 32) 32 fun _ => 0 := by
      refine Buffer.write_congr b ?_
      intro p hp
      rw [show (0 + 31 - p) / 32 = 0 by omega]
      rfl
    have hend : (b.write (i * 32) 32 fun p =>
        packGroups (fun g => codes.cell (i * 128 + g * 32 + p)) ((i2sQk + 31 - p) / 32)) =
        b.write (i * 32) 32 fun p => packByte codes (i * 32 + p) := by
      refine Buffer.write_congr b ?_
      intro p hp
      rw [packByte, show (i2sQk + 31 - p) / 32 = 4 by simp only [i2sQk]; omega,
        show (i * 32 + p) / 32 = i by omega, show (i * 32 + p) % 32 = p by omega]
    rw [← hstart, ← hend]
    exact key
  · intro j hj
    have hj' : j < 128 := hj
    -- lane `j % 32` has had its first `j / 32` groups when step `j` adds the next one
    have hlane : (j + 31 - j % 32) / 32 = j / 32 := by omega
    have hnext : (j + 1 + 31 - j % 32) / 32 = j / 32 + 1 := by omega
    have hcode : i * 128 + j = i * 128 + j / 32 * 32 + j % 32 := by omega
    rw [packCode_eq hj' hc (by simpa using hb), Buffer.cell_write_add _ _ (by omega), hlane]
    refine congrArg some (Buffer.ext_cell rfl fun x => ?_)
    simp only [Buffer.cell_write]
    by_cases hx : i * 32 + j % 32 ≤ x ∧ x < i * 32 + j % 32 + 1
    · rw [if_pos hx, if_pos (by omega), show x - i * 32 = j % 32 by omega, hnext, packGroups, hcode]
    · rw [if_neg hx]
      by_cases hseg : i * 32 ≤ x ∧ x < i * 32 + 32
      · rw [if_pos hseg, if_pos hseg,
          show (j + 1 + 31 - (x - i * 32)) / 32 = (j + 31 - (x - i * 32)) / 32 by omega]
      · rw [if_neg hseg, if_neg hseg]

/-- The packer writes the packed bytes of the flat sequence. -/
theorem referencePack_eq {codes out : Buffer UInt8} {n : Nat} (hn : 128 ∣ n) (hc : n ≤ codes.size)
    (ho : n / 4 ≤ out.size) : referencePack codes n out = some (out.write 0 (n / 4) (packByte codes)) := by
  obtain ⟨q, rfl⟩ := hn
  have hq : 128 * q / 4 = q * 32 := by omega
  have hblocks : 128 * q / i2sQk = q := by simp only [i2sQk]; omega
  rw [hq] at ho ⊢
  have key := forRange_eq_some (fun i out => forRange i2sQk out (packCode codes i)) (n := q)
    (fun i => (out.write 0 (q * 32) fun _ => 0).write 0 (i * 32) (packByte codes)) ?_
  · simp only [referencePack, hq, Buffer.fill_eq _ (show 0 + q * 32 ≤ out.size by omega), Option.bind_eq_bind,
      Option.bind_some, hblocks]
    rw [Nat.zero_mul, Buffer.write_zero] at key
    rw [key]
    refine congrArg some (Buffer.ext_cell rfl fun x => ?_)
    simp only [Buffer.cell_write]
    split <;> rfl
  · intro i hi
    -- the blocks past `i` are still the zeros of the fill
    have hzero : (out.write 0 (q * 32) fun _ => 0).write 0 (i * 32) (packByte codes) =
        ((out.write 0 (q * 32) fun _ => 0).write 0 (i * 32) (packByte codes)).write (i * 32) 32 fun _ => 0 := by
      refine Buffer.ext_cell rfl ?_
      intro x
      simp only [Buffer.cell_write]
      by_cases hx : i * 32 ≤ x ∧ x < i * 32 + 32
      · rw [if_pos hx, if_neg (by omega), if_pos (by omega)]
      · rw [if_neg hx]
    rw [hzero, packBlock_eq (by omega) (by simp only [Buffer.size_write]; omega)]
    refine congrArg some (Buffer.ext_cell rfl fun x => ?_)
    simp only [Buffer.cell_write]
    by_cases hx : i * 32 ≤ x ∧ x < i * 32 + 32
    · rw [if_pos hx, if_pos (by omega), Nat.add_sub_cancel' hx.1, Nat.sub_zero]
    · rw [if_neg hx]
      by_cases hx' : 0 ≤ x ∧ x < 0 + i * 32
      · rw [if_pos hx', if_pos (by omega)]
      · have hnext : ¬(0 ≤ x ∧ x < 0 + (i + 1) * 32) := by omega
        rw [if_neg hx', if_neg hnext]

/-! ## The round trip -/

/-- Where weight `(n, k)` of a row-major matrix lies in the packed bytes: the flat index `n * K + k` of the packer and the
row offset `n * (K / 4)` of the unpacker name the same byte and the same group, since a row is a whole number of blocks. -/
theorem packed_offset {K n k : Nat} (hK : 128 ∣ K) (g : Nat) :
    (n * (K / 4) + k / 128 * 32 + k % 32) / 32 * 128 + g * 32 + (n * (K / 4) + k / 128 * 32 + k % 32) % 32 =
      n * K + k / 128 * 128 + g * 32 + k % 32 := by
  obtain ⟨q, rfl⟩ := hK
  have h4 : n * (128 * q / 4) = n * q * 32 := by rw [show 128 * q / 4 = q * 32 by omega, Nat.mul_assoc]
  have h1 : n * (128 * q) = n * q * 128 := by rw [Nat.mul_comm 128 q, Nat.mul_assoc]
  rw [h4, h1]
  omega

/-- What is packed unpacks to itself, weight by weight. -/
theorem i2sCode_packed (codes : Buffer UInt8) {packed : Buffer UInt8} {K N n k : Nat} (hK : 128 ∣ K)
    (hc : ∀ i < N * K, (codes.cell i).toNat < 4) (hp : ∀ x < N * K / 4, packed.cell x = packByte codes x) (hn : n < N)
    (hk : k < K) : i2sCode packed (n * (K / 4)) k = codes.cell (n * K + k) := by
  have hrow : (n + 1) * K ≤ N * K := Nat.mul_le_mul_right K hn
  rw [Nat.succ_mul] at hrow
  have hx : n * (K / 4) + k / 128 * 32 + k % 32 < N * K / 4 := by
    obtain ⟨q, rfl⟩ := hK
    have h4 : n * (128 * q / 4) = n * q * 32 := by rw [show 128 * q / 4 = q * 32 by omega, Nat.mul_assoc]
    have h1 : n * (128 * q) = n * q * 128 := by rw [Nat.mul_comm 128 q, Nat.mul_assoc]
    omega
  have hcode : ∀ g < 4, (codes.cell ((n * (K / 4) + k / 128 * 32 + k % 32) / 32 * 128 + g * 32 +
      (n * (K / 4) + k / 128 * 32 + k % 32) % 32)).toNat < 4 := by
    intro g hg
    rw [packed_offset hK g]
    obtain ⟨q, rfl⟩ := hK
    exact hc _ (by omega)
  rw [i2sCode, hp _ hx, packByte, packGroups_code hcode (by omega), packed_offset hK]
  congr 1
  omega

/-- What is unpacked packs to itself, byte by byte. -/
theorem packByte_unpacked {codes packed : Buffer UInt8} {K N x : Nat} (hK : 128 ∣ K)
    (hc : ∀ i < N * K, codes.cell i = i2sCode packed (i / K * (K / 4)) (i % K)) (hx : x < N * K / 4) :
    packByte codes x = packed.cell x := by
  have hK0 : 0 < K := by
    rcases Nat.eq_zero_or_pos K with rfl | h
    · simp at hx
    · exact h
  have hg : ∀ g < 4, codes.cell (x / 32 * 128 + g * 32 + x % 32) = (packed.cell x >>> (6 - 2 * g).toUInt8) &&& 0x3 := by
    intro g hg
    obtain ⟨q, rfl⟩ := hK
    have hN : N * (128 * q) = N * q * 128 := by rw [Nat.mul_comm 128 q, Nat.mul_assoc]
    rw [hc _ (by omega)]
    -- block `x / 32` of the flat sequence is block `x / 32 % q` of row `x / 32 / q`
    have hdm := Nat.div_add_mod (x / 32) q
    have hmod : x / 32 % q < q := Nat.mod_lt _ (by omega)
    have hidx : x / 32 * 128 + g * 32 + x % 32 =
        128 * q * (x / 32 / q) + (x / 32 % q * 128 + g * 32 + x % 32) := by
      calc x / 32 * 128 + g * 32 + x % 32
          = (q * (x / 32 / q) + x / 32 % q) * 128 + g * 32 + x % 32 := by rw [hdm]
        _ = 128 * q * (x / 32 / q) + (x / 32 % q * 128 + g * 32 + x % 32) := by ring
    have hlt : x / 32 % q * 128 + g * 32 + x % 32 < 128 * q := by omega
    rw [hidx, Nat.mul_add_div (by omega), Nat.div_eq_of_lt hlt, Nat.mul_add_mod, Nat.mod_eq_of_lt hlt, Nat.add_zero,
      i2sCode_block packed hg (by omega)]
    congr 3
    have hbyte : x / 32 / q * (128 * q / 4) = 32 * (q * (x / 32 / q)) := by
      rw [show 128 * q / 4 = q * 32 by omega]
      ring
    rw [hbyte]
    omega
  have hpack : packByte codes x = packGroups (fun g => (packed.cell x >>> (6 - 2 * g).toUInt8) &&& 0x3) 4 := by
    simp only [packByte, packGroups, hg 0 (by decide), hg 1 (by decide), hg 2 (by decide), hg 3 (by decide)]
  rw [hpack, packGroups_unpacked]

/-- Packing and unpacking are inverse on the whole format, for every number of rows and every row length that is a multiple
of 128: a matrix of codes comes back from its packed bytes, and a byte string comes back from its codes. -/
theorem i2s_pack_unpack_inverse (K N : Nat) (hK : 128 ∣ K) :
    (∀ codes out back : Buffer UInt8, codes.size = N * K → (∀ i < N * K, (codes.cell i).toNat < 4) →
      out.size = N * K / 4 → back.size = N * K →
      ∃ packed codes', referencePack codes (N * K) out = some packed ∧
        i2sUnpackMatrix packed K N back = some codes' ∧ ∀ i < N * K, codes'.cell i = codes.cell i) ∧
    (∀ bytes out back : Buffer UInt8, bytes.size = N * K / 4 → out.size = N * K → back.size = N * K / 4 →
      ∃ codes bytes', i2sUnpackMatrix bytes K N out = some codes ∧
        referencePack codes (N * K) back = some bytes' ∧ ∀ x < N * K / 4, bytes'.cell x = bytes.cell x) := by
  have hNK : 128 ∣ N * K := hK.mul_left N
  have h4 : N * (K / 4) = N * K / 4 := (Nat.mul_div_assoc N (Dvd.dvd.trans (by decide) hK)).symm
  constructor
  · intro codes out back hcs hc hos hbs
    refine ⟨_, _, referencePack_eq hNK (by omega) (by omega),
      i2sUnpackMatrix_eq hK (by rw [Buffer.size_write]; omega) (by omega), fun i hi => ?_⟩
    have hK0 : 0 < K := Nat.pos_of_ne_zero fun h => by simp [h] at hi
    rw [Buffer.cell_write, if_pos (by omega), Nat.sub_zero,
      i2sCode_packed codes (N := N) hK hc (fun x hx => by rw [Buffer.cell_write, if_pos (by omega), Nat.sub_zero])
        (Nat.div_lt_of_lt_mul (by rwa [Nat.mul_comm])) (Nat.mod_lt i hK0), Nat.div_add_mod']
  · intro bytes out back hbs hos hks
    refine ⟨_, _, i2sUnpackMatrix_eq hK (by omega) (by omega),
      referencePack_eq hNK (by rw [Buffer.size_write]; omega) (by omega), fun x hx => ?_⟩
    rw [Buffer.cell_write, if_pos (by omega), Nat.sub_zero]
    refine packByte_unpacked (N := N) hK (fun i hi => ?_) hx
    rw [Buffer.cell_write, if_pos (by omega), Nat.sub_zero]

/-- The round trip at the shape of two rows of one block. -/
theorem i2s_pack_unpack_inverse_two_rows :
    (∀ codes out back : Buffer UInt8, codes.size = 2 * 128 → (∀ i < 2 * 128, (codes.cell i).toNat < 4) →
      out.size = 2 * 128 / 4 → back.size = 2 * 128 →
      ∃ packed codes', referencePack codes (2 * 128) out = some packed ∧
        i2sUnpackMatrix packed 128 2 back = some codes' ∧ ∀ i < 2 * 128, codes'.cell i = codes.cell i) ∧
    (∀ bytes out back : Buffer UInt8, bytes.size = 2 * 128 / 4 → out.size = 2 * 128 → back.size = 2 * 128 / 4 →
      ∃ codes bytes', i2sUnpackMatrix bytes 128 2 out = some codes ∧
        referencePack codes (2 * 128) back = some bytes' ∧ ∀ x < 2 * 128 / 4, bytes'.cell x = bytes.cell x) :=
  i2s_pack_unpack_inverse 128 2 (by decide)

end BitnetXdna
