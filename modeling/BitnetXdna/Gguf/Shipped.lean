import BitnetXdna.Gguf.Accepted
import BitnetXdna.Ggml.MulMat
import BitnetXdna.I2s.RoundTrip

/-!
# From the file to the product

A matrix of codes is packed, written into a file of the format with its scale behind it, cut out by the script, and loaded. The
scale and the codes that are read from the blob are the ones that were written, so every call of `bitnet_xdna_mul_mat` on it, in
every history, multiplies by the weights of the file (`shipped_product`).
-/

namespace BitnetXdna

namespace Gguf

open Exec LittleEndian

/-- A file of the format with one of its I2_S matrices: at the place of the tensor are its codes as the packer packs them, and
behind them the scale. -/
structure Shipment (fl : File) where
  header : Header
  starts : header.bytes <+: fl.bytes
  align : Nat
  aligned : header.AlignedTo align
  start : Nat
  dataAt : header.DataAt align start
  want : String
  tensor : TensorInfo
  found : header.tensors.find? (fun t => t.name = want) = some tensor
  i2s : tensor.type = 36
  K : UInt64
  N : UInt64
  dims : tensor.dims = [K, N]
  blocks : 128 ∣ K.toNat
  codes : Buffer UInt8
  codes_size : N.toNat * K.toNat ≤ codes.size
  codes_lt : ∀ i < N.toNat * K.toNat, (codes.cell i).toNat < 4
  packed : Buffer UInt8
  pack : referencePack codes (N.toNat * K.toNat) (.replicate (N.toNat * K.toNat / 4) 0) = some packed
  scale : UInt32
  placed : packed.toList ++ leBytes 4 scale.toNat <+: fl.bytes.drop (start + tensor.offset.toNat)

namespace Shipment

variable {fl : File} (p : Shipment fl)

/-- Where the blob is. -/
def offset : Nat := p.start + p.tensor.offset.toNat

/-- The packed bytes and the scale. -/
def blob : List UInt8 := p.packed.toList ++ leBytes 4 p.scale.toNat

/-- The code of weight (n, k). -/
def code (n k : Nat) : UInt8 := p.codes.cell (n * p.K.toNat + k)

/-! ## The blob in the file -/

theorem packed_eq : p.packed = (Buffer.replicate (p.N.toNat * p.K.toNat / 4) 0).write 0 (p.N.toNat * p.K.toNat / 4)
    (packByte p.codes) := by
  have hpack := p.pack
  rw [referencePack_eq (p.blocks.mul_left _) p.codes_size (Nat.le_refl _)] at hpack
  exact (Option.some.inj hpack).symm

theorem size_packed : p.packed.size = p.K.toNat * p.N.toNat / 4 := by
  rw [packed_eq, Buffer.size_write, Buffer.size_replicate, Nat.mul_comm]

theorem length_blob : p.blob.length = p.K.toNat * p.N.toNat / 4 + 4 := by
  rw [blob, List.length_append, Buffer.length_toList, size_packed, length_leBytes]

theorem end_le : p.offset + (p.K.toNat * p.N.toNat / 4 + 4) ≤ fl.bytes.length := by
  have hle := p.placed.length_le
  rw [← blob, length_blob, List.length_drop] at hle
  rw [offset]
  omega

theorem slice_eq : slice fl.bytes p.offset (p.K.toNat * p.N.toNat / 4 + 4) = p.blob := by
  have htake := List.prefix_iff_eq_take.mp p.placed
  rw [← length_blob]
  exact htake.symm

/-- The scale is the last four bytes. -/
theorem slice_scale : slice fl.bytes (p.offset + p.K.toNat * p.N.toNat / 4) 4 = leBytes 4 p.scale.toNat := by
  have hlen : p.packed.toList.length = p.K.toNat * p.N.toNat / 4 := by rw [Buffer.length_toList, size_packed]
  rw [← slice_slice, slice_eq, slice, blob, List.drop_left' hlen, List.take_of_length_le (by rw [length_leBytes])]

theorem scale_eq : ofLeBytes (leBytes 4 p.scale.toNat) = p.scale.toNat := ofLeBytes_leBytes p.scale.toNat_lt

theorem blob_cut (F : Type) [PyFloat F] : (cut fl p.want p.K.toNat p.N.toNat p.offset : Extracted F).blob = p.blob := p.slice_eq

/-- The script cuts it out. -/
theorem main_eq (F : Type) [PyFloat F] :
    ∃ pos, main fl p.want 0 = .ok (cut fl p.want p.K.toNat p.N.toNat p.offset : Extracted F) pos := by
  have hlen : p.header.bytes.length < 2 ^ 64 := length_lt p.starts.length_le
  obtain ⟨start, hat, hplaces⟩ := Header.places (F := F) p.aligned hlen p.found p.i2s p.dims
  obtain rfl : start = p.start := hat.unique p.dataAt
  exact main_of_places hplaces p.starts p.end_le

/-! ## Memory that starts with the blob -/

section Loaded

variable {p} {b : Buffer UInt8}

theorem code_eq (hb : b.StartsWith p.blob) {n k : Nat} (hn : n < p.N.toNat) (hk : k < p.K.toNat) :
    i2sCode b (n * (p.K.toNat / 4)) k = p.code n k := by
  refine i2sCode_packed p.codes p.blocks p.codes_lt (fun x hx => ?_) hn hk
  have hsize : x < p.packed.size := by rwa [size_packed, Nat.mul_comm]
  rw [hb.cell_eq hsize, packed_eq, ← Nat.zero_add x, Buffer.cell_write_add _ _ hx, Nat.zero_add]

/-- `i2s_tensor_scale` reads the scale that was written. -/
theorem tensorScale_eq (hb : b.StartsWith p.blob) :
    i2sTensorScale b p.K.toNat p.N.toNat = some (Float32.ofBits p.scale) := by
  have hsize := hb.size
  rw [length_blob] at hsize
  have hoff : i2sScaleOffset p.K.toNat p.N.toNat = p.packed.size := p.size_packed.symm
  have hbytes : ((Buffer.replicate 4 0).write 0 4 fun j => b.cell (p.packed.size + j)).toList = leBytes 4 p.scale.toNat := by
    have hdrop := hb.drop
    rw [length_leBytes] at hdrop
    rw [← hdrop, Buffer.toList]
    refine List.map_congr_left fun j hj => ?_
    have hj4 : j < 4 := List.mem_range.mp hj
    rw [← Nat.zero_add j, Buffer.cell_write_add _ _ hj4, Nat.zero_add]
  rw [i2sTensorScale, hoff, Buffer.copy_eq (Nat.le_refl _) (by rw [size_packed]; exact hsize), Option.bind_eq_bind,
    Option.bind_some, hbytes, scale_eq, UInt32.ofNat_toNat]
  rfl

/-- `i2s_unpack_matrix` reads the codes that were written. -/
theorem unpack_eq (hb : b.StartsWith p.blob) {out : Buffer UInt8} (ho : p.N.toNat * p.K.toNat ≤ out.size) :
    ∃ codes, i2sUnpackMatrix b p.K.toNat p.N.toNat out = some codes ∧
      ∀ n < p.N.toNat, ∀ k < p.K.toNat, codes.cell (n * p.K.toNat + k) = p.code n k := by
  have hsize := hb.size
  rw [length_blob, Nat.mul_comm p.K.toNat] at hsize
  obtain ⟨codes, hunpack, -, hcode⟩ := exists_unpackMatrix p.blocks (Nat.le_trans (Nat.le_add_right ..) hsize) ho
  exact ⟨codes, hunpack, fun n hn k hk => (hcode n hn k hk).trans (code_eq hb hn hk)⟩

/-- What a call that is served leaves in a cell. -/
theorem served_cell {g : GraphNode} {dst : Buffer Float32} (hb : g.packed.StartsWith p.blob) (hK : g.ne00 = p.K.toNat)
    (hN : g.ne01 = p.N.toNat) (hws : i2sTensorScale g.packed g.ne00 g.ne01 = some g.xws) (hfits : g.Fits)
    (hs : bitnetXdnaSupports g.ne00 g.ne01 = true) (hserved : g.Served dst) {t n : Nat} (ht : t < g.ne11)
    (hn : n < p.N.toNat) : dst.cell (t * g.nb1 / 4 + n) =
      Binary32.ofInt (signedSum p.code g.act p.K.toNat t n) * (Float32.ofBits p.scale / g.xsc.cell t) := by
  obtain ⟨golden, hgolden, hcell⟩ := hserved.golden
  obtain ⟨golden', hgolden', -, hvalue⟩ := GraphNode.golden_eq hfits hs
  obtain rfl := Option.some.inj (hgolden.symm.trans hgolden')
  rw [hK, hN, tensorScale_eq hb] at hws
  have hn' : n < g.ne01 := hN.symm ▸ hn
  rw [hcell t ht n hn', hvalue t ht n hn', GraphNode.value, ← Option.some.inj hws, hK]
  refine congrArg (fun z => Binary32.ofInt z * (Float32.ofBits p.scale / g.xsc.cell t)) ?_
  refine Finset.sum_congr rfl fun k hk => ?_
  rw [MulMat.code, hK, code_eq hb hn (Finset.mem_range.mp hk)]

end Loaded

end Shipment

/-- From any file that ships a matrix the script cuts a blob out of which memory the scale and the codes that were packed are
read, and in every history of `bitnet_xdna_mul_mat`, on every device, a call on this memory that returns true leaves in each
cell of its `dst` the product of the activations with the weights of the file. -/
theorem shipped_product {F : Type} [PyFloat F] (fl : File) (p : Shipment fl) (h : Host) (gs : List GraphNode)
    (hfits : ∀ g ∈ gs, g.Fits) (hstable : Stable (gs.map fun g => g.call g.ne11)) :
    ∃ (x : Extracted F) (pos : Nat), main fl p.want 0 = .ok x pos ∧ x.K = p.K.toNat ∧ x.N = p.N.toNat ∧
      x.scale = PyFloat.ofBinary32 p.scale.toBitVec ∧
      (∀ b : Buffer UInt8, b.StartsWith x.blob → i2sTensorScale b x.K x.N = some (Float32.ofBits p.scale) ∧
        ∀ out : Buffer UInt8, x.N * x.K ≤ out.size → ∃ codes, i2sUnpackMatrix b x.K x.N out = some codes ∧
          ∀ n < x.N, ∀ k < x.K, codes.cell (n * x.K + k) = p.code n k) ∧
      ∃ rs, history (mulMatStep h) .init gs = some rs ∧ rs.map Record.input = gs ∧ ∀ r ∈ rs,
        r.input.packed.StartsWith x.blob → r.input.ne00 = x.K → r.input.ne01 = x.N →
        i2sTensorScale r.input.packed r.input.ne00 r.input.ne01 = some r.input.xws → r.output.1 = true →
        ∀ t < r.input.ne11, ∀ n < x.N, r.output.2.cell (t * r.input.nb1 / 4 + n) =
          Binary32.ofInt (signedSum p.code r.input.act x.K t n) * (Float32.ofBits p.scale / r.input.xsc.cell t) := by
  obtain ⟨pos, hmain⟩ := p.main_eq F
  obtain ⟨rs, hrun, hinput, hended⟩ := mulMat_ended h gs hfits hstable
  refine ⟨_, pos, hmain, rfl, rfl, ?_, fun b hb => ?_, rs, hrun, hinput, fun r hr hb hK hN hws hret t ht n hn => ?_⟩
  · have hbits : BitVec.ofNat 32 p.scale.toNat = p.scale.toBitVec := BitVec.ofNat_toNat 32 p.scale.toBitVec
    rw [cut, p.slice_scale, p.scale_eq, hbits]
  · rw [p.blob_cut] at hb
    exact ⟨Shipment.tensorScale_eq hb, fun out ho => Shipment.unpack_eq hb ho⟩
  · rw [p.blob_cut] at hb
    obtain ⟨hfit, hsupported, hserved, -, -⟩ := hended r hr
    exact Shipment.served_cell hb hK hN hws hfit (hsupported hret) (hserved hret) ht hn

/-- A header with an alignment of 64 and one I2_S tensor of a shape that is served. -/
def servedHeader : Header where
  version := 3
  kvs := [("general.alignment", .scalar .uint32 64)]
  tensors := [⟨"w", [2560, 2560], by decide, 36, 0⟩]

theorem length_servedHeader : servedHeader.bytes.length = 98 := by
  rw [← length_oneTensor]
  simp only [Header.bytes, TensorInfo.bytes, servedHeader, oneTensor, List.flatMap_cons, List.flatMap_nil, List.length_append,
    length_leBytes, List.length_cons, List.length_nil]

/-- The packed bytes of a matrix of ones. -/
def onesPacked : Buffer UInt8 :=
  (Buffer.replicate (2560 * 2560 / 4) 0).write 0 (2560 * 2560 / 4) (packByte (.replicate (2560 * 2560) 2))

/-- They and the scale 1.0, after the header and 30 bytes before the data. -/
def onesFile : File where
  bytes := servedHeader.bytes ++ (List.replicate 30 0 ++ (onesPacked.toList ++ leBytes 4 0x3F800000))
  size_lt := by
    have hsize : onesPacked.size = 2560 * 2560 / 4 := rfl
    simp only [List.length_append, length_servedHeader, List.length_replicate, Buffer.length_toList, length_leBytes, hsize]
    decide

def onesShipment : Shipment onesFile where
  header := servedHeader
  starts := List.prefix_append ..
  align := 64
  aligned := ⟨by decide, rfl⟩
  start := 128
  dataAt := by
    refine ⟨⟨⟨2, rfl⟩, by decide⟩, ?_⟩
    rintro m ⟨⟨q, rfl⟩, hle⟩
    rw [length_servedHeader] at hle
    omega
  want := "w"
  tensor := ⟨"w", [2560, 2560], by decide, 36, 0⟩
  found := rfl
  i2s := rfl
  K := 2560
  N := 2560
  dims := rfl
  blocks := by decide
  codes := .replicate (2560 * 2560) 2
  codes_size := Nat.le_refl _
  codes_lt := fun _ _ => show (2 : UInt8).toNat < 4 by decide
  packed := onesPacked
  pack := referencePack_eq (by decide) (Nat.le_refl _) (Nat.le_refl _)
  scale := 0x3F800000
  placed := by
    have hlen : (servedHeader.bytes ++ List.replicate 30 0).length = 128 := by
      rw [List.length_append, length_servedHeader, List.length_replicate]
    have hbytes : onesFile.bytes = (servedHeader.bytes ++ List.replicate 30 0) ++ (onesPacked.toList ++ leBytes 4 0x3F800000) :=
      (List.append_assoc ..).symm
    have hdrop : onesFile.bytes.drop 128 = onesPacked.toList ++ leBytes 4 0x3F800000 := by rw [hbytes, List.drop_left' hlen]
    exact hdrop ▸ List.prefix_rfl

/-- A prompt on it, with every activation 1. -/
def onesNode : GraphNode :=
  { plainNode 3000 with packed := .ofList onesShipment.blob 0, xws := Float32.ofBits 0x3F800000 }

theorem onesNode_fits : onesNode.Fits := by
  refine (plainNode_fits 3000).with_weights ?_
  rw [Buffer.size_ofList, Shipment.length_blob]
  exact Nat.le_add_right ..

/-- Its cells are 2560 times the scale, on a device that never fails. -/
theorem shipped_product_ones :
    ∃ (x : Extracted Rat) (pos : Nat), main onesFile "w" 0 = .ok x pos ∧ x.K = 2560 ∧ x.N = 2560 ∧
      ∃ rs, history (mulMatStep .faultless) .init [onesNode] = some rs ∧ rs.map Record.input = [onesNode] ∧ ∀ r ∈ rs,
        r.output.1 = true → ∀ t < 3000, ∀ n < 2560, r.output.2.cell (t * (4 * 2560) / 4 + n) =
          Binary32.ofInt 2560 * (Float32.ofBits 0x3F800000 / 1) := by
  have hK : onesShipment.K.toNat = 2560 := rfl
  have hN : onesShipment.N.toNat = 2560 := rfl
  obtain ⟨x, pos, hmain, hxK, hxN, -, -, rs, hrun, hinput, hcell⟩ := shipped_product (F := Rat) onesFile onesShipment
    .faultless [onesNode] (fun g hg => List.mem_singleton.mp hg ▸ onesNode_fits) fun c hc c' hc' _ _ _ i _ => by
      rw [List.mem_singleton.mp hc, List.mem_singleton.mp hc']
  refine ⟨x, pos, hmain, hxK.trans hK, hxN.trans hN, rs, hrun, hinput, fun r hr hret t ht n hn => ?_⟩
  obtain ⟨pos', hmain'⟩ := onesShipment.main_eq Rat
  have hblob : x.blob = onesShipment.blob := by
    rw [(Outcome.ok.inj (hmain.symm.trans hmain')).1, Shipment.blob_cut]
  have hnode : r.input = onesNode := List.mem_singleton.mp (hinput ▸ List.mem_map_of_mem hr)
  have hstarts : onesNode.packed.StartsWith onesShipment.blob := Buffer.startsWith_ofList ..
  have hscale := Shipment.tensorScale_eq hstarts
  rw [hK, hN] at hscale
  have h := hcell r hr
  rw [hnode, hblob, hxK, hxN, hK, hN] at h
  have hsum : signedSum onesShipment.code onesNode.act 2560 t n = 2560 := by
    simp [signedSum, MulMat.act, Shipment.code, onesShipment, onesNode, plainNode]
  rw [← hsum]
  exact h hstarts rfl rfl hscale hret t ht n hn

end Gguf

end BitnetXdna
