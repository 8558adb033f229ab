import BitnetXdna.Shim.State
import BitnetXdna.I2s.Format

/-!
# Residency: from the packed tensor to its uploaded slabs

`build_b_kn`, `get_resident` and `get_resident_logged` of `runtime/bitnet_xdna.cpp`.
-/

namespace BitnetXdna

open Exec

/-- One row of `build_b_kn`: row `nBegin + j` of the tensor is unpacked whole into the scratch row, and its codes from
`kBegin` on, less one, go to row `j` of the slab. -/
def buildRow (src0 : Buffer UInt8) (K nBegin kBegin j : Nat) (st : Buffer Int8 × Buffer UInt8) :
    Option (Buffer Int8 × Buffer UInt8) := do
  let rowBytes := K / 4
  let n := nBegin + j
  let codes ← i2sUnpackRow src0 (n * rowBytes) K st.2 0
  let dst := j * kKChunk
  let kmax := min kKChunk (K - kBegin)
  let out ← forRange kmax st.1 fun i out => do
    let c ← codes.load (kBegin + i)
    out.store (dst + i) (c.toInt8 - 1)
  pure (out, codes)

/-- `build_b_kn`: the slab of the chunk that starts at row `nBegin` and column `kBegin`. Pads stay zero. -/
def buildBKn (src0 : Buffer UInt8) (K N nBegin kBegin : Nat) (out : Buffer Int8) : Option (Buffer Int8) := do
  let codes : Buffer UInt8 := .replicate K 0
  let out ← out.fill 0 (kNChunk * kKChunk) 0
  -- the loop over `j < kNChunk` breaks at the first row at or past `N`
  let st ← forRange (min kNChunk (N - nBegin)) (out, codes) (buildRow src0 K nBegin kBegin)
  pure st.1

/-- The chunk loop of `get_resident`: the slabs of all chunks, row-major over (n_chunk, k_chunk), built in one buffer that is
reused from chunk to chunk and uploaded one by one. -/
def uploadChunks (h : Host) (src0 : Buffer UInt8) (K N : Nat) (plan : ShapePlan) : ShimM (List (Buffer Int8)) := do
  let slab : Buffer Int8 := .replicate (kKChunk * kNChunk) 0
  let (_, chunks) ← forRange plan.nChunks (slab, []) fun nc st =>
    forRange plan.kChunks st fun kc (slab, chunks) => do
      let slab ← ofOption (buildBKn src0 K N (nc * kNChunk) (kc * kKChunk) slab)
      let w ← upload h slab
      modify fun s => { s with gResidentBytes := s.gResidentBytes + kKChunk * kNChunk }
      pure (slab, chunks ++ [w])
  pure chunks

/-- `get_resident`, on the tensor at `src0` whose bytes are `packed` when the call is made. -/
def getResident (h : Host) (src0 : Ptr) (packed : Buffer UInt8) (K N : Nat) : ShimM (Option Resident) := do
  let s ← get
  if src0 ∈ s.gFailed then pure none
  else
    match s.gResident.lookup src0 with
    | some res =>
      -- guard against pointer reuse: the chunks belong to the shape they were built for
      if res.K ≠ K ∨ res.N ≠ N then pure none else pure (some res)
    | none =>
      match planFor K N with
      | none => pure none
      | some plan => do
        programFor h h.singleStem
        logEvent (.repack src0)
        let chunks ← uploadChunks h packed K N plan
        let res : Resident := ⟨chunks, K, N, plan⟩
        modify fun s => { s with gResident := Table.emplace s.gResident src0 res }
        pure (some res)

/-- `get_resident_logged`: a refusal and an exception are recorded against the tensor. -/
def getResidentLogged (h : Host) (src0 : Ptr) (packed : Buffer UInt8) (K N : Nat) : ShimM (Option Resident) := do
  let s ← get
  if src0 ∈ s.gFailed then pure none
  else
    catchAll
      (do
        let r ← getResident h src0 packed K N
        match r with
        | some res => pure (some res)
        | none => do
          modify fun s => { s with gFailed := Table.emplace s.gFailed src0 "plan/shape rejected" }
          pure none)
      fun e => do
        modify fun s => { s with gFailed := Table.emplace s.gFailed src0 e.reason }
        pure none

/-! ## A slab is the decoded chunk, padded with zeros -/

/-- The cell of the slab at (nBegin, kBegin): the signed byte of the weight it stands for, or zero outside the tensor. -/
def slabCell (src0 : Buffer UInt8) (K N nBegin kBegin x : Nat) : Int8 :=
  if nBegin + x / kKChunk < N ∧ kBegin + x % kKChunk < K then
    (i2sCode src0 ((nBegin + x / kKChunk) * (K / 4)) (kBegin + x % kKChunk)).toInt8 - 1
  else 0

/-- One row of the slab. The scratch row is overwritten whole, so it does not matter what it held. -/
theorem buildRow_eq {src0 : Buffer UInt8} {K N nBegin kBegin j : Nat} {out : Buffer Int8} {codes : Buffer UInt8}
    (hK : 128 ∣ K) (hs : N * (K / 4) ≤ src0.size) (ho : kNChunk * kKChunk ≤ out.size) (hc : codes.size = K)
    (hj : j < kNChunk) (hn : nBegin + j < N) :
    buildRow src0 K nBegin kBegin j (out, codes) =
      some (out.write (j * kKChunk) (min kKChunk (K - kBegin))
          (fun i => (i2sCode src0 ((nBegin + j) * (K / 4)) (kBegin + i)).toInt8 - 1),
        codes.write 0 K (i2sCode src0 ((nBegin + j) * (K / 4)))) := by
  have hq : K / 128 * 128 = K := Nat.div_mul_cancel hK
  have hrow := row_add_le (s := K / 4) hn (Nat.le_refl _)
  have hunpack : i2sUnpackRow src0 ((nBegin + j) * (K / 4)) K codes 0 =
      some (codes.write 0 K (i2sCode src0 ((nBegin + j) * (K / 4)))) := by
    rw [i2sUnpackRow_eq (by omega) (by omega), hq]
  have hcopy : forRange (min kKChunk (K - kBegin)) out (fun i out => do
      let c ← (codes.write 0 K (i2sCode src0 ((nBegin + j) * (K / 4)))).load (kBegin + i)
      out.store (j * kKChunk + i) (c.toInt8 - 1)) =
      some (out.write (j * kKChunk) (min kKChunk (K - kBegin))
        fun i => (i2sCode src0 ((nBegin + j) * (K / 4)) (kBegin + i)).toInt8 - 1) := by
    refine Buffer.forRange_store _ ?_
    intro i hi b hb
    have hpos := row_add_lt (m := kNChunk) (s := kKChunk) (r := j) (j := i) hj (by omega)
    rw [Buffer.load_eq (by rw [Buffer.size_write]; omega), Buffer.cell_write, if_pos (by omega), Nat.sub_zero]
    exact Buffer.store_eq _ (by omega)
  simp only [buildRow, hunpack, Option.bind_eq_bind, Option.bind_some] at hcopy ⊢
  rw [hcopy]
  rfl

/-- `build_b_kn` writes the whole slab: no cell keeps what an earlier chunk left there. -/
theorem buildBKn_eq {src0 : Buffer UInt8} {K N nBegin kBegin : Nat} {out : Buffer Int8} (hK : 128 ∣ K)
    (hs : N * (K / 4) ≤ src0.size) (ho : kNChunk * kKChunk ≤ out.size) :
    buildBKn src0 K N nBegin kBegin out =
      some (out.write 0 (kNChunk * kKChunk) (slabCell src0 K N nBegin kBegin)) := by
  have hloop := forRange_option (buildRow src0 K nBegin kBegin) (n := min kNChunk (N - nBegin))
    ((out.write 0 (kNChunk * kKChunk) fun _ => 0), Buffer.replicate K 0)
    (fun j st => st.1 = (out.write 0 (kNChunk * kKChunk) fun _ => 0).writeRows 0 kKChunk j (min kKChunk (K - kBegin))
        (fun j i => (i2sCode src0 ((nBegin + j) * (K / 4)) (kBegin + i)).toInt8 - 1) ∧ st.2.size = K)
    ⟨rfl, rfl⟩ ?_
  · obtain ⟨st, hrun, hout, -⟩ := hloop
    have hfill : out.fill 0 (kNChunk * kKChunk) 0 = some (out.write 0 (kNChunk * kKChunk) fun _ => 0) :=
      Buffer.fill_eq 0 (by omega)
    simp only [buildBKn, hfill, hrun, Option.bind_eq_bind, Option.bind_some, hout]
    refine congrArg some (Buffer.ext_cell (Buffer.size_writeRows ..) fun x => ?_)
    have hxr := Nat.div_add_mod' x kKChunk
    have hxm : x % kKChunk < kKChunk := Nat.mod_lt x (by decide)
    by_cases hin : nBegin + x / kKChunk < N ∧ kBegin + x % kKChunk < K ∧ x < kNChunk * kKChunk
    · have hrow : x / kKChunk < kNChunk := Nat.div_lt_of_lt_mul (by rw [Nat.mul_comm]; exact hin.2.2)
      have hcell := Buffer.cell_writeRows (out.write 0 (kNChunk * kKChunk) fun _ => 0) 0
        (v := fun j i => (i2sCode src0 ((nBegin + j) * (K / 4)) (kBegin + i)).toInt8 - 1)
        (Nat.min_le_left kKChunk (K - kBegin)) (show x / kKChunk < min kNChunk (N - nBegin) by omega)
        (show x % kKChunk < min kKChunk (K - kBegin) by omega)
      rw [Nat.zero_add, hxr] at hcell
      rw [hcell, Buffer.cell_write, if_pos (by omega), Nat.sub_zero, slabCell, if_pos ⟨hin.1, hin.2.1⟩]
    · rw [Buffer.cell_writeRows_of_not, Buffer.cell_write, Buffer.cell_write]
      · by_cases hx : x < kNChunk * kKChunk
        · rw [if_pos (by omega), if_pos (by omega), Nat.sub_zero, slabCell, if_neg (by omega)]
        · rw [if_neg (by omega), if_neg (by omega)]
      · intro r hr
        by_contra hc
        -- a cell of row `r` that is written would lie inside the tensor
        have hlt : x - r * kKChunk < kKChunk := by omega
        have hdiv : x / kKChunk = r := by
          rw [show x = kKChunk * r + (x - r * kKChunk) by rw [Nat.mul_comm]; omega, Nat.mul_add_div (by decide),
            Nat.div_eq_of_lt hlt, Nat.add_zero]
        have hend := row_add_lt (m := kNChunk) (s := kKChunk) (r := r) (by omega) hlt
        rw [hdiv] at hin hxr
        omega
  · rintro j hj ⟨o, codes⟩ ⟨ho', hc'⟩
    simp only at ho' hc'
    refine ⟨_, buildRow_eq (N := N) hK hs (by rw [ho']; simpa using ho) hc' (by omega) (by omega), ?_, hc'⟩
    simp only [ho', Buffer.writeRows, Nat.zero_add]

end BitnetXdna
