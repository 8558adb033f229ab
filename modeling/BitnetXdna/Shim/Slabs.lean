import BitnetXdna.Shim.Rules

/-!
# The resident slabs of a tensor

The chunk loop of `get_resident` uploads the slabs of all chunks in row-major order over (n_chunk, k_chunk), or stops at the
upload that throws. The slabs together are the plain decoding of the tensor, cut into chunks and padded with zeros.
-/

namespace BitnetXdna

open Exec

/-- The uploaded slab of chunk (nc, kc). -/
def slabBuffer (src0 : Buffer UInt8) (K N nc kc : Nat) : Buffer Int8 :=
  (Buffer.replicate (kKChunk * kNChunk) 0).write 0 (kKChunk * kNChunk)
    (slabCell src0 K N (nc * kNChunk) (kc * kKChunk))

/-- The uploaded slabs of a tensor. -/
def slabs (src0 : Buffer UInt8) (K N : Nat) (plan : ShapePlan) : List (Buffer Int8) :=
  (List.range (plan.nChunks * plan.kChunks)).map fun x => slabBuffer src0 K N (x / plan.kChunks) (x % plan.kChunks)

/-- The globals after `i` more uploads. -/
def uploaded (s : Shim) (i : Nat) : Shim :=
  { s with
    gResidentBytes := s.gResidentBytes + kKChunk * kNChunk * i
    log := s.log ++ List.replicate i (.upload true) }

@[simp] theorem uploaded_zero (s : Shim) : uploaded s 0 = s := by simp [uploaded]

@[simp] theorem uploaded_gResident (s : Shim) (i : Nat) : (uploaded s i).gResident = s.gResident := rfl

@[simp] theorem uploaded_gFailed (s : Shim) (i : Nat) : (uploaded s i).gFailed = s.gFailed := rfl

@[simp] theorem uploaded_gAcc (s : Shim) (i : Nat) : (uploaded s i).gAcc = s.gAcc := rfl

@[simp] theorem length_log_uploaded (s : Shim) (i : Nat) : (uploaded s i).log.length = s.log.length + i := by
  simp [uploaded]

/-- The slab of a cell of the tensor. -/
theorem cell_slabBuffer {src0 : Buffer UInt8} {K N nc kc x : Nat} (hx : x < kKChunk * kNChunk) :
    (slabBuffer src0 K N nc kc).cell x = slabCell src0 K N (nc * kNChunk) (kc * kKChunk) x := by
  rw [slabBuffer, Buffer.cell_write, if_pos (by omega), Nat.sub_zero]

/-- Chunk (nc, kc) is at the index the dispatch loop uses. -/
theorem slabs_getElem? (src0 : Buffer UInt8) (K N : Nat) {nc kc : Nat} (plan : ShapePlan) (hn : nc < plan.nChunks)
    (hk : kc < plan.kChunks) :
    (slabs src0 K N plan)[nc * plan.kChunks + kc]? = some (slabBuffer src0 K N nc kc) := by
  rw [slabs, List.getElem?_map, List.getElem?_range (row_add_lt hn hk), Option.map_some, row_add_div hk, row_add_mod hk]

@[simp] theorem length_slabs (src0 : Buffer UInt8) (K N : Nat) (plan : ShapePlan) :
    (slabs src0 K N plan).length = plan.nChunks * plan.kChunks := by
  simp [slabs]

/-- Only the packed bytes of the tensor matter. -/
theorem slabCell_congr {src0 src0' : Buffer UInt8} {K N nBegin kBegin x : Nat} (hK : 128 ∣ K)
    (h : ∀ i < N * (K / 4), src0.cell i = src0'.cell i) :
    slabCell src0 K N nBegin kBegin x = slabCell src0' K N nBegin kBegin x := by
  rw [slabCell, slabCell]
  split
  · next hin =>
    have hbyte : (kBegin + x % kKChunk) / 128 * 32 + (kBegin + x % kKChunk) % 32 < K / 4 := by omega
    have := row_add_lt hin.1 hbyte
    rw [i2sCode, i2sCode, h _ (by omega)]
  · rfl

/-- Two copies of one tensor have the same slabs. -/
theorem slabs_congr {src0 src0' : Buffer UInt8} {K N : Nat} {plan : ShapePlan} (hK : 128 ∣ K)
    (h : ∀ i < N * (K / 4), src0.cell i = src0'.cell i) : slabs src0 K N plan = slabs src0' K N plan := by
  refine List.map_congr_left ?_
  intro x _
  exact Buffer.write_congr _ fun j _ => slabCell_congr hK h

/-! ## The chunk loop -/

section UploadLoop

variable {U : Prop} {h : Host} {s : Shim} {src0 : Buffer UInt8} {K N : Nat} {plan : ShapePlan}

/-- One chunk: its slab is built over whatever the buffer held, and uploaded. -/
theorem wp_uploadChunk {slab : Buffer Int8} {nc kc i : Nat} {Q : Buffer Int8 × List (Buffer Int8) → Shim → Prop}
    {E : Exn → Shim → Prop} (hK : 128 ∣ K) (hs : N * (K / 4) ≤ src0.size) (hslab : slab.size = kKChunk * kNChunk)
    (hkc : kc < plan.kChunks) (hi : i = nc * plan.kChunks + kc)
    (hok : ∀ slab' : Buffer Int8, slab'.size = kKChunk * kNChunk →
      Q (slab', (List.range (i + 1)).map fun x => slabBuffer src0 K N (x / plan.kChunks) (x % plan.kChunks))
        (uploaded s (i + 1)))
    (hfail : ∀ e, ¬(h.device (s.log.length + i)).Clean →
      E e { uploaded s i with log := (uploaded s i).log ++ [.upload false] }) :
    wp U (do
      let slab ← ofOption (buildBKn src0 K N (nc * kNChunk) (kc * kKChunk) slab)
      let w ← upload h slab
      modify fun s => { s with gResidentBytes := s.gResidentBytes + kKChunk * kNChunk }
      pure (slab, (List.range i).map (fun x => slabBuffer src0 K N (x / plan.kChunks) (x % plan.kChunks)) ++ [w]))
      Q E (uploaded s i) := by
  have hcomm : kNChunk * kKChunk = kKChunk * kNChunk := Nat.mul_comm ..
  have hsize : kKChunk * kNChunk ≤
      (slab.write 0 (kNChunk * kKChunk) (slabCell src0 K N (nc * kNChunk) (kc * kKChunk))).size := hslab.ge
  rw [buildBKn_eq hK hs (by omega), wp_bind, wp_ofOption_some, wp_bind]
  refine wp_upload hsize ?_ fun e he => hfail e (by rwa [length_log_uploaded] at he)
  simp only [wp_bind, wp_modify, wp_pure]
  have hchunk : (Buffer.replicate (kKChunk * kNChunk) 0).write 0 (kKChunk * kNChunk)
      (slab.write 0 (kNChunk * kKChunk) (slabCell src0 K N (nc * kNChunk) (kc * kKChunk))).cell =
      slabBuffer src0 K N (i / plan.kChunks) (i % plan.kChunks) := by
    rw [hi, row_add_div hkc, row_add_mod hkc]
    refine Buffer.write_congr _ ?_
    intro j hj
    rw [Buffer.cell_write, if_pos (by omega), Nat.sub_zero]
  have hlist : (List.range i).map (fun x => slabBuffer src0 K N (x / plan.kChunks) (x % plan.kChunks)) ++
      [slabBuffer src0 K N (i / plan.kChunks) (i % plan.kChunks)] =
      (List.range (i + 1)).map fun x => slabBuffer src0 K N (x / plan.kChunks) (x % plan.kChunks) := by
    rw [List.range_succ, List.map_append]
    rfl
  have hstate : { uploaded s i with
      gResidentBytes := (uploaded s i).gResidentBytes + kKChunk * kNChunk
      log := (uploaded s i).log ++ [.upload true] } = uploaded s (i + 1) := by
    simp only [uploaded, List.replicate_succ', List.append_assoc, Nat.mul_succ, Nat.add_assoc]
  rw [hchunk, hlist]
  have := hok (slab.write 0 (kNChunk * kKChunk) (slabCell src0 K N (nc * kNChunk) (kc * kKChunk))) hslab
  rwa [← hstate] at this

/-- The chunk loop leaves the slabs of the tensor, or it stops at the upload that throws. -/
theorem wp_uploadChunks {Q : List (Buffer Int8) → Shim → Prop} {E : Exn → Shim → Prop} (hK : 128 ∣ K)
    (hs : N * (K / 4) ≤ src0.size) (hok : Q (slabs src0 K N plan) (uploaded s (plan.nChunks * plan.kChunks)))
    (hfail : ∀ e, ∀ i < plan.nChunks * plan.kChunks, ¬(h.device (s.log.length + i)).Clean →
      E e { uploaded s i with log := (uploaded s i).log ++ [.upload false] }) :
    wp U (uploadChunks h src0 K N plan) Q E s := by
  simp only [uploadChunks, wp_bind]
  refine wp_mono (wp_forRange (E := E) (fun nc st s' => st.1.size = kKChunk * kNChunk ∧
      st.2 = (List.range (nc * plan.kChunks)).map (fun x => slabBuffer src0 K N (x / plan.kChunks) (x % plan.kChunks)) ∧
      s' = uploaded s (nc * plan.kChunks)) ?_ ?_) ?_ (fun _ _ h => h) (fun h => h)
  · simp
  · rintro nc hnc ⟨slab, chunks⟩ s' ⟨hslab, hchunks, rfl⟩
    have key := wp_forRange (U := U) (E := E) (n := plan.kChunks) (b := (slab, chunks))
      (f := fun kc (st : Buffer Int8 × List (Buffer Int8)) => do
        let slab ← ofOption (buildBKn src0 K N (nc * kNChunk) (kc * kKChunk) st.1)
        let w ← upload h slab
        modify fun s => { s with gResidentBytes := s.gResidentBytes + kKChunk * kNChunk }
        pure (slab, st.2 ++ [w]))
      (s := uploaded s (nc * plan.kChunks))
      (fun kc st s' => st.1.size = kKChunk * kNChunk ∧
        st.2 = (List.range (nc * plan.kChunks + kc)).map
          (fun x => slabBuffer src0 K N (x / plan.kChunks) (x % plan.kChunks)) ∧
        s' = uploaded s (nc * plan.kChunks + kc)) ⟨hslab, hchunks, rfl⟩ ?_
    · simpa only [Nat.succ_mul] using key
    · rintro kc hkc ⟨slab, chunks⟩ s' ⟨hslab, hchunks, rfl⟩
      simp only at hslab hchunks
      subst hchunks
      exact wp_uploadChunk hK hs hslab hkc rfl (fun slab' hslab' => ⟨hslab', rfl, rfl⟩)
        fun e he => hfail e _ (row_add_lt hnc hkc) he
  · rintro ⟨slab, chunks⟩ s' ⟨-, hchunks, rfl⟩
    simp only at hchunks
    subst hchunks
    exact hok

end UploadLoop

/-! ## The slabs are the plain decoding -/

/-- The position of a weight inside its slab. -/
theorem slabCell_position {src0 : Buffer UInt8} {K N n k : Nat} (hn : n < N) (hk : k < K) :
    slabCell src0 K N (n / kNChunk * kNChunk) (k / kKChunk * kKChunk) (n % kNChunk * kKChunk + k % kKChunk) =
      (i2sCode src0 (n * (K / 4)) k).toInt8 - 1 := by
  have hkm : k % kKChunk < kKChunk := Nat.mod_lt k (by decide)
  rw [slabCell, row_add_div hkm, row_add_mod hkm, Nat.div_add_mod', Nat.div_add_mod', if_pos ⟨hn, hk⟩]

/-- A cell of slab (nc, kc) inside the tensor is the position of a weight. -/
theorem weight_of_slab_cell (nc kc : Nat) {x : Nat} (hx : x < kKChunk * kNChunk) :
    (nc * kNChunk + x / kKChunk) / kNChunk = nc ∧ (kc * kKChunk + x % kKChunk) / kKChunk = kc ∧
      (nc * kNChunk + x / kKChunk) % kNChunk * kKChunk + (kc * kKChunk + x % kKChunk) % kKChunk = x := by
  have hrow : x / kKChunk < kNChunk := Nat.div_lt_of_lt_mul hx
  have hcol : x % kKChunk < kKChunk := Nat.mod_lt x (by decide)
  refine ⟨row_add_div hrow, row_add_div hcol, ?_⟩
  rw [row_add_mod hrow, row_add_mod hcol, Nat.div_add_mod']

/-- The chunk loop of `get_resident` is never undefined and throws only on a device at fault; the slabs it leaves reassemble
the plain decoding of the tensor, for every number of rows and every row length that is a multiple of 128. Weight (n, k) is
in slab (n / 2560, k / 2560) at row n % 2560 and column k % 2560, and every other cell of every slab is zero. -/
theorem resident_slabs_decode (h : Host) (s : Shim) (src0 codesOut : Buffer UInt8) (signedOut : Buffer Int8) (K N : Nat)
    (hK : 128 ∣ K) (hsrc : N * K / 4 ≤ src0.size) (hcodes : N * K ≤ codesOut.size) (hsigned : N * K ≤ signedOut.size) :
    ∃ codes signed, i2sUnpackMatrix src0 K N codesOut = some codes ∧
      i2sCodesToSigned codes (N * K) signedOut = some signed ∧
      wp False (uploadChunks h src0 K N ⟨ceilDiv N kNChunk, ceilDiv K kKChunk⟩)
        (fun chunks _ =>
          chunks.length = ceilDiv N kNChunk * ceilDiv K kKChunk ∧
          (∀ n < N, ∀ k < K, ∃ w, chunks[n / kNChunk * ceilDiv K kKChunk + k / kKChunk]? = some w ∧
            w.load (n % kNChunk * kKChunk + k % kKChunk) = some (signed.cell (n * K + k))) ∧
          ∀ (i : Nat) (w : Buffer Int8), chunks[i]? = some w → ∀ x < kKChunk * kNChunk,
            (¬∃ n k, n < N ∧ k < K ∧ i = n / kNChunk * ceilDiv K kKChunk + k / kKChunk ∧
              x = n % kNChunk * kKChunk + k % kKChunk) → w.load x = some 0)
        (fun _ _ => ¬h.Clean) s := by
  have h4 : N * (K / 4) = N * K / 4 := (Nat.mul_div_assoc N (Dvd.dvd.trans (by decide) hK)).symm
  refine ⟨_, _, i2sUnpackMatrix_eq hK (by omega) hcodes, i2sCodesToSigned_eq (by simpa using hcodes) hsigned, ?_⟩
  refine wp_uploadChunks hK (by omega) ⟨length_slabs .., fun n hn k hk => ?_, fun i w hw x hx hout => ?_⟩
    fun _ _ _ hc hclean => hc (hclean _)
  · have hnc : n / kNChunk < ceilDiv N kNChunk := div_lt_ceilDiv (by decide) hn
    have hkc : k / kKChunk < ceilDiv K kKChunk := div_lt_ceilDiv (by decide) hk
    have hpos : n % kNChunk * kKChunk + k % kKChunk < kNChunk * kKChunk :=
      row_add_lt (Nat.mod_lt n (by decide)) (Nat.mod_lt k (by decide))
    rw [Nat.mul_comm kNChunk] at hpos
    refine ⟨_, slabs_getElem? src0 K N ⟨ceilDiv N kNChunk, ceilDiv K kKChunk⟩ hnc hkc, ?_⟩
    rw [Buffer.load_eq hpos, cell_slabBuffer hpos, slabCell_position hn hk]
    -- the plain decoding has the same code at `n * K + k`
    have hrow := row_add_lt hn hk
    rw [Buffer.cell_write, if_pos (by omega), Nat.sub_zero, Buffer.cell_write, if_pos (by omega), Nat.sub_zero,
      row_add_div hk, row_add_mod hk]
  · have hlt : i < (slabs src0 K N ⟨ceilDiv N kNChunk, ceilDiv K kKChunk⟩).length :=
      (List.getElem?_eq_some_iff.mp hw).1
    rw [length_slabs] at hlt
    have hkpos : 0 < ceilDiv K kKChunk := Nat.pos_of_ne_zero fun h0 => by simp [h0] at hlt
    have hnc : i / ceilDiv K kKChunk < ceilDiv N kNChunk := Nat.div_lt_of_lt_mul (by rwa [Nat.mul_comm])
    have hi : i / ceilDiv K kKChunk * ceilDiv K kKChunk + i % ceilDiv K kKChunk = i := Nat.div_add_mod' ..
    have hget := slabs_getElem? src0 K N ⟨ceilDiv N kNChunk, ceilDiv K kKChunk⟩ hnc
      (Nat.mod_lt i hkpos)
    simp only [hi, hw, Option.some.injEq] at hget
    rw [hget, Buffer.load_eq hx, cell_slabBuffer hx, slabCell, if_neg]
    rintro ⟨hn, hk⟩
    obtain ⟨hq, hc, hpos⟩ := weight_of_slab_cell (i / ceilDiv K kKChunk) (i % ceilDiv K kKChunk) hx
    exact hout ⟨_, _, hn, hk, by rw [hq, hc, hi], hpos.symm⟩

/-- The packed bytes of 2562 rows of 2688 weights. -/
def manyRows : Buffer UInt8 := ⟨2562 * 2688 / 4, fun i => UInt8.ofNat (37 * i)⟩

/-- Two chunks in each dimension, on a device that never fails. -/
theorem resident_slabs_decode_four_chunks :
    ∃ codes signed, i2sUnpackMatrix manyRows 2688 2562 (.replicate (2562 * 2688) 0) = some codes ∧
      i2sCodesToSigned codes (2562 * 2688) (.replicate (2562 * 2688) 0) = some signed ∧
      wp False (uploadChunks .faultless manyRows 2688 2562 ⟨2, 2⟩)
        (fun chunks _ =>
          chunks.length = 4 ∧
          (∀ n < 2562, ∀ k < 2688, ∃ w, chunks[n / kNChunk * 2 + k / kKChunk]? = some w ∧
            w.load (n % kNChunk * kKChunk + k % kKChunk) = some (signed.cell (n * 2688 + k))) ∧
          ∀ (i : Nat) (w : Buffer Int8), chunks[i]? = some w → ∀ x < kKChunk * kNChunk,
            (¬∃ n k, n < 2562 ∧ k < 2688 ∧ i = n / kNChunk * 2 + k / kKChunk ∧
              x = n % kNChunk * kKChunk + k % kKChunk) → w.load x = some 0)
        (fun _ _ => ¬Host.faultless.Clean) .init :=
  resident_slabs_decode .faultless .init manyRows (.replicate (2562 * 2688) 0) (.replicate (2562 * 2688) 0) 2688 2562
    (by decide) (Nat.le_refl _) (Nat.le_refl _) (Nat.le_refl _)

end BitnetXdna
