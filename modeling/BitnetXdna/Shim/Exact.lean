import BitnetXdna.Shim.Gemm

/-!
# Every accumulate that succeeds is exact

The three loops of `bitnet_xdna_accumulate` carry one invariant, `TileInv`: the tiles before this one hold the product, and
each cell of this tile holds the sum of the K chunks that have been dispatched for its column. A dispatch adds its chunk
(`wp_accumulateChunk`); staging a slice, starting a tile and ending one keep it. Nothing is assumed of what the buffers held
before, so whatever earlier calls left in them does not matter.
-/

namespace BitnetXdna

open Exec

/-- The resident entry a call is served from: its own shape and its own slabs. -/
structure Serves (res : Resident) (c : Call) : Prop where
  plan : planFor c.K c.N = some res.plan
  chunks : res.chunks = slabs c.packed c.K c.N res.plan

/-- The K chunks that column `n` has had when chunk (nc, kc) is next. -/
def progress (kc nc n : Nat) : Nat := if n < nc * kNChunk then kc + 1 else kc

/-- Where the sums of a tile are kept: in the accumulator itself when there is one K chunk, else in the partial sums. -/
def tileCell (c : Call) (res : Resident) (t0 r n : Nat) (part gAcc : Buffer Int32) : Int32 :=
  if res.plan.kChunks = 1 then gAcc.cell ((t0 + r) * c.N + n) else part.cell (r * c.N + n)

/-- The device has the activations of the tile's K chunk `kc`. -/
def Shim.Staged (s : Shim) (stem : String) (c : Call) (t0 rows kc : Nat) : Prop :=
  ∃ p, s.gPrograms.lookup stem = some p ∧ p.Sized ∧ StagedOn c t0 rows kc p.boADev

/-- The invariant of the loops, when chunk (nc, kc) of the tile of `rows` tokens from `t0` on is next. -/
structure TileInv (c : Call) (res : Resident) (t0 rows kc nc : Nat) (part gAcc : Buffer Int32) : Prop where
  accSize : c.T * c.N ≤ gAcc.size
  partSize : res.plan.kChunks ≠ 1 → part.size = kMTile * c.N
  earlier : ∀ t < t0, ∀ n < c.N, (gAcc.cell (t * c.N + n)).toInt = c.gemm t n
  sums : ∀ r < rows, ∀ n < c.N, (res.plan.kChunks = 1 → 0 < progress kc nc n) →
    (tileCell c res t0 r n part gAcc).toInt = c.gemmTo (progress kc nc n * kKChunk) (t0 + r) n

/-- The shape of a call that is served. -/
theorem Serves.shape {res : Resident} {c : Call} (h : Serves res c) :
    c.K ≤ 6912 ∧ 0 < c.N ∧ res.plan.nChunks = ceilDiv c.N kNChunk ∧ res.plan.kChunks = ceilDiv c.K kKChunk := by
  obtain ⟨hK, hN, hplan⟩ := planFor_eq_some h.plan
  rw [hplan]
  exact ⟨by omega, by omega, rfl, rfl⟩

/-- A chunk of a call that is served starts inside the tensor. -/
theorem Serves.chunk_lt {res : Resident} {c : Call} (h : Serves res c) {nc kc : Nat} (hnc : nc < res.plan.nChunks)
    (hkc : kc < res.plan.kChunks) : nc * kNChunk < c.N ∧ kc * kKChunk < c.K := by
  obtain ⟨-, -, hn, hk⟩ := h.shape
  exact ⟨(lt_ceilDiv_iff (by decide)).mp (hn ▸ hnc), (lt_ceilDiv_iff (by decide)).mp (hk ▸ hkc)⟩

section Loops

variable {h : Host} {c : Call} {res : Resident} {s : Shim} {t0 rows kc nc : Nat} {part : Buffer Int32}

/-- Adding a block to the sums: the columns of the block advance by one K chunk and no other cell changes. -/
theorem TileInv.step {gAcc part' gAcc' : Buffer Int32} (hI : TileInv c res t0 rows kc nc part gAcc)
    (hacc : gAcc'.size = gAcc.size) (hpart : part'.size = part.size)
    (hearlier : ∀ t < t0, ∀ n < c.N, gAcc'.cell (t * c.N + n) = gAcc.cell (t * c.N + n))
    (hblock : ∀ r < rows, ∀ n < c.N, nc * kNChunk ≤ n → n < (nc + 1) * kNChunk →
      (tileCell c res t0 r n part' gAcc').toInt = c.gemmTo ((kc + 1) * kKChunk) (t0 + r) n)
    (hrest : ∀ r < rows, ∀ n < c.N, (n < nc * kNChunk ∨ (nc + 1) * kNChunk ≤ n) →
      tileCell c res t0 r n part' gAcc' = tileCell c res t0 r n part gAcc) :
    TileInv c res t0 rows kc (nc + 1) part' gAcc' := by
  refine ⟨hacc ▸ hI.accSize, fun hk => hpart ▸ hI.partSize hk, fun t ht n hn => ?_, fun r hr n hn hpos => ?_⟩
  · rw [hearlier t ht n hn, hI.earlier t ht n hn]
  · have hmul : (nc + 1) * kNChunk = nc * kNChunk + kNChunk := Nat.succ_mul ..
    by_cases hin : nc * kNChunk ≤ n ∧ n < (nc + 1) * kNChunk
    · rw [progress, if_pos hin.2]
      exact hblock r hr n hn hin.1 hin.2
    · have hsame : progress kc (nc + 1) n = progress kc nc n := by
        simp only [progress]
        by_cases hlow : n < nc * kNChunk
        · rw [if_pos hlow, if_pos (by omega)]
        · rw [if_neg hlow, if_neg (by omega)]
      rw [hsame] at hpos ⊢
      rw [hrest r hr n hn (by omega), hI.sums r hr n hn hpos]

/-- One dispatch and its copy-out. -/
theorem wp_accumulateChunk (hres : Serves res c) (hrows : rows ≤ kMTile) (ht : t0 + rows ≤ c.T)
    (hnc : nc < res.plan.nChunks) (hkc : kc < res.plan.kChunks) (hs : s.Staged h.singleStem c t0 rows kc)
    (hI : TileInv c res t0 rows kc nc part s.gAcc) :
    wp False (accumulateChunk h c res t0 rows kc nc part)
      (fun part' s' => s'.Staged h.singleStem c t0 rows kc ∧ TileInv c res t0 rows kc (nc + 1) part' s'.gAcc)
      (fun _ _ => ¬h.Clean) s := by
  obtain ⟨p, hp, hsized, hstaged⟩ := hs
  obtain ⟨hK, -, -, -⟩ := hres.shape
  obtain ⟨hncN, hkcK⟩ := hres.chunk_lt hnc hkc
  have hmul : (nc + 1) * kNChunk = nc * kNChunk + kNChunk := Nat.succ_mul ..
  have hchunk : res.chunks[nc * res.plan.kChunks + kc]? = some (slabBuffer c.packed c.K c.N nc kc) := by
    rw [hres.chunks, slabs_getElem? _ _ _ _ hnc hkc]
  have hblock : ∀ r < rows, ∀ j < min kNChunk (c.N - nc * kNChunk),
      ((p.boC.write 0 (kMTile * kNChunk)
        (dispatchResult p.boADev (slabBuffer c.packed c.K c.N nc kc))).cell (r * kNChunk + j)).toInt =
        c.chunkSum kc (t0 + r) (nc * kNChunk + j) := by
    intro r hr j hj
    have := row_add_lt (m := kMTile) (s := kNChunk) (r := r) (j := j) (by omega) (by omega)
    rw [Buffer.cell_write, if_pos (by omega), Nat.sub_zero, toInt_dispatchResult hstaged hr hj]
  generalize hboC : p.boC.write 0 (kMTile * kNChunk)
    (dispatchResult p.boADev (slabBuffer c.packed c.K c.N nc kc)) = boC at hblock
  have hC : boC.size = kMTile * kNChunk := by rw [← hboC, Buffer.size_write, hsized.boC]
  have hsized' : Program.Sized { p with boC := boC } := ⟨hsized.boA, hsized.boADev, hC⟩
  simp only [accumulateChunk, wp_bind]
  rw [hchunk, wp_ofOption_some, wp_bind]
  refine wp_runMappedPresynced hp ?_ fun e words hc hclean => hc (hclean _)
  simp only [hboC, wp_bind, wp_modify, wp_get, countDispatch, AList.lookup_insert, wp_ofOption_some]
  by_cases hone : res.plan.kChunks = 1
  · -- one K chunk: the result goes straight to the accumulator
    have hkc0 : kc = 0 := by omega
    rw [if_pos hone, wp_bind, copyOut_eq hC hI.accSize hrows ht (Nat.min_le_left ..) (by omega), wp_ofOption_some]
    simp only [wp_bind, wp_modify, wp_pure]
    refine ⟨⟨_, AList.lookup_insert _, hsized', hstaged⟩, hI.step (Buffer.size_writeRows ..) rfl ?_ ?_ ?_⟩
    · intro t ht n hn
      rw [Buffer.cell_writeRows_block _ _ _ _ _ (by omega) hn, if_neg (by omega)]
    · intro r hr n hn hlow hhigh
      rw [tileCell, if_pos hone, Buffer.cell_writeRows_block _ _ _ _ _ (by omega) hn, if_pos (by omega),
        Nat.add_sub_cancel_left, hblock r hr _ (by omega), Call.gemmTo_succ, hkc0, Nat.zero_mul, Call.gemmTo_zero,
        zero_add, Nat.add_sub_cancel' hlow]
    · intro r hr n hn hout
      rw [tileCell, tileCell, if_pos hone, if_pos hone, Buffer.cell_writeRows_block _ _ _ _ _ (by omega) hn,
        if_neg (by omega)]
  · -- several: the result is added to the partial sums
    rw [if_neg hone, addPartial_eq hC (hI.partSize hone) hrows (Nat.min_le_left ..) (by omega), wp_ofOption_some]
    have hcell : ∀ r < rows, ∀ n < c.N, ∀ v : Nat → Nat → Int32,
        (part.writeRows (nc * kNChunk) c.N rows (min kNChunk (c.N - nc * kNChunk)) v).cell (r * c.N + n) =
          if nc * kNChunk ≤ n ∧ n < nc * kNChunk + min kNChunk (c.N - nc * kNChunk) then v r (n - nc * kNChunk)
          else part.cell (r * c.N + n) := by
      intro r hr n hn v
      have := Buffer.cell_writeRows_block part v 0 (nc * kNChunk) rows (t := r)
        (show nc * kNChunk + min kNChunk (c.N - nc * kNChunk) ≤ c.N by omega) hn
      rw [Nat.zero_mul, Nat.zero_add] at this
      rw [this, Nat.sub_zero]
      exact if_congr (by omega) rfl rfl
    refine ⟨⟨_, AList.lookup_insert _, hsized', hstaged⟩, hI.step rfl (Buffer.size_writeRows ..) (fun _ _ _ _ => rfl) ?_ ?_⟩
    · intro r hr n hn hlow hhigh
      have hold := hI.sums r hr n hn fun h1 => absurd h1 hone
      rw [tileCell, if_neg hone, progress, if_neg (by omega)] at hold
      have hnew := hblock r hr (n - nc * kNChunk) (by omega)
      rw [Nat.add_sub_cancel' hlow] at hnew
      have hsum := Call.gemmTo_succ (c := c) kc (t0 + r) n
      have hpos : nc * kNChunk + r * c.N + (n - nc * kNChunk) = r * c.N + n := by omega
      rw [tileCell, if_neg hone, hcell r hr n hn, if_pos (by omega), hpos, toInt_add_of_abs_lt, hold, hnew, hsum]
      rw [hold, hnew, ← hsum]
      exact Call.abs_gemmTo_lt hK ..
    · intro r hr n hn hout
      rw [tileCell, tileCell, if_neg hone, if_neg hone, hcell r hr n hn, if_neg (by omega)]

/-- When every N chunk of a slice has been dispatched, the next slice begins. -/
theorem TileInv.nextSlice {gAcc : Buffer Int32} (hres : Serves res c)
    (hI : TileInv c res t0 rows kc res.plan.nChunks part gAcc) : TileInv c res t0 rows (kc + 1) 0 part gAcc := by
  obtain ⟨-, -, hn, -⟩ := hres.shape
  refine ⟨hI.accSize, hI.partSize, hI.earlier, fun r hr n hN _ => ?_⟩
  have hlt : n < res.plan.nChunks * kNChunk := Nat.lt_of_lt_of_le hN (hn ▸ le_ceilDiv_mul (by decide))
  have hsame : progress kc res.plan.nChunks n = progress (kc + 1) 0 n := by
    rw [progress, progress, if_pos hlt, if_neg (by omega)]
  rw [← hsame]
  exact hI.sums r hr n hN fun _ => by rw [progress, if_pos hlt]; omega

/-- One K slice: its activations are staged whole, so what the buffers held before does not matter. -/
theorem wp_accumulateSlice (haQ : ∀ t < c.T, t * c.aRowStride + c.K ≤ c.aQ.size) (hres : Serves res c)
    (hrows : rows ≤ kMTile) (ht : t0 + rows ≤ c.T) (hkc : kc < res.plan.kChunks) (hs : s.HasProgram h.singleStem)
    (hI : TileInv c res t0 rows kc 0 part s.gAcc) :
    wp False (accumulateSlice h c res t0 rows kc part)
      (fun part' s' => s'.HasProgram h.singleStem ∧ TileInv c res t0 rows (kc + 1) 0 part' s'.gAcc)
      (fun _ _ => ¬h.Clean) s := by
  obtain ⟨p, hp, hsized⟩ := hs
  obtain ⟨-, -, -, hk⟩ := hres.shape
  have hkcK : kc * kKChunk < c.K := (lt_ceilDiv_iff (by decide)).mp (hk ▸ hkc)
  obtain ⟨boA, hstage, hsize, hstaged⟩ := stageActivations_eq hsized.boA hrows
    (show kc * kKChunk ≤ c.K by omega) fun r hr => haQ (t0 + r) (by omega)
  simp only [accumulateSlice, wp_bind]
  refine wp_modifyProgram hp (show _ = some { p with boA := boA } by rw [hstage]; rfl) ?_
  rw [wp_bind]
  refine wp_syncA (AList.lookup_insert _) ?_ fun e bytes hc hclean => hc (hclean _)
  refine wp_mono (wp_forRange (fun nc part' s' => s'.Staged h.singleStem c t0 rows kc ∧
    TileInv c res t0 rows kc nc part' s'.gAcc) ?_ ?_) ?_ (fun _ _ hc => hc) id
  · exact ⟨⟨_, AList.lookup_insert _, ⟨hsize, hsize, hsized.boC⟩, hstaged⟩, hI⟩
  · rintro nc hnc part' s' ⟨hs', hI'⟩
    exact wp_accumulateChunk hres hrows ht hnc hkc hs' hI'
  · rintro part' s' ⟨⟨p', hp', hsized', -⟩, hI'⟩
    exact ⟨⟨p', hp', hsized'⟩, hI'.nextSlice hres⟩

/-- What holds between the tiles: the first `t0` rows of the accumulator are the product. -/
structure TilesInv (c : Call) (res : Resident) (t0 : Nat) (part gAcc : Buffer Int32) : Prop where
  accSize : c.T * c.N ≤ gAcc.size
  partSize : res.plan.kChunks ≠ 1 → part.size = kMTile * c.N
  rows : ∀ t < t0, ∀ n < c.N, (gAcc.cell (t * c.N + n)).toInt = c.gemm t n

/-- A tile whose K chunks are all done holds the product. -/
theorem TileInv.finished {gAcc : Buffer Int32} (hres : Serves res c)
    (hI : TileInv c res t0 rows res.plan.kChunks 0 part gAcc) {r n : Nat} (hr : r < rows) (hn : n < c.N) :
    (tileCell c res t0 r n part gAcc).toInt = c.gemm (t0 + r) n := by
  obtain ⟨-, -, -, hk⟩ := hres.shape
  have hdone : progress res.plan.kChunks 0 n = res.plan.kChunks := by rw [progress, if_neg (by omega)]
  have h := hI.sums r hr n hn fun h1 => by rw [hdone]; omega
  rwa [hdone, Call.gemmTo_of_le (hk ▸ le_ceilDiv_mul (by decide))] at h

/-- One token tile. -/
theorem wp_accumulateTile (haQ : ∀ t < c.T, t * c.aRowStride + c.K ≤ c.aQ.size) (hres : Serves res c) (ht0 : t0 < c.T)
    (hs : s.HasProgram h.singleStem) (hI : TilesInv c res t0 part s.gAcc) :
    wp False (accumulateTile h c res t0 part)
      (fun part' s' => s'.HasProgram h.singleStem ∧ TilesInv c res (t0 + min kMTile (c.T - t0)) part' s'.gAcc)
      (fun _ _ => ¬h.Clean) s := by
  have hrows : min kMTile (c.T - t0) ≤ kMTile := Nat.min_le_left ..
  have ht : t0 + min kMTile (c.T - t0) ≤ c.T := by omega
  -- the slices, from sums that are zero
  have hslices : ∀ part' : Buffer Int32, (res.plan.kChunks ≠ 1 → part'.size = kMTile * c.N ∧ ∀ x < part'.size,
      part'.cell x = 0) →
      wp False (forRange res.plan.kChunks part' (accumulateSlice h c res t0 (min kMTile (c.T - t0))))
        (fun part' s' => s'.HasProgram h.singleStem ∧
          TileInv c res t0 (min kMTile (c.T - t0)) res.plan.kChunks 0 part' s'.gAcc)
        (fun _ _ => ¬h.Clean) s := by
    intro part' hzero
    refine wp_forRange (fun kc part' (s' : Shim) => s'.HasProgram h.singleStem ∧
      TileInv c res t0 (min kMTile (c.T - t0)) kc 0 part' s'.gAcc) ⟨hs, hI.accSize, fun hk => (hzero hk).1, hI.rows, ?_⟩ ?_
    · intro r hr n hn hpos
      have hdone : progress 0 0 n = 0 := by rw [progress, if_neg (by omega)]
      rw [hdone] at hpos ⊢
      have hone : res.plan.kChunks ≠ 1 := fun h1 => absurd (hpos h1) (by omega)
      have hcell := (hzero hone).2 (r * c.N + n)
        ((hzero hone).1 ▸ row_add_lt (Nat.lt_of_lt_of_le hr hrows) hn)
      rw [tileCell, if_neg hone, hcell, Nat.zero_mul, Call.gemmTo_zero]
      rfl
    · rintro kc hkc part' s' ⟨hs', hI'⟩
      exact wp_accumulateSlice haQ hres hrows ht hkc hs' hI'
  obtain ⟨-, -, -, hk⟩ := hres.shape
  obtain ⟨hK, -, -⟩ := planFor_eq_some hres.plan
  have hkpos : 0 < res.plan.kChunks := hk ▸ (lt_ceilDiv_iff (by decide)).mpr (by omega)
  by_cases hone : res.plan.kChunks = 1
  · have hnot : ¬res.plan.kChunks > 1 := by omega
    simp only [accumulateTile, if_neg hnot, wp_bind, wp_pure]
    refine wp_mono (hslices part fun hk1 => absurd hone hk1) ?_ (fun _ _ hc => hc) id
    rintro part' s' ⟨hs', hI'⟩
    refine ⟨hs', hI'.accSize, hI'.partSize, fun t ht n hn => ?_⟩
    by_cases hlow : t < t0
    · exact hI'.earlier t hlow n hn
    · have hfin := hI'.finished hres (r := t - t0) (n := n) (by omega) hn
      rwa [tileCell, if_pos hone, Nat.add_sub_cancel' (by omega)] at hfin
  · have hmany : res.plan.kChunks > 1 := by omega
    simp only [accumulateTile, if_pos hmany, wp_bind]
    rw [Buffer.fill_eq (0 : Int32) (show 0 + part.size ≤ part.size by omega), wp_ofOption_some, wp_bind]
    refine wp_mono (hslices _ fun _ => ⟨hI.partSize hone, fun x hx => ?_⟩) ?_ (fun _ _ hc => hc) id
    · rw [Buffer.cell_write, if_pos ⟨Nat.zero_le _, by simpa using hx⟩]
    · rintro part' s' ⟨hs', hI'⟩
      rw [wp_bind, wp_get, wp_bind, copyPartial_eq (hI'.partSize hone) hI'.accSize hrows ht, wp_ofOption_some]
      simp only [wp_bind, wp_modify, wp_pure]
      refine ⟨hs', ?_, hI'.partSize, fun t ht' n hn => ?_⟩
      · simpa using hI'.accSize
      · have hblock := Buffer.cell_writeRows_block s'.gAcc (fun r j => part'.cell (r * c.N + j)) t0 0
          (min kMTile (c.T - t0)) (t := t) (show 0 + c.N ≤ c.N by omega) hn
        rw [Nat.add_zero] at hblock
        rw [hblock]
        by_cases hlow : t < t0
        · rw [if_neg (by omega)]
          exact hI'.earlier t hlow n hn
        · have hfin := hI'.finished hres (r := t - t0) (n := n) (by omega) hn
          rw [tileCell, if_neg hone, Nat.add_sub_cancel' (by omega)] at hfin
          rw [if_pos (by omega), Nat.sub_zero, hfin]

/-- All the tiles: the accumulator holds the product. -/
theorem wp_accumulateTiles (haQ : ∀ t < c.T, t * c.aRowStride + c.K ≤ c.aQ.size) (hres : Serves res c)
    (hs : s.HasProgram h.singleStem) (hacc : c.T * c.N ≤ s.gAcc.size) :
    wp False (accumulateTiles h c res) (fun _ s' => c.Exact s'.gAcc) (fun _ _ => ¬h.Clean) s := by
  simp only [accumulateTiles, wp_bind]
  refine wp_mono (wp_forRange (fun i part s' => s'.HasProgram h.singleStem ∧
    TilesInv c res (min c.T (i * kMTile)) part s'.gAcc) ⟨hs, hacc, fun hk => ?_, by omega⟩ ?_) ?_ (fun _ _ hc => hc) id
  · obtain ⟨-, -, -, hkc⟩ := hres.shape
    obtain ⟨hK, -, -⟩ := planFor_eq_some hres.plan
    have hkpos : 0 < res.plan.kChunks := hkc ▸ (lt_ceilDiv_iff (by decide)).mpr (by omega)
    rw [if_pos (by omega), Buffer.size_replicate]
  · rintro i hi part s' ⟨hs', hI'⟩
    have hlt : i * kMTile < c.T := (lt_ceilDiv_iff (by decide)).mp hi
    rw [Nat.min_eq_right (by omega)] at hI'
    have key := wp_accumulateTile haQ hres hlt hs' hI'
    rwa [show i * kMTile + min kMTile (c.T - i * kMTile) = min c.T ((i + 1) * kMTile) by rw [Nat.succ_mul]; omega]
      at key
  · rintro part s' ⟨-, hI'⟩
    rw [Nat.min_eq_left (le_ceilDiv_mul (by decide))] at hI'
    refine fun t ht n hn => ⟨_, Buffer.load_eq ?_, hI'.rows t ht n hn⟩
    exact Nat.lt_of_lt_of_le (row_add_lt ht hn) hI'.accSize

end Loops

/-! ## A whole call -/

/-- How a call ends. It is refused, its tensor is refused from now on, or it is served from a resident entry that was there
or has been built; then the loops run, and what they leave alone is in `Frame`. -/
inductive AccumulateStep (h : Host) (c : Call) (s : Shim) : Bool → Shim → Prop where
  | refused (hf : c.src0 ∈ s.gFailed) : AccumulateStep h c s false s
  | shape (res : Resident) (hf : c.src0 ∉ s.gFailed) (hr : s.gResident.lookup c.src0 = some res)
      (hne : res.K ≠ c.K ∨ res.N ≠ c.N) : AccumulateStep h c s false
        { s with gFailed := s.gFailed.insert c.src0 "plan/shape rejected" }
  | plan (hf : c.src0 ∉ s.gFailed) (hr : c.src0 ∉ s.gResident) (hp : planFor c.K c.N = none) : AccumulateStep h c s false
        { s with gFailed := s.gFailed.insert c.src0 "plan/shape rejected" }
  | threw (plan : ShapePlan) (e : Exn) (s' : Shim) (hf : c.src0 ∉ s.gFailed) (hr : c.src0 ∉ s.gResident)
      (hp : planFor c.K c.N = some plan)
      (hs' : BuildThrows h.singleStem c.src0 (plan.nChunks * plan.kChunks) s s') : AccumulateStep h c s false
        { s' with gFailed := s.gFailed.insert c.src0 e.reason }
  | hit (res : Resident) (ret : Bool) (s' : Shim) (hf : c.src0 ∉ s.gFailed)
      (hr : s.gResident.lookup c.src0 = some res) (hK : res.K = c.K) (hN : res.N = c.N) (hs' : Frame s s') :
      AccumulateStep h c s ret s'
  | built (plan : ShapePlan) (sp : Shim) (ret : Bool) (s' : Shim) (hf : c.src0 ∉ s.gFailed) (hr : c.src0 ∉ s.gResident)
      (hp : planFor c.K c.N = some plan) (hsp : ProgramReady h.singleStem s sp)
      (hs' : Frame { uploaded (repacking c.src0 sp) (plan.nChunks * plan.kChunks) with
        gResident := s.gResident.insert c.src0 ⟨slabs c.packed c.K c.N plan, c.K, c.N, plan⟩ } s') :
      AccumulateStep h c s ret s'

/-- Nothing stands in the way of a call but the device: its tensor is not known to fail, its shape is served, and it is the
shape the tensor is resident with, if it is. -/
structure Call.Servable (c : Call) (s : Shim) : Prop where
  notFailed : c.src0 ∉ s.gFailed
  supported : bitnetXdnaSupports c.K c.N
  shape : ∀ res, s.gResident.lookup c.src0 = some res → res.K = c.K ∧ res.N = c.N

section Call

variable {h : Host} {c : Call} {s : Shim}

/-- Serving a call from its resident entry, which was built from some copy of the tensor's bytes. The product is that of
any bytes the entry could have been built from. -/
theorem wp_serve {res : Resident} {packed : Buffer UInt8} (haQ : ∀ t < c.T, t * c.aRowStride + c.K ≤ c.aQ.size)
    (hres : Serves res { c with packed := packed }) (hs : s.Sized) :
    wp False (do
      programFor h h.singleStem
      modify (growAcc c)
      accumulateTiles h c res
      pure true)
      (fun ret s' => ret = true ∧ Frame s s' ∧
        ∀ packed, Serves res { c with packed := packed } → Call.Exact { c with packed := packed } s'.gAcc)
      (fun _ s' => ¬h.Clean ∧ Frame s s') s := by
  rw [wp_bind]
  refine wp_programFor (fun sp hsp => ?_) fun e hm hc =>
    ⟨fun hclean => hc (hclean _), ⟨rfl, rfl, rfl, fun _ hm => hm, fun hs => hs, Nat.le_refl _⟩⟩
  rw [wp_bind, wp_modify, wp_bind]
  have hframe : Frame s (growAcc c sp) := trans_of Frame hsp.frame (Frame.growAcc c sp)
  have hacc : c.T * c.N ≤ (growAcc c sp).gAcc.size := by
    simp only [growAcc]
    split
    · rw [Buffer.size_resize]
    · omega
  have hprog : (growAcc c sp).HasProgram h.singleStem := hsp.hasProgram hs
  -- the loops do not read the packed bytes
  have htiles : ∀ packed, Serves res { c with packed := packed } →
      wp False (accumulateTiles h c res) (fun _ s' => Call.Exact { c with packed := packed } s'.gAcc)
        (fun _ _ => ¬h.Clean) (growAcc c sp) :=
    fun packed hres => wp_accumulateTiles (c := { c with packed := packed }) haQ hres hprog hacc
  have : Nonempty (Buffer UInt8) := ⟨packed⟩
  have hall := wp_forall (U := False) (p := accumulateTiles h c res) (E := fun _ _ => ¬h.Clean) (s := growAcc c sp)
    (Q := fun packed _ s' => Serves res { c with packed := packed } → Call.Exact { c with packed := packed } s'.gAcc)
    fun packed' => by
      by_cases hres' : Serves res { c with packed := packed' }
      · exact wp_mono (htiles packed' hres') (fun _ _ hexact _ => hexact) (fun _ _ hc => hc) id
      · exact wp_mono (htiles packed hres) (fun _ _ _ hres'' => absurd hres'' hres') (fun _ _ hc => hc) id
  refine wp_mono (wp_and hall (Frame.accumulateTiles c res (growAcc c sp))) ?_ ?_ fun hf => hf.1
  · rintro - s' ⟨hexact, hs'⟩
    exact ⟨rfl, trans_of Frame hframe hs', hexact⟩
  · rintro - s' ⟨hc, hs'⟩
    exact ⟨hc, trans_of Frame hframe hs'⟩

/-- A call is defined and never throws, it ends as `AccumulateStep` says, and if it succeeds the accumulator holds the
product of the tensor that is resident. On a device that does nothing wrong a servable call succeeds. -/
theorem wp_bitnetXdnaAccumulate (hv : c.Valid) (hs : s.Sized)
    (hserves : ∀ res, s.gResident.lookup c.src0 = some res → res.K = c.K → res.N = c.N →
      ∃ packed, Serves res { c with packed := packed }) :
    wp False (bitnetXdnaAccumulate h c)
      (fun ret s' => AccumulateStep h c s ret s' ∧
        (ret = true → ∃ res, s'.gResident.lookup c.src0 = some res ∧ res.K = c.K ∧ res.N = c.N ∧
          ∀ packed, Serves res { c with packed := packed } → Call.Exact { c with packed := packed } s'.gAcc) ∧
        (h.Clean → c.Servable s → ret = true)) (fun _ _ => False) s := by
  have hfalse : ∀ {P : Prop}, false = true → P := fun h => absurd h (by decide)
  have hsupp : ∀ {plan}, planFor c.K c.N = some plan → bitnetXdnaSupports c.K c.N = true :=
    fun hp => by rw [bitnetXdnaSupports, hp]; rfl
  rw [bitnetXdnaAccumulate, wp_catchAll, wp_bind]
  refine wp_getResidentLogged hv.packed (fun hf => ?_) (fun res hf hr hK hN => ?_) (fun res hf hr hne => ?_)
    (fun hf hr hp => ?_) (fun plan sp hf hr hp hsp => ?_) fun plan e s' hf hr hp hc hs' => ?_
  · exact ⟨.refused hf, hfalse, fun _ hsv => absurd hf hsv.notFailed⟩
  · obtain ⟨packed, hres⟩ := hserves res hr hK hN
    refine wp_mono (wp_serve (hv.aQ (hsupp hres.plan)) hres hs) ?_ ?_ id
    · rintro ret s' ⟨hret, hframe, hexact⟩
      exact ⟨.hit res ret s' hf hr hK hN hframe, fun _ => ⟨res, hframe.gResident ▸ hr, hK, hN, hexact⟩,
        fun _ _ => hret⟩
    · rintro e s' ⟨hc, hframe⟩
      exact ⟨.hit res false s' hf hr hK hN hframe, hfalse, fun hclean => absurd hclean hc⟩
  · exact ⟨.shape res hf hr hne, hfalse, fun _ hsv => absurd (hsv.shape res hr) (by omega)⟩
  · exact ⟨.plan hf hr hp, hfalse, fun _ hsv => absurd hsv.supported (by simp [bitnetXdnaSupports, hp])⟩
  · have hsized : Shim.Sized { uploaded (repacking c.src0 sp) (plan.nChunks * plan.kChunks) with
        gResident := s.gResident.insert c.src0 ⟨slabs c.packed c.K c.N plan, c.K, c.N, plan⟩ } := hsp.frame.sized hs
    have hserves : Serves ⟨slabs c.packed c.K c.N plan, c.K, c.N, plan⟩ c := ⟨hp, rfl⟩
    refine wp_mono (wp_serve (hv.aQ (hsupp hp)) hserves hsized) ?_ ?_ id
    · rintro ret s' ⟨hret, hframe, hexact⟩
      refine ⟨.built plan sp ret s' hf hr hp hsp hframe, fun _ => ⟨_, ?_, rfl, rfl, hexact⟩, fun _ _ => hret⟩
      rw [hframe.gResident, AList.lookup_insert]
    · rintro e s' ⟨hc, hframe⟩
      exact ⟨.built plan sp false s' hf hr hp hsp hframe, hfalse, fun hclean => absurd hclean hc⟩
  · exact ⟨.threw plan e s' hf hr hp hs', hfalse, fun hclean => absurd hclean hc⟩

end Call

end BitnetXdna
