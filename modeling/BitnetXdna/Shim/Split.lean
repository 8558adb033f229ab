import BitnetXdna.Shim.Available
import BitnetXdna.Lib.Rounding

/-!
# The token split and its contract

`bitnet_xdna_token_split`, read over the rationals: how many tokens the NPU takes. The contract is that it takes no more than
there are and, where the batch is divided, whole tiles only. Two inputs break it, and no others (`token_split_contract_iff`):
a forced tile count whose product with the tile wraps to a negative one, and a fraction that rounds up past the last whole
tile of the batch.
-/

namespace BitnetXdna

/-- What `bitnet_xdna_token_split` promises of its result `t`: it is a part of the batch, and whole tiles of it where a batch
of more than a tile is divided by a fraction. -/
def SplitContract (gForceTiles : Int) (gSplitFrac : ℚ) (nTokens t : Int) : Prop :=
  0 ≤ t ∧ t ≤ nTokens ∧
    (gForceTiles < 0 → kMTile < nTokens → 0 < gSplitFrac → gSplitFrac < 1 → ∃ k, 0 < k ∧ t = k * kMTile)

/-- A product with the tile is negative exactly when its upper half wraps. -/
theorem mulInt64_kMTile_nonneg (a : Int) : 0 ≤ mulInt64 a kMTile ↔ a % 2 ^ 54 < 2 ^ 53 := by
  unfold mulInt64 kMTile
  rw [Int64.toInt_ofInt]
  unfold Int.bmod
  simp only [Int64.size]
  omega

/-- A product with the tile that fits does not wrap. -/
theorem mulInt64_kMTile {a : Int} (h0 : 0 ≤ a) (h : a < 2 ^ 53) : mulInt64 a kMTile = a * kMTile := by
  unfold mulInt64 kMTile
  rw [Int64.toInt_ofInt]
  unfold Int.bmod
  simp only [Int64.size]
  omega

/-- The tiles of a divided batch: the nearest whole number, a half going up. -/
def splitTiles (gSplitFrac : ℚ) (nTokens : Int) : Int := ⌊(nTokens : ℚ) / 1024 * gSplitFrac + 1 / 2⌋

section Split

variable {gForceTiles nTokens : Int} {gSplitFrac : ℚ}

/-- A forced tile count is clamped from above only. -/
theorem bitnetXdnaTokenSplit_forced (hn : 0 < nTokens) (hforce : 0 ≤ gForceTiles) :
    bitnetXdnaTokenSplit gForceTiles gSplitFrac nTokens = min nTokens (mulInt64 gForceTiles kMTile) := by
  unfold bitnetXdnaTokenSplit
  rw [if_neg (by omega), if_pos hforce]
  simp only
  split <;> omega

/-- A batch that is not divided goes to one side whole. -/
theorem bitnetXdnaTokenSplit_whole (hforce : gForceTiles < 0)
    (hwhole : nTokens ≤ kMTile ∨ gSplitFrac ≤ 0 ∨ 1 ≤ gSplitFrac) :
    bitnetXdnaTokenSplit gForceTiles gSplitFrac nTokens = 0 ∨
      bitnetXdnaTokenSplit gForceTiles gSplitFrac nTokens = nTokens := by
  have hle1 : SplitArith.le (SplitArith.ofInt 1) gSplitFrac = decide (1 ≤ gSplitFrac) := by
    simp [SplitArith.le, SplitArith.ofInt]
  have hle0 : SplitArith.le gSplitFrac (SplitArith.ofInt 0) = decide (gSplitFrac ≤ 0) := by
    simp [SplitArith.le, SplitArith.ofInt]
  unfold bitnetXdnaTokenSplit
  by_cases hn : nTokens ≤ 0
  · rw [if_pos hn]
    exact Or.inl rfl
  rw [if_neg hn, if_neg (by omega), hle1, hle0]
  by_cases htile : nTokens ≤ kMTile
  · rw [if_pos htile]
    exact Or.inr rfl
  rw [if_neg htile]
  by_cases h1 : 1 ≤ gSplitFrac
  · rw [if_pos (decide_eq_true h1)]
    exact Or.inr rfl
  have h0 : gSplitFrac ≤ 0 := by
    rcases hwhole with h | h | h
    · exact absurd h htile
    · exact h
    · exact absurd h h1
  rw [if_neg (by simpa using h1), if_pos (decide_eq_true h0)]
  exact Or.inl rfl

/-- The split of a batch of more than a tile by a fraction. -/
theorem bitnetXdnaTokenSplit_fraction (hforce : gForceTiles < 0) (htile : kMTile < nTokens) (hn : nTokens < 2 ^ 53)
    (h0 : 0 < gSplitFrac) (h1 : gSplitFrac < 1) :
    bitnetXdnaTokenSplit gForceTiles gSplitFrac nTokens =
      min nTokens (max kMTile (splitTiles gSplitFrac nTokens * kMTile)) := by
  have htile' : (1024 : Int) < nTokens := htile
  have hpos : (0 : ℚ) < nTokens := by exact_mod_cast (by omega : 0 < nTokens)
  have hx : 0 ≤ (nTokens : ℚ) / 1024 * gSplitFrac + 1 / 2 := by positivity
  have htiles0 : 0 ≤ splitTiles gSplitFrac nTokens := Int.floor_nonneg.mpr hx
  have htiles : splitTiles gSplitFrac nTokens < 2 ^ 53 := by
    have hle : (nTokens : ℚ) / 1024 * gSplitFrac ≤ nTokens / 1024 :=
      mul_le_of_le_one_right (by positivity) h1.le
    have hlarge : (nTokens : ℚ) < 2 ^ 53 := by exact_mod_cast hn
    unfold splitTiles
    rw [Int.floor_lt]
    push_cast
    linarith
  have hsplit : SplitArith.trunc (SplitArith.ofInt nTokens / SplitArith.ofInt kMTile * gSplitFrac + (SplitArith.half : ℚ)) =
      splitTiles gSplitFrac nTokens := Rounding.tdiv_num_den hx
  have hle1 : SplitArith.le (SplitArith.ofInt 1) gSplitFrac = false := by
    simpa [SplitArith.le, SplitArith.ofInt] using h1
  have hle0 : SplitArith.le gSplitFrac (SplitArith.ofInt 0) = false := by
    simpa [SplitArith.le, SplitArith.ofInt] using h0
  unfold bitnetXdnaTokenSplit
  rw [if_neg (by omega), if_neg (by omega), if_neg (by omega), hle1, hle0, hsplit]
  simp only [Bool.false_eq_true, if_false, mulInt64_kMTile htiles0 htiles]
  split <;> split <;> omega

/-- A divided batch stays on whole tiles exactly when its fraction is less than half a tile past its last whole tile. -/
theorem splitTiles_le_iff : splitTiles gSplitFrac nTokens * kMTile ≤ nTokens ↔
    nTokens * gSplitFrac < ((nTokens / kMTile * kMTile + 512 : Int) : ℚ) := by
  have hmul : splitTiles gSplitFrac nTokens * 1024 ≤ nTokens ↔ splitTiles gSplitFrac nTokens < nTokens / 1024 + 1 := by
    omega
  have hscale : (nTokens : ℚ) * gSplitFrac = nTokens / 1024 * gSplitFrac * 1024 := by ring
  unfold kMTile
  push_cast
  rw [hmul, splitTiles, Int.floor_lt, hscale]
  push_cast
  constructor <;> intro h <;> linarith

/-- A batch is divided into whole tiles exactly when its fraction is less than half a tile past its last whole tile. -/
theorem whole_tiles_iff (htile : kMTile < nTokens) (h1 : gSplitFrac < 1) :
    (∃ k, 0 < k ∧ min nTokens (max kMTile (splitTiles gSplitFrac nTokens * kMTile)) = k * kMTile) ↔
      nTokens * gSplitFrac < ((nTokens / kMTile * kMTile + 512 : Int) : ℚ) := by
  rw [← splitTiles_le_iff]
  have htile' : (1024 : Int) < nTokens := htile
  constructor
  · rintro ⟨k, hk, heq⟩
    by_contra hpast
    -- past the last whole tile the split is the whole batch, which would then be whole tiles itself
    have hwhole : nTokens = k * 1024 := by
      have : nTokens = k * kMTile := by omega
      exact this
    rw [splitTiles_le_iff] at hpast
    apply hpast
    have hlt : (nTokens : ℚ) * gSplitFrac < nTokens := mul_lt_of_lt_one_right (by exact_mod_cast (by omega)) h1
    refine hlt.trans ?_
    have : nTokens < nTokens / kMTile * kMTile + 512 := by
      unfold kMTile
      omega
    exact_mod_cast this
  · intro hle
    by_cases hone : splitTiles gSplitFrac nTokens ≤ 1
    · refine ⟨1, by decide, ?_⟩
      unfold kMTile at *
      omega
    · refine ⟨splitTiles gSplitFrac nTokens, by omega, ?_⟩
      unfold kMTile at *
      omega

end Split

/-- The split keeps its contract for every batch of fewer than 2^53 tokens and every configuration, except for a forced tile
count whose product with the tile wraps to a negative one, and for a fraction of the batch that is half a tile or more past
its last whole tile. -/
theorem token_split_contract_iff (gForceTiles : Int) (gSplitFrac : ℚ) (nTokens : Int) (hn0 : 0 ≤ nTokens)
    (hn : nTokens < 2 ^ 53) :
    SplitContract gForceTiles gSplitFrac nTokens (bitnetXdnaTokenSplit gForceTiles gSplitFrac nTokens) ↔
      (0 ≤ gForceTiles → 0 < nTokens → gForceTiles % 2 ^ 54 < 2 ^ 53) ∧
      (gForceTiles < 0 → kMTile < nTokens → 0 < gSplitFrac → gSplitFrac < 1 →
        nTokens * gSplitFrac < ((nTokens / kMTile * kMTile + 512 : Int) : ℚ)) := by
  have htile0 : (0 : Int) < kMTile := by decide
  unfold SplitContract
  rcases lt_or_ge gForceTiles 0 with hforce | hforce
  · by_cases hwhole : nTokens ≤ kMTile ∨ gSplitFrac ≤ 0 ∨ 1 ≤ gSplitFrac
    · -- nothing is divided, and nothing can go wrong
      have hno : ¬(kMTile < nTokens ∧ 0 < gSplitFrac ∧ gSplitFrac < 1) := by
        rintro ⟨htile, h0, h1⟩
        rcases hwhole with h | h | h
        · omega
        · exact absurd h0 (not_lt.mpr h)
        · exact absurd h1 (not_lt.mpr h)
      constructor
      · intro _
        exact ⟨fun h => absurd h (by omega), fun _ htile h0 h1 => absurd ⟨htile, h0, h1⟩ hno⟩
      · intro _
        rcases bitnetXdnaTokenSplit_whole hforce hwhole with h | h
        · rw [h]
          exact ⟨le_refl 0, hn0, fun _ htile h0 h1 => absurd ⟨htile, h0, h1⟩ hno⟩
        · rw [h]
          exact ⟨hn0, le_refl _, fun _ htile h0 h1 => absurd ⟨htile, h0, h1⟩ hno⟩
    · push Not at hwhole
      obtain ⟨htile, h0, h1⟩ := hwhole
      rw [bitnetXdnaTokenSplit_fraction hforce htile hn h0 h1]
      constructor
      · rintro ⟨-, -, htiles⟩
        exact ⟨fun h => absurd h (by omega), fun _ _ _ _ => (whole_tiles_iff htile h1).mp (htiles hforce htile h0 h1)⟩
      · rintro ⟨-, hfrac⟩
        exact ⟨by omega, by omega, fun _ _ _ _ => (whole_tiles_iff htile h1).mpr (hfrac hforce htile h0 h1)⟩
  · rcases eq_or_lt_of_le hn0 with rfl | hpos
    · constructor
      · intro _
        exact ⟨fun _ h => absurd h (by omega), fun h => absurd h (by omega)⟩
      · intro _
        have hsplit : bitnetXdnaTokenSplit gForceTiles gSplitFrac 0 = 0 := rfl
        rw [hsplit]
        exact ⟨le_refl 0, le_refl 0, fun h => absurd h (by omega)⟩
    · rw [bitnetXdnaTokenSplit_forced hpos hforce, ← mulInt64_kMTile_nonneg]
      constructor
      · rintro ⟨h0, -, -⟩
        exact ⟨fun _ _ => by omega, fun h => absurd h (by omega)⟩
      · rintro ⟨h0, -⟩
        have := h0 hforce hpos
        exact ⟨by omega, by omega, fun h => absurd h (by omega)⟩

/-- Half of 4096 tokens: two tiles. -/
theorem token_split_contract_iff_half :
    SplitContract (-1) (1 / 2) 4096 (bitnetXdnaTokenSplit (-1) (1 / 2 : ℚ) 4096) ↔
      ((0 : Int) ≤ -1 → (0 : Int) < 4096 → (-1 : Int) % 2 ^ 54 < 2 ^ 53) ∧
      ((-1 : Int) < 0 → (kMTile : Int) < 4096 → (0 : ℚ) < 1 / 2 → (1 / 2 : ℚ) < 1 →
        ((4096 : Int) : ℚ) * (1 / 2) < (((4096 : Int) / kMTile * kMTile + 512 : Int) : ℚ)) :=
  token_split_contract_iff (-1) (1 / 2) 4096 (by decide) (by decide)

/-- 99% of 1600 tokens round up to two tiles, more than there are, and the split is the whole batch, which is no whole number
of tiles; and a forced count of 2^53 tiles gives a negative number of tokens. -/
theorem ragged_split :
    bitnetXdnaTokenSplit (-1) (99 / 100 : ℚ) 1600 = 1600 ∧
      ¬SplitContract (-1) (99 / 100) 1600 (bitnetXdnaTokenSplit (-1) (99 / 100 : ℚ) 1600) ∧
      bitnetXdnaTokenSplit (2 ^ 53) (1 / 2 : ℚ) 1024 = -2 ^ 63 ∧
      ¬SplitContract (2 ^ 53) (1 / 2) 1024 (bitnetXdnaTokenSplit (2 ^ 53) (1 / 2 : ℚ) 1024) := by
  have hfrac : bitnetXdnaTokenSplit (-1) (99 / 100 : ℚ) 1600 = 1600 := by
    have htiles : splitTiles (99 / 100) 1600 = 2 := by
      unfold splitTiles
      norm_num
    rw [bitnetXdnaTokenSplit_fraction (by decide) (by decide) (by decide) (by norm_num) (by norm_num), htiles]
    rfl
  have hforced : bitnetXdnaTokenSplit (2 ^ 53) (1 / 2 : ℚ) 1024 = -2 ^ 63 := by
    rw [bitnetXdnaTokenSplit_forced (by decide) (by decide)]
    decide
  refine ⟨hfrac, ?_, hforced, ?_⟩
  · rw [hfrac]
    rintro ⟨-, -, htiles⟩
    obtain ⟨k, -, hk⟩ := htiles (by decide) (by decide) (by norm_num) (by norm_num)
    unfold kMTile at hk
    omega
  · rw [hforced]
    rintro ⟨h0, -⟩
    exact absurd h0 (by decide)

end BitnetXdna
