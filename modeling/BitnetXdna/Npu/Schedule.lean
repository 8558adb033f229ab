import BitnetXdna.Npu.WholeArray
import BitnetXdna.Lib.Sharding

/-!
# When the transfer schedule is complete

The loops of `sequence` run over the halves of the transfer blocks. Half `g` drains the `g`-th group of tiles of C on each
column and fills the rows of A from `halfBase g` on. Where the transfer block is even these are the rows of that group;
where it is odd the second transfer block starts one row too far.
-/

namespace BitnetXdna

namespace WholeArray

section Events

variable (o : Opts) (tbMax nA : Nat) (a b c : Nat → Tap)

/-- The fills for one row block on one column. -/
def rowEvents (col row : Nat) : List Event :=
  (if col < nAieRows then [.fillA col (row * o.nShimMemA + col) ((row * o.nShimMemA + col) % nA)
    (a ((row * o.nShimMemA + col) % nA))] else []) ++ [.fillB col (b col)]

/-- The tasks of one half on one column. -/
def colEvents (rowBase rows g col : Nat) : List Event :=
  .drain col (g * o.nAieCols + col) (c (g * o.nAieCols + col)) ::
    (List.range rows).flatMap fun i => rowEvents o nA a b col (rowBase + i)

/-- The first row block of half `g`, as the code computes it. -/
def halfBase (g : Nat) : Nat := g / 2 * tbMax + g % 2 * tbMax / 2

/-- The number of row blocks of half `g`. -/
def halfRows (g : Nat) : Nat := min (tbMax / 2) (o.rowBlocks - halfBase tbMax g)

/-- The tasks of half `g`. -/
def halfEvents (g : Nat) : List Event :=
  (List.range o.nAieCols).flatMap (colEvents o nA a b c (halfBase tbMax g) (halfRows o tbMax g) g) ++
    if g = 0 then [] else [.finish]

/-- The row blocks of A that `n` halves fill, in order. -/
def filledRows (n : Nat) : List Nat :=
  (List.range n).flatMap fun g => (List.range (halfRows o tbMax g)).map fun i => halfBase tbMax g + i

end Events

section Loops

variable {o : Opts} {tbMax nA : Nat} {a b c : Nat → Tap} {A B C : List Tap}

theorem fillRows_eq {col rowBase rows : Nat} (hA : A = (List.range nA).map a) (hpos : 0 < rows → 0 < nA)
    (hB : B[col]? = some (b col)) (es : List Event) :
    fillRows o A B rowBase col rows es =
      some (es ++ (List.range rows).flatMap fun i => rowEvents o nA a b col (rowBase + i)) := by
  refine forRange_append _ ?_
  intro i hi es
  have hlen : A.length = nA := by rw [hA, List.length_map, List.length_range]
  have hget : A[((rowBase + i) * o.nShimMemA + col) % nA]? = some (a (((rowBase + i) * o.nShimMemA + col) % nA)) := by
    rw [hA, List.getElem?_map, List.getElem?_range (Nat.mod_lt _ (hpos (by omega))), Option.map_some]
  simp only [hlen, hget, hB, Option.bind_eq_bind, Option.bind_some, Option.pure_def, rowEvents]
  split <;> simp

theorem drainCols_eq {g rowBase rows : Nat} (hA : A = (List.range nA).map a) (hpos : 0 < rows → 0 < nA)
    (hB : ∀ col < o.nAieCols, B[col]? = some (b col))
    (hC : ∀ col < o.nAieCols, C[g * o.nAieCols + col]? = some (c (g * o.nAieCols + col))) (es : List Event) :
    drainCols o A B C rowBase rows (g * o.nAieCols, es) =
      some ((g + 1) * o.nAieCols, es ++ (List.range o.nAieCols).flatMap (colEvents o nA a b c rowBase rows g)) := by
  unfold drainCols
  have key := forRange_eq_some (fun col (st : Nat × List Event) => do
      let tapC ← C[st.1]?
      let es ← fillRows o A B rowBase col rows (st.2 ++ [.drain col st.1 tapC])
      pure (st.1 + 1, es))
    (fun i => (g * o.nAieCols + i, es ++ (List.range i).flatMap (colEvents o nA a b c rowBase rows g)))
    (n := o.nAieCols) ?_
  · simpa [Nat.succ_mul] using key
  · intro col hcol
    simp only [hC col hcol, Option.bind_eq_bind, Option.bind_some, fillRows_eq hA hpos (hB col hcol)]
    rw [List.range_succ, List.flatMap_append, List.flatMap_singleton]
    simp [colEvents, Nat.add_assoc]

/-- One half of a transfer block, or the `break`. -/
theorem pingpongs_cons {G tb pp g : Nat} (hA : A = (List.range nA).map a) (hpos : 0 < o.rowBlocks → 0 < nA)
    (hB : ∀ col < o.nAieCols, B[col]? = some (b col)) (hC : C = (List.range (G * o.nAieCols)).map c)
    (hcols : 0 < o.nAieCols) (hgpp : g = 2 * tb + pp ∧ pp < 2) (rest : List Nat) (es : List Event) :
    pingpongs o tbMax A B C tb (pp :: rest) (g * o.nAieCols, es) =
      if g < G then pingpongs o tbMax A B C tb rest ((g + 1) * o.nAieCols, es ++ halfEvents o tbMax nA a b c g)
      else some (g * o.nAieCols, es) := by
  have hlen : C.length = G * o.nAieCols := by rw [hC, List.length_map, List.length_range]
  by_cases hg : g < G
  · have hlt : g * o.nAieCols < G * o.nAieCols := Nat.mul_lt_mul_of_pos_right hg hcols
    have hget : ∀ col < o.nAieCols, C[g * o.nAieCols + col]? = some (c (g * o.nAieCols + col)) := by
      intro col hcol
      rw [hC, List.getElem?_map, List.getElem?_range (row_add_lt hg hcol), Option.map_some]
    have hbase : tb * tbMax + pp * tbMax / 2 = halfBase tbMax g := by
      unfold halfBase
      rw [show g / 2 = tb by omega, show g % 2 = pp by omega]
    have hrows : 0 < min (tbMax / 2) (o.rowBlocks - halfBase tbMax g) → 0 < nA := fun h => hpos (by omega)
    have hfinish : (tb > 0 ∨ tb = 0 ∧ pp > 0) ↔ ¬g = 0 := by omega
    rw [pingpongs, if_neg (by rw [hlen]; omega), if_pos hg]
    simp only [hbase, drainCols_eq hA hrows hB hget, Option.bind_eq_bind, Option.bind_some, hfinish]
    unfold halfEvents halfRows
    by_cases h0 : g = 0
    · rw [if_neg (not_not.mpr h0), if_pos h0, List.append_nil]
    · rw [if_pos h0, if_neg h0, List.append_assoc]
  · rw [pingpongs, if_neg hg, if_pos]
    rw [hlen]
    exact Nat.mul_le_mul_right _ (by omega)

/-- The halves of a whole transfer block. -/
theorem pingpongs_eq {G : Nat} (hA : A = (List.range nA).map a) (hpos : 0 < o.rowBlocks → 0 < nA)
    (hB : ∀ col < o.nAieCols, B[col]? = some (b col)) (hC : C = (List.range (G * o.nAieCols)).map c)
    (hcols : 0 < o.nAieCols) (tb : Nat) :
    pingpongs o tbMax A B C tb [0, 1]
        (min (2 * tb) G * o.nAieCols, (List.range (min (2 * tb) G)).flatMap (halfEvents o tbMax nA a b c)) =
      some (min (2 * (tb + 1)) G * o.nAieCols,
        (List.range (min (2 * (tb + 1)) G)).flatMap (halfEvents o tbMax nA a b c)) := by
  have hstep : ∀ n, (List.range n).flatMap (halfEvents o tbMax nA a b c) ++ halfEvents o tbMax nA a b c n =
      (List.range (n + 1)).flatMap (halfEvents o tbMax nA a b c) := by
    intro n
    rw [List.range_succ, List.flatMap_append, List.flatMap_singleton]
  rcases Nat.lt_or_ge (2 * tb) G with h0 | h0
  · rw [Nat.min_eq_left (by omega), pingpongs_cons (g := 2 * tb) hA hpos hB hC hcols ⟨rfl, by decide⟩, if_pos h0, hstep,
      pingpongs_cons (g := 2 * tb + 1) hA hpos hB hC hcols ⟨rfl, by decide⟩]
    rcases Nat.lt_or_ge (2 * tb + 1) G with h1 | h1
    · rw [if_pos h1, hstep, Nat.min_eq_left (by omega)]
      rfl
    · rw [if_neg (by omega), Nat.min_eq_right (by omega), show G = 2 * tb + 1 by omega]
  · -- the list of tiles was used up before this block
    have hlen : C.length = G * o.nAieCols := by rw [hC, List.length_map, List.length_range]
    rw [Nat.min_eq_right h0, Nat.min_eq_right (by omega)]
    unfold pingpongs
    rw [if_pos (by rw [hlen])]

/-- The sequence runs to its end and lists the halves in order, as many as the transfer blocks and the tiles of C allow. -/
theorem sequence_eq {G : Nat} (hA : A = (List.range nA).map a) (hpos : 0 < o.rowBlocks → 0 < nA)
    (hB : ∀ col < o.nAieCols, B[col]? = some (b col)) (hC : C = (List.range (G * o.nAieCols)).map c)
    (hcols : 0 < o.nAieCols) :
    sequence o tbMax A B C = some ((List.range (min (2 * ceilDiv o.rowBlocks tbMax) G)).flatMap
      (halfEvents o tbMax nA a b c) ++ [.finish]) := by
  have key := forRange_eq_some (fun tb st => pingpongs o tbMax A B C tb [0, 1] st)
    (fun tb => (min (2 * tb) G * o.nAieCols, (List.range (min (2 * tb) G)).flatMap (halfEvents o tbMax nA a b c)))
    (n := ceilDiv o.rowBlocks tbMax) fun tb _ => pingpongs_eq hA hpos hB hC hcols tb
  simp only [Nat.mul_zero, Nat.zero_min, Nat.zero_mul, List.range_zero, List.flatMap_nil] at key
  simp only [sequence, key, Option.bind_eq_bind, Option.bind_some, Option.pure_def]

end Loops

section Projections

variable {o : Opts} {tbMax nA : Nat} {a b c : Nat → Tap}

/-- Every task of a column is on it. -/
theorem col?_colEvents {rowBase rows g col : Nat} :
    ∀ e ∈ colEvents o nA a b c rowBase rows g col, e.col? = some col := by
  intro e he
  rcases List.mem_cons.mp he with rfl | he
  · rfl
  · obtain ⟨i, -, he⟩ := List.mem_flatMap.mp he
    rcases List.mem_append.mp he with he | he
    · split at he
      · rw [List.mem_singleton.mp he]
        rfl
      · cases he
    · rw [List.mem_singleton.mp he]
      rfl

/-- What a projection to one column sees of a half. -/
theorem filterMap_halfEvents {β : Type} {p : Event → Option β} {col : Nat} (hp : ∀ e, e.col? ≠ some col → p e = none)
    (hcol : col < o.nAieCols) (g : Nat) :
    (halfEvents o tbMax nA a b c g).filterMap p =
      (colEvents o nA a b c (halfBase tbMax g) (halfRows o tbMax g) g col).filterMap p := by
  have hfinish : (if g = 0 then [] else [Event.finish]).filterMap p = [] := by
    split
    · rfl
    · rw [List.filterMap_cons_none (hp .finish nofun), List.filterMap_nil]
  unfold halfEvents
  rw [List.filterMap_append, hfinish, List.append_nil, List.filterMap_flatMap]
  refine Sharding.flatMap_range_only hcol fun col' _ hne => List.filterMap_eq_nil_iff.mpr fun e he => hp e ?_
  rw [col?_colEvents e he]
  intro h
  exact hne (Option.some.inj h)

/-- What a projection to one column sees of the whole sequence. -/
theorem filterMap_sequence {β : Type} {p : Event → Option β} {col : Nat} (hp : ∀ e, e.col? ≠ some col → p e = none)
    (hcol : col < o.nAieCols) (n : Nat) :
    ((List.range n).flatMap (halfEvents o tbMax nA a b c) ++ [Event.finish]).filterMap p =
      (List.range n).flatMap fun g =>
        (colEvents o nA a b c (halfBase tbMax g) (halfRows o tbMax g) g col).filterMap p := by
  rw [List.filterMap_append, List.filterMap_cons_none (hp .finish nofun), List.filterMap_nil, List.append_nil,
    List.filterMap_flatMap]
  congr 1
  funext g
  exact filterMap_halfEvents hp hcol g

theorem fillA?_of_col {col : Nat} : ∀ e : Event, e.col? ≠ some col → e.fillA? col = none := by
  intro e h
  cases e with
  | fillA c index tile tap => exact if_neg fun hc => h (congrArg some hc)
  | drain | fillB | finish => rfl

theorem fillB?_of_col {col : Nat} : ∀ e : Event, e.col? ≠ some col → e.fillB? col = none := by
  intro e h
  cases e with
  | fillB c tap => exact if_neg fun hc => h (congrArg some hc)
  | drain | fillA | finish => rfl

theorem drain?_of_col {col : Nat} : ∀ e : Event, e.col? ≠ some col → e.drain? col = none := by
  intro e h
  cases e with
  | drain c tile tap => exact if_neg fun hc => h (congrArg some hc)
  | fillA | fillB | finish => rfl

/-- The fills of A on a column that feeds A. -/
theorem fillsA_sequence {col : Nat} (hcol : col < o.nAieCols) (hrow : col < nAieRows) (n : Nat) :
    fillsA col ((List.range n).flatMap (halfEvents o tbMax nA a b c) ++ [.finish]) =
      (filledRows o tbMax n).map
        fun row => (row * o.nShimMemA + col, (row * o.nShimMemA + col) % nA, a ((row * o.nShimMemA + col) % nA)) := by
  unfold fillsA filledRows
  rw [filterMap_sequence fillA?_of_col hcol, List.map_flatMap]
  congr 1
  funext g
  have hrow' : ∀ row, (rowEvents o nA a b col row).filterMap (Event.fillA? col) =
      [(row * o.nShimMemA + col, (row * o.nShimMemA + col) % nA, a ((row * o.nShimMemA + col) % nA))] := by
    intro row
    simp [rowEvents, hrow, Event.fillA?]
  simp only [colEvents, List.filterMap_cons, Event.fillA?, List.filterMap_flatMap, hrow', List.map_map,
    ← List.map_eq_flatMap]
  rfl

/-- The fills of B on a column. -/
theorem fillsB_sequence {col : Nat} (hcol : col < o.nAieCols) (n : Nat) :
    fillsB col ((List.range n).flatMap (halfEvents o tbMax nA a b c) ++ [.finish]) =
      (filledRows o tbMax n).map fun _ => b col := by
  unfold fillsB filledRows
  rw [filterMap_sequence fillB?_of_col hcol, List.map_flatMap]
  congr 1
  funext g
  have hrow' : ∀ row, (rowEvents o nA a b col row).filterMap (Event.fillB? col) = [b col] := by
    intro row
    by_cases hr : col < nAieRows
    · simp [rowEvents, hr, Event.fillB?, List.filterMap_cons]
    · simp [rowEvents, hr, Event.fillB?]
  simp only [colEvents, List.filterMap_cons, Event.fillB?, List.filterMap_flatMap, hrow', List.map_map,
    ← List.map_eq_flatMap]
  rfl

/-- The drains of C on a column. -/
theorem drains_sequence {col : Nat} (hcol : col < o.nAieCols) (n : Nat) :
    drains col ((List.range n).flatMap (halfEvents o tbMax nA a b c) ++ [.finish]) =
      (List.range n).map fun g => (g * o.nAieCols + col, c (g * o.nAieCols + col)) := by
  unfold drains
  rw [filterMap_sequence drain?_of_col hcol, List.map_eq_flatMap]
  congr 1
  funext g
  have hrow' : ∀ row, (rowEvents o nA a b col row).filterMap (Event.drain? col) = [] := by
    intro row
    by_cases hr : col < nAieRows
    · simp [rowEvents, hr, Event.drain?, List.filterMap_cons]
    · simp [rowEvents, hr, Event.drain?]
  simp [colEvents, Event.drain?, List.filterMap_flatMap, hrow']

end Projections

/-! ## The tile lists -/

/-- The shapes that pass the checks, as products. -/
structure Opts.Tiled (o : Opts) : Prop where
  m : 0 < o.m
  M : o.M = o.m * nAieRows * o.rowBlocks
  k : 0 < o.k
  K : o.K = o.k * (o.K / o.k)
  n : 0 < o.n
  N : o.N = o.n * o.colTiles * o.nAieCols
  cols : 0 < o.nAieCols
  even : o.rowBlocks % 2 = 0
  shimRows : o.nShimMemA * o.nATilesPerShim = nAieRows
  shims : 0 < o.nShimMemA ∧ o.nShimMemA ≤ nAieRows ∧ o.nShimMemA ≤ o.nAieCols

theorem Opts.Accepted.tiled {o : Opts} {macDims : Nat × Nat × Nat} (h : o.Accepted macDims) : o.Tiled := by
  obtain ⟨⟨hm, hM⟩, ⟨hk, hK⟩, ⟨hn, hN⟩, hR⟩ := validateShapeArgs_ok h.shape
  have hn0 := Nat.pos_of_mul_pos_right hn
  have hc0 := Nat.pos_of_mul_pos_left hn
  have hshims : o.nShimMemA * o.nATilesPerShim = nAieRows ∧
      0 < o.nShimMemA ∧ o.nShimMemA ≤ nAieRows ∧ o.nShimMemA ≤ o.nAieCols := by
    have hcols := h.cols
    simp only [List.mem_cons, List.not_mem_nil, or_false] at hcols
    unfold Opts.nShimMemA Opts.nATilesPerShim
    rcases hcols with hc | hc | hc | hc <;> rw [hc] <;> decide
  refine ⟨Nat.pos_of_mul_pos_right hm, ?_, hk, (Nat.mul_div_cancel' (Nat.dvd_of_mod_eq_zero hK)).symm, hn0, ?_, hc0, hR,
    hshims.1, hshims.2⟩
  · unfold Opts.rowBlocks
    rw [Nat.div_div_eq_div_mul, Nat.mul_div_cancel' (Nat.dvd_of_mod_eq_zero hM)]
  · unfold Opts.colTiles
    rw [Nat.div_div_eq_div_mul, Nat.mul_right_comm, Nat.mul_div_cancel' (Nat.dvd_of_mod_eq_zero hN)]

/-- The tile `g` of A. -/
def aTap (o : Opts) (g : Nat) : Tap := ⟨⟨g, 1, 1⟩, ⟨0, 1, o.K / o.k⟩, o.colTiles⟩

/-- The tile `g` of C, for groups of `h` row blocks. -/
def cTap (o : Opts) (h g : Nat) : Tap := ⟨⟨g / o.nAieCols * h, 1, h⟩, ⟨g % o.nAieCols, o.nAieCols, o.colTiles⟩, 1⟩

section Tiles

variable {T : TensorTiler2D} {o : Opts}

theorem stepStrip_one (r p : Nat) : stepStrip r 1 p = ⟨p * r, 1, r⟩ := by
  simp [stepStrip, Nat.mod_one]

/-- A phase below the step. -/
theorem stepStrip_phase {r s p : Nat} (hp : p < s) : stepStrip r s p = ⟨p, s, r⟩ := by
  simp [stepStrip, Nat.div_eq_of_lt hp, Nat.mod_eq_of_lt hp]

/-- A step tiler that returns was given groups with tiles, whose rows divide the tensor's. -/
theorem TensorTiler2D.Documented.stepTiler_some {a : StepTiler} {taps : List Tap} (hT : T.Documented)
    (h : T.stepTiler a = some taps) : 0 < a.tileGroupRepeats.1 ∧ 0 < a.tileGroupRepeats.2 ∧
      a.tileDims.1 * a.tileGroupRepeats.1 ∣ a.tensorDims.1 := by
  by_contra h0
  rw [hT.stepRaises] at h
  · cases h
  · by_contra hc
    simp only [not_or, not_not] at hc
    exact h0 ⟨Nat.pos_of_ne_zero hc.1, Nat.pos_of_ne_zero hc.2.1, hc.2.2⟩

/-- The tiles of A: one for each shim and row block. -/
theorem aTiles_eq {A : List Tap} (hT : T.Documented) (ho : o.Tiled) (h : aTiles T o = some A) :
    A = (List.range (o.rowBlocks * o.nShimMemA)).map (aTap o) := by
  unfold aTiles at h
  have hK : 0 < o.K / o.k := by
    by_contra h0
    rw [hT.groupRaises _ (Or.inr (Nat.eq_zero_of_not_pos h0))] at h
    cases h
  have hper : 0 < o.nATilesPerShim := Nat.pos_of_mul_pos_left (show 0 < o.nShimMemA * _ by rw [ho.shimRows]; decide)
  have hM : o.M = o.m * o.nATilesPerShim * 1 * (o.rowBlocks * o.nShimMemA) := by
    rw [ho.M, ← ho.shimRows]
    ring
  have hK' : o.k * (o.K / o.k) = o.K := ho.K.symm
  have hK0 : 0 < o.K := hK' ▸ Nat.mul_pos ho.k hK
  rw [hT.group _ ⟨Nat.one_pos, hK, ⟨_, hM⟩, by rw [hK']⟩] at h
  have hrows : o.M / (o.m * o.nATilesPerShim) = o.rowBlocks * o.nShimMemA := by
    rw [hM, Nat.mul_one]
    exact Nat.mul_div_cancel_left _ (Nat.mul_pos ho.m hper)
  rw [← Option.some.inj h]
  simp only [GroupTiler.taps, Nat.mul_one, hrows, hK', Nat.div_self hK0, Nat.div_one, Nat.mod_one, stepStrip_one,
    Nat.zero_mul]
  rfl

/-- The tile of B for column `g`. -/
def bTap (o : Opts) (g : Nat) : Tap :=
  if o.bColMaj then ⟨⟨g, o.nAieCols, o.colTiles⟩, ⟨0, 1, o.K / o.k⟩, 1⟩
  else ⟨⟨0, 1, o.K / o.k⟩, ⟨g, o.nAieCols, o.colTiles⟩, 1⟩

/-- The tiles of B: one for each column. -/
theorem bTiles_eq_map {B : List Tap} (hT : T.Documented) (ho : o.Tiled) (h : bTiles T o = some B) :
    0 < o.colTiles ∧ 0 < o.K / o.k ∧ B = (List.range o.nAieCols).map (bTap o) := by
  have hK' : o.k * (o.K / o.k) = o.K := ho.K.symm
  have hN : o.N = o.n * o.colTiles * o.nAieCols := ho.N
  unfold bTiles at h
  cases hb : o.bColMaj with
  | true =>
    rw [hb, if_pos rfl] at h
    obtain ⟨hc, hk, -⟩ := hT.stepTiler_some h
    have hcols : o.N / (o.n * o.colTiles) = o.nAieCols := by
      rw [hN]
      exact Nat.mul_div_cancel_left _ (Nat.mul_pos ho.n hc)
    rw [hT.step _ ⟨hc, hk, ⟨1, by rw [Nat.mul_one]; exact hN⟩, by simp only [Nat.mul_one, hK', dvd_refl]⟩] at h
    rw [← Option.some.inj h, StepTiler.taps, hcols, hK', Nat.div_self (hK' ▸ Nat.mul_pos ho.k hk), Nat.mul_one]
    refine ⟨hc, hk, List.map_congr_left fun g hg => ?_⟩
    simp only [bTap, hb, if_true, Bool.false_eq_true, if_false, Nat.div_one, Nat.mod_one, stepStrip_one, Nat.zero_mul,
      stepStrip_phase (List.mem_range.mp hg)]
  | false =>
    rw [hb, if_neg nofun] at h
    obtain ⟨hk, hc, -⟩ := hT.stepTiler_some h
    have hcols : o.N / (o.n * o.colTiles) = o.nAieCols := by
      rw [hN]
      exact Nat.mul_div_cancel_left _ (Nat.mul_pos ho.n hc)
    rw [hT.step _ ⟨hk, hc, by simp only [Nat.mul_one, hK', dvd_refl], ⟨1, by rw [Nat.mul_one]; exact hN⟩⟩] at h
    rw [← Option.some.inj h, StepTiler.taps, hcols, hK', Nat.div_self (hK' ▸ Nat.mul_pos ho.k hk), Nat.one_mul]
    refine ⟨hc, hk, List.map_congr_left fun g hg => ?_⟩
    have hlt := List.mem_range.mp hg
    simp only [bTap, hb, Bool.false_eq_true, if_false, Nat.div_eq_of_lt hlt, Nat.mod_eq_of_lt hlt, stepStrip_one,
      Nat.zero_mul, stepStrip_phase hlt]

/-- There is a tile of B for every column. -/
theorem bTiles_eq {B : List Tap} (hT : T.Documented) (ho : o.Tiled) (h : bTiles T o = some B) :
    ∃ b : Nat → Tap, B = (List.range o.nAieCols).map b :=
  ⟨bTap o, (bTiles_eq_map hT ho h).2.2⟩

/-- The tiles of C: one for each column and group of row blocks. -/
theorem cTiles_eq {C : List Tap} {tbMax : Nat} (hT : T.Documented) (ho : o.Tiled) (hmaj : o.cColMaj = false)
    (h : cTiles T o tbMax = some C) :
    ∃ G, o.rowBlocks = G * (tbMax / 2) ∧ 0 < tbMax / 2 ∧ C = (List.range (G * o.nAieCols)).map (cTap o (tbMax / 2)) := by
  unfold cTiles at h
  rw [hmaj, if_neg nofun] at h
  obtain ⟨hh, hc, G, hG⟩ := hT.stepTiler_some h
  simp only at hh hc hG
  have hm : 0 < o.m * nAieRows := Nat.mul_pos ho.m (by decide)
  have hR : o.rowBlocks = G * (tbMax / 2) := by
    refine Nat.eq_of_mul_eq_mul_left hm ?_
    rw [← ho.M, hG]
    ring
  have hrows : o.M / (o.m * nAieRows * (tbMax / 2)) = G := by
    rw [hG]
    exact Nat.mul_div_cancel_left _ (Nat.mul_pos hm hh)
  have hcols : o.N / (o.n * o.colTiles) = o.nAieCols := by
    rw [ho.N]
    exact Nat.mul_div_cancel_left _ (Nat.mul_pos ho.n hc)
  refine ⟨G, hR, hh, ?_⟩
  rw [hT.step _ ⟨hh, hc, by rw [Nat.mul_one]; exact ⟨G, hG⟩, ⟨1, by rw [Nat.mul_one]; exact ho.N⟩⟩] at h
  rw [← Option.some.inj h]
  simp only [StepTiler.taps, hrows, hcols, stepStrip_one, Bool.false_eq_true, if_false]
  refine List.map_congr_left ?_
  intro g _
  rw [stepStrip_phase (Nat.mod_lt g ho.cols)]
  rfl

end Tiles

/-! ## The row blocks filled -/

section Rows

variable {o : Opts} {tbMax G : Nat}

/-- Only row blocks of the matrix are filled. -/
theorem filledRows_lt {n : Nat} : ∀ row ∈ filledRows o tbMax n, row < o.rowBlocks := by
  intro row hrow
  obtain ⟨g, -, hrow⟩ := List.mem_flatMap.mp hrow
  obtain ⟨i, hi, rfl⟩ := List.mem_map.mp hrow
  have hi' := List.mem_range.mp hi
  unfold halfRows at hi'
  omega

/-- Where the transfer block is even or the only one, half `g` starts at the row blocks of the `g`-th group. -/
theorem halfBase_eq {g : Nat} (heven : tbMax % 2 = 0 ∨ g < 2) : halfBase tbMax g = g * (tbMax / 2) := by
  unfold halfBase
  rcases heven with heven | hg
  · obtain ⟨h, rfl⟩ := Nat.dvd_of_mod_eq_zero heven
    rw [Nat.mul_div_cancel_left _ (by decide), Nat.mul_left_comm (g % 2), Nat.mul_div_cancel_left _ (by decide),
      Nat.mul_left_comm, ← Nat.mul_assoc, ← Nat.add_mul, Nat.div_add_mod]
  · rcases (show g = 0 ∨ g = 1 by omega) with rfl | rfl
    · simp
    · simp

/-- The groups of tiles of C are used up, and at most two if the transfer block is the only one. -/
theorem groups_le (hR : o.rowBlocks = G * (tbMax / 2)) (hh : 0 < tbMax / 2) (heven : o.rowBlocks % 2 = 0)
    (hgood : tbMax % 2 = 0 ∨ o.rowBlocks ≤ tbMax) : G ≤ 2 * ceilDiv o.rowBlocks tbMax ∧ (tbMax % 2 = 0 ∨ G ≤ 2) := by
  have hcover : o.rowBlocks ≤ ceilDiv o.rowBlocks tbMax * tbMax := le_ceilDiv_mul (by omega)
  rcases hgood with hgood | hgood
  · refine ⟨?_, Or.inl hgood⟩
    obtain ⟨h, rfl⟩ := Nat.dvd_of_mod_eq_zero hgood
    rw [Nat.mul_div_cancel_left _ (by decide)] at hR hh
    rw [hR] at hcover ⊢
    refine Nat.le_of_mul_le_mul_right ?_ hh
    rw [Nat.mul_comm 2, Nat.mul_assoc]
    exact hcover
  · have hG : G ≤ 2 := by
      by_contra h3
      -- three groups in one transfer block would be three row blocks, an odd number
      have hmul : 3 * (tbMax / 2) ≤ G * (tbMax / 2) := Nat.mul_le_mul_right _ (by omega)
      have hone : tbMax / 2 = 1 := by omega
      rw [hone] at hR hmul
      omega
    refine ⟨?_, Or.inr hG⟩
    rcases Nat.eq_zero_or_pos G with rfl | hpos
    · exact Nat.zero_le _
    · have hRpos : 0 < o.rowBlocks := hR ▸ Nat.mul_pos hpos hh
      have hceil : 0 < ceilDiv o.rowBlocks tbMax := (lt_ceilDiv_iff (by omega)).mpr (by omega)
      omega

/-- Where the transfer block is even or the only one, every row block is filled, in order. -/
theorem filledRows_eq (hR : o.rowBlocks = G * (tbMax / 2)) (hbase : ∀ g < G, halfBase tbMax g = g * (tbMax / 2)) :
    filledRows o tbMax G = List.range o.rowBlocks := by
  unfold filledRows
  rw [hR, ← Sharding.flatMap_range_blocks]
  refine List.flatMap_congr ?_
  intro g hg
  have hlt := List.mem_range.mp hg
  have hrow : g * (tbMax / 2) + tbMax / 2 ≤ G * (tbMax / 2) := row_add_le hlt (Nat.le_refl _)
  unfold halfRows
  rw [hbase g hlt, hR, Nat.min_eq_left (by omega)]

/-- With an odd transfer block that is not the only one, the last row block of the first one is never filled. -/
theorem not_mem_filledRows (hodd : tbMax % 2 = 1) (n : Nat) : 2 * (tbMax / 2) ∉ filledRows o tbMax n := by
  intro hmem
  obtain ⟨g, -, hrow⟩ := List.mem_flatMap.mp hmem
  obtain ⟨i, hi, hi'⟩ := List.mem_map.mp hrow
  have hlt := List.mem_range.mp hi
  unfold halfRows at hlt
  rcases Nat.lt_or_ge g 2 with hg | hg
  · rw [halfBase_eq (Or.inr hg)] at hi' hlt
    have hmul : g * (tbMax / 2) ≤ 1 * (tbMax / 2) := Nat.mul_le_mul_right _ (by omega)
    omega
  · have hmul : 1 * tbMax ≤ g / 2 * tbMax := Nat.mul_le_mul_right _ (by omega)
    unfold halfBase at hi'
    omega

/-- The row block of the tile of A for shim `col` and row block `row`. -/
theorem aRowBlock_eq (tap : Tap) {col row : Nat} (ho : o.Tiled) (hcol : col < o.nShimMemA)
    (htap : tap.rows.start = row * o.nShimMemA + col) :
    o.aRowBlock tap = row ∧ tap.rows.start * (o.m * o.nATilesPerShim) =
      row * (o.m * nAieRows) + col * (o.m * o.nATilesPerShim) := by
  have hpos : 0 < o.m * nAieRows := Nat.mul_pos ho.m (by decide)
  have hper : 0 < o.nATilesPerShim := Nat.pos_of_mul_pos_left (show 0 < o.nShimMemA * _ by rw [ho.shimRows]; decide)
  have hstart : tap.rows.start * (o.m * o.nATilesPerShim) =
      row * (o.m * nAieRows) + col * (o.m * o.nATilesPerShim) := by
    rw [htap, ← ho.shimRows]
    ring
  have hlt : col * (o.m * o.nATilesPerShim) < o.m * nAieRows := by
    rw [← ho.shimRows, Nat.mul_left_comm o.m]
    exact Nat.mul_lt_mul_of_pos_right hcol (Nat.mul_pos ho.m hper)
  refine ⟨?_, hstart⟩
  unfold Opts.aRowBlock
  rw [hstart, Nat.mul_comm row, Nat.mul_add_div hpos, Nat.div_eq_of_lt hlt, Nat.add_zero]

end Rows

/-! ## The whole schedule -/

section Schedule

variable {o : Opts} {v : Nat} {b : Nat → Tap}

/-- The first `n` halves, with the tiles of A and C as the tiler gives them. -/
def halves (o : Opts) (v : Nat) (b : Nat → Tap) (n : Nat) : List Event :=
  (List.range n).flatMap (halfEvents o v (o.rowBlocks * o.nShimMemA) (aTap o) b (cTap o (v / 2))) ++ [.finish]

/-- The fills of a shim that feeds A: no index is reduced. -/
theorem fillsA_halves (ho : o.Tiled) {col : Nat} (hcol : col < o.nShimMemA) (n : Nat) :
    fillsA col (halves o v b n) = (filledRows o v n).map fun row =>
      (row * o.nShimMemA + col, row * o.nShimMemA + col, aTap o (row * o.nShimMemA + col)) := by
  have hshims := ho.shims
  unfold halves
  rw [fillsA_sequence (by omega) (by omega)]
  refine List.map_congr_left ?_
  intro row hrow
  rw [Nat.mod_eq_of_lt (row_add_lt (filledRows_lt row hrow) hcol)]

/-- The row blocks that a shim fills. -/
theorem aBlocks_halves (ho : o.Tiled) {col : Nat} (hcol : col < o.nShimMemA) (n : Nat) :
    (fillsA col (halves o v b n)).map (fun f => o.aRowBlock f.2.2) = filledRows o v n := by
  rw [fillsA_halves ho hcol, List.map_map]
  refine (List.map_congr_left fun row _ => ?_).trans (List.map_id _)
  exact (aRowBlock_eq _ ho hcol rfl).1

/-- Where the halves fill every row block in order, the schedule is complete. -/
theorem complete_halves {B : List Tap} {G : Nat} (ho : o.Tiled) (hB : ∀ col < o.nAieCols, B[col]? = some (b col))
    (hR : o.rowBlocks = G * (v / 2)) (hfilled : filledRows o v G = List.range o.rowBlocks) :
    Complete o B ((List.range (G * o.nAieCols)).map (cTap o (v / 2))) (halves o v b G) := by
  refine ⟨fun col hcol => ?_, fun col hcol f hf => ?_, fun col hcol f hf => ?_, fun col hcol => ?_, fun col hcol d hd => ?_,
    fun g hg => ?_, fun col hcol => ?_⟩
  · rw [aBlocks_halves ho hcol, hfilled]
  · rw [fillsA_halves ho hcol] at hf
    obtain ⟨row, -, rfl⟩ := List.mem_map.mp hf
    obtain ⟨hblock, hstart⟩ := aRowBlock_eq (aTap o (row * o.nShimMemA + col)) ho hcol rfl
    refine ⟨by simp [aTap, Strip.tiles], ?_⟩
    rw [hblock]
    exact hstart
  · rw [fillsA_halves ho hcol] at hf
    obtain ⟨row, -, rfl⟩ := List.mem_map.mp hf
    rfl
  · unfold halves
    rw [drains_sequence hcol, List.flatMap_map, hR, ← Sharding.flatMap_range_blocks]
    refine List.flatMap_congr ?_
    intro g _
    simp only [cTap, row_add_div hcol, Strip.tiles, Nat.mul_one]
  · unfold halves at hd
    rw [drains_sequence hcol] at hd
    obtain ⟨g, -, rfl⟩ := List.mem_map.mp hd
    simp only [cTap, row_add_mod hcol]
  · have hlt : g < G * o.nAieCols := by simpa using hg
    refine ⟨g % o.nAieCols, Nat.mod_lt g ho.cols, ?_⟩
    unfold halves
    rw [drains_sequence (Nat.mod_lt g ho.cols), List.map_map]
    exact List.mem_map.mpr ⟨g / o.nAieCols, List.mem_range.mpr (Nat.div_lt_of_lt_mul (by rwa [Nat.mul_comm])),
      Nat.div_add_mod' g o.nAieCols⟩
  · unfold halves
    rw [fillsB_sequence hcol, hfilled]
    refine ⟨by simp, fun tap htap => ?_⟩
    obtain ⟨row, -, rfl⟩ := List.mem_map.mp htap
    exact hB col hcol

end Schedule

/-- For every accepted configuration, every `TB_MAX_N_ROWS` from 2 on and every documented tiler that returns the three lists
of tiles, the sequence runs to its end, and its schedule is complete exactly when `TB_MAX_N_ROWS` is even or no less than
the number of row blocks. -/
theorem schedule_complete_iff (T : TensorTiler2D) (hT : T.Documented) (o : Opts) (macDims : Nat × Nat × Nat)
    (ho : o.Accepted macDims) (hmaj : o.cColMaj = false) (v : Nat) (hv : 2 ≤ v) (A B C : List Tap)
    (hA : aTiles T o = some A) (hB : bTiles T o = some B) (hC : cTiles T o (tbMaxNRows o (some v)) = some C) :
    ∃ es, sequence o (tbMaxNRows o (some v)) A B C = some es ∧
      (Complete o B C es ↔ v % 2 = 0 ∨ o.rowBlocks ≤ v) := by
  have htb : tbMaxNRows o (some v) = v := if_pos (show v ≠ 0 by omega)
  have ht := ho.tiled
  rw [htb] at hC ⊢
  have hAeq := aTiles_eq hT ht hA
  obtain ⟨b, hBeq⟩ := bTiles_eq hT ht hB
  obtain ⟨G, hR, hh, rfl⟩ := cTiles_eq hT ht hmaj hC
  have hBget : ∀ col < o.nAieCols, B[col]? = some (b col) := by
    intro col hcol
    rw [hBeq, List.getElem?_map, List.getElem?_range hcol, Option.map_some]
  have hpos : 0 < o.rowBlocks → 0 < o.rowBlocks * o.nShimMemA := fun h => Nat.mul_pos h ht.shims.1
  refine ⟨_, sequence_eq hAeq hpos hBget rfl ht.cols, ?_⟩
  constructor
  · intro hcomplete
    by_contra hbad
    -- shim 0 never fills the last row block of the first transfer block
    have hlist := hcomplete.aBlocks 0 ht.shims.1
    have hodd : v % 2 = 1 := by omega
    have hskip : 2 * (v / 2) ∉ filledRows o v (min (2 * ceilDiv o.rowBlocks v) G) := not_mem_filledRows hodd _
    refine hskip ?_
    rw [← aBlocks_halves (b := b) ht ht.shims.1]
    unfold halves
    rw [hlist]
    exact List.mem_range.mpr (by omega)
  · intro hgood
    obtain ⟨hG, hG2⟩ := groups_le hR hh ht.even hgood
    rw [Nat.min_eq_right hG]
    exact complete_halves ht hBget hR (filledRows_eq hR fun g hg => halfBase_eq (by omega))

/-! ## A transfer block of three -/

instance (a : GroupTiler) : Decidable a.Fits := inferInstanceAs (Decidable (_ ∧ _ ∧ _ ∧ _))

instance (a : StepTiler) : Decidable a.Fits := inferInstanceAs (Decidable (_ ∧ _ ∧ _ ∧ _))

/-- A tiler that returns what fits. -/
def fittingTiler : TensorTiler2D where
  groupTiler a := if a.Fits then some a.taps else none
  stepTiler a := if a.Fits then some a.taps else none

theorem fittingTiler_documented : fittingTiler.Documented where
  group _ h := if_pos h
  groupRaises _ h := if_neg fun hf => by rcases h with h | h <;> exact absurd h (by have := hf.1; have := hf.2.1; omega)
  step _ h := if_pos h
  stepRaises _ h := if_neg fun hf => by
    rcases h with h | h | h
    · exact absurd hf.1 (by omega)
    · exact absurd hf.2.1 (by omega)
    · exact h (dvd_of_mul_right_dvd hf.2.2.1)

/-- The tiling of the 2560 x 2560 tensors on eight columns, with four row blocks. -/
def fourBlocks : Opts where
  dev := .npu2
  M := 1024
  K := 2560
  N := 2560
  m := 64
  k := 64
  n := 64
  nAieCols := 8
  dtypeIn := .i8
  dtypeOut := .i32
  bColMaj := false
  cColMaj := false

theorem fourBlocks_accepted : fourBlocks.Accepted (8, 8, 8) where
  cols := by decide
  shape := rfl
  asserts := rfl

/-- The default transfer block on four row blocks. -/
theorem schedule_complete_iff_four_blocks :
    ∃ A B C es, aTiles fittingTiler fourBlocks = some A ∧ bTiles fittingTiler fourBlocks = some B ∧
      cTiles fittingTiler fourBlocks (tbMaxNRows fourBlocks (some 4)) = some C ∧
      sequence fourBlocks (tbMaxNRows fourBlocks (some 4)) A B C = some es ∧
      (Complete fourBlocks B C es ↔ 4 % 2 = 0 ∨ fourBlocks.rowBlocks ≤ 4) := by
  obtain ⟨es, hes⟩ := schedule_complete_iff fittingTiler fittingTiler_documented fourBlocks (8, 8, 8) fourBlocks_accepted
    rfl 4 (by decide) _ _ _ rfl rfl rfl
  exact ⟨_, _, _, es, rfl, rfl, rfl, hes⟩

/-- With `TB_MAX_N_ROWS=3` four row blocks are accepted and drained, but the third is never filled, so the schedule is not
complete. -/
theorem odd_transfer_block_skips_row :
    fittingTiler.Documented ∧ fourBlocks.Accepted (8, 8, 8) ∧
      ∃ A B C es, aTiles fittingTiler fourBlocks = some A ∧ bTiles fittingTiler fourBlocks = some B ∧
        cTiles fittingTiler fourBlocks (tbMaxNRows fourBlocks (some 3)) = some C ∧
        sequence fourBlocks (tbMaxNRows fourBlocks (some 3)) A B C = some es ∧
        (fillsA 0 es).map (fun f => fourBlocks.aRowBlock f.2.2) = [0, 1, 3] ∧
        (drains 0 es).flatMap (fun d => d.2.rows.tiles) = [0, 1, 2, 3] ∧ ¬Complete fourBlocks B C es := by
  refine ⟨fittingTiler_documented, fourBlocks_accepted, _, _, _, _, rfl, rfl, rfl, rfl, by decide, by decide, ?_⟩
  intro h
  have hblocks := h.aBlocks 0 (by decide)
  revert hblocks
  decide

end WholeArray

end BitnetXdna
