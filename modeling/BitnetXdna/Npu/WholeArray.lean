import BitnetXdna.Lib.Exec
import BitnetXdna.Lib.Tiling

/-!
# The transfer schedule of the tuned whole-array design

`sequence` of `whole_array_tuned.py`: which tiles of A and B are filled and which tiles of C are drained on which column, in
which order. `TB_MAX_N_ROWS` sets how many row blocks one transfer block has; one half of a transfer block at a time is in
flight. The tile lists come from `TensorTiler2D`, which is a parameter.
-/

namespace BitnetXdna

namespace WholeArray

/-! ## Options and their checks -/

inductive Dtype
  | bf16
  | i8
  | i16
  | f32
  | i32
  deriving DecidableEq, Repr

def Dtype.isInteger : Dtype → Bool
  | .bf16 | .f32 => false
  | .i8 | .i16 | .i32 => true

def Dtype.itemsize : Dtype → Nat
  | .i8 => 1
  | .bf16 | .i16 => 2
  | .f32 | .i32 => 4

inductive Dev
  | npu
  | npu2
  deriving DecidableEq, Repr

/-- The options that the checks and the schedule read. -/
structure Opts where
  dev : Dev
  M : Nat
  K : Nat
  N : Nat
  m : Nat
  k : Nat
  n : Nat
  nAieCols : Nat
  dtypeIn : Dtype
  dtypeOut : Dtype
  bColMaj : Bool
  cColMaj : Bool

def nAieRows : Nat := 4

/-- `a % b`. -/
def pyMod (a b : Nat) : Except String Nat :=
  if b = 0 then throw "integer modulo by zero" else pure (a % b)

/-- `if c: sys.exit(msg)`. -/
def sysExitIf (c : Prop) [Decidable c] (msg : String) : Except String Unit :=
  if c then throw msg else pure ()

/-- `assert`, without its text. -/
def pyAssert (c : Prop) [Decidable c] : Except String Unit :=
  if c then pure () else throw "AssertionError"

/-- `_validate_shape_args`. -/
def validateShapeArgs (o : Opts) : Except String Unit := do
  let rM ← pyMod o.M (o.m * nAieRows)
  sysExitIf (rM ≠ 0) s!"-M {o.M} must be a multiple of -m * n_aie_rows ({o.m} * {nAieRows} = {o.m * nAieRows})"
  let rK ← pyMod o.K o.k
  sysExitIf (rK ≠ 0) s!"-K {o.K} must be a multiple of -k {o.k}"
  let rN ← pyMod o.N (o.n * o.nAieCols)
  sysExitIf (rN ≠ 0)
    s!"-N {o.N} must be a multiple of -n * --n-aie-cols ({o.n} * {o.nAieCols} = {o.n * o.nAieCols})"
  let tbNRows := 2
  let nRowBlocks := o.M / o.m / nAieRows
  sysExitIf (nRowBlocks % tbNRows ≠ 0)
    (s!"M/m/n_aie_rows = {nRowBlocks} must be a multiple of " ++
      s!"{tbNRows} (transfer-block row count). Try a larger -M or smaller -m.")
  sysExitIf (o.dev = .npu ∧ o.nAieCols > 4) s!"--n-aie-cols {o.nAieCols} > 4 not supported on NPU1 (Phoenix/Hawk)"
  sysExitIf (o.dev = .npu2 ∧ o.nAieCols > 8)
    s!"--n-aie-cols {o.nAieCols} > 8 not supported on NPU2 (Strix/Strix Halo/Krackan)"

/-- The asserts of `_build_design`, with the `mac_dims` of the kernel. -/
def buildDesignAsserts (o : Opts) (macDims : Nat × Nat × Nat) : Except String Unit := do
  let (r, s, t) := macDims
  pyAssert (o.dtypeIn.isInteger = o.dtypeOut.isInteger)
  pyAssert (o.dtypeOut.itemsize ≥ o.dtypeIn.itemsize)
  pyAssert (¬(o.dev = .npu ∧ o.nAieCols > 4))
  pyAssert (¬(o.dev = .npu2 ∧ o.nAieCols > 8))
  pyAssert ((← pyMod o.M (o.m * nAieRows)) = 0)
  pyAssert ((← pyMod o.K o.k) = 0)
  pyAssert ((← pyMod o.N (o.n * o.nAieCols)) = 0)
  pyAssert ((← pyMod o.m r) = 0)
  pyAssert ((← pyMod o.k s) = 0)
  pyAssert ((← pyMod o.n t) = 0)

/-- The choices of `--n-aie-cols` and both sets of checks. -/
structure Opts.Accepted (o : Opts) (macDims : Nat × Nat × Nat) : Prop where
  cols : o.nAieCols ∈ [1, 2, 4, 8]
  shape : validateShapeArgs o = .ok ()
  asserts : buildDesignAsserts o macDims = .ok ()

/-- `M // m // n_aie_rows`. -/
def Opts.rowBlocks (o : Opts) : Nat := o.M / o.m / nAieRows

def Opts.nShimMemA (o : Opts) : Nat := if o.nAieCols > nAieRows then nAieRows else o.nAieCols

def Opts.nATilesPerShim (o : Opts) : Nat := if o.nAieCols < 4 then nAieRows / o.nAieCols else 1

/-- The output tiles of one row block on one column. -/
def Opts.colTiles (o : Opts) : Nat := o.N / o.n / o.nAieCols

/-! ## Tiles -/

/-- Tiles along one dimension: `start`, `start + step`, and so on. -/
structure Strip where
  start : Nat
  step : Nat
  count : Nat
  deriving DecidableEq, Repr

def Strip.tiles (s : Strip) : List Nat := (List.range s.count).map fun j => s.start + j * s.step

/-- What one DMA task transfers, in tiles of the tensor. -/
structure Tap where
  rows : Strip
  cols : Strip
  patternRepeat : Nat
  deriving DecidableEq, Repr

/-- The arguments of `TensorTiler2D.group_tiler`. -/
structure GroupTiler where
  tensorDims : Nat × Nat
  tileDims : Nat × Nat
  tileGroupDims : Nat × Nat
  patternRepeat : Nat

/-- The arguments of `TensorTiler2D.step_tiler`. -/
structure StepTiler where
  tensorDims : Nat × Nat
  tileDims : Nat × Nat
  tileGroupRepeats : Nat × Nat
  tileGroupSteps : Nat × Nat
  tileGroupColMajor : Bool
  iterColMajor : Bool

/-- `TensorTiler2D`: the lists of taps, or an exception. -/
structure TensorTiler2D where
  groupTiler : GroupTiler → Option (List Tap)
  stepTiler : StepTiler → Option (List Tap)

/-- Group `p` of `r` tiles along a dimension, the tiles of a group `s` apart. -/
def stepStrip (r s p : Nat) : Strip := ⟨p / s * (r * s) + p % s, s, r⟩

/-- The groups of a group tiler, row by row. -/
def GroupTiler.taps (a : GroupTiler) : List Tap :=
  let nRows := a.tensorDims.1 / (a.tileDims.1 * a.tileGroupDims.1)
  let nCols := a.tensorDims.2 / (a.tileDims.2 * a.tileGroupDims.2)
  (List.range (nRows * nCols)).map fun g =>
    ⟨stepStrip a.tileGroupDims.1 1 (g / nCols), stepStrip a.tileGroupDims.2 1 (g % nCols), a.patternRepeat⟩

/-- The groups of a step tiler, row by row unless `iter_col_major`. -/
def StepTiler.taps (a : StepTiler) : List Tap :=
  let nRows := a.tensorDims.1 / (a.tileDims.1 * a.tileGroupRepeats.1)
  let nCols := a.tensorDims.2 / (a.tileDims.2 * a.tileGroupRepeats.2)
  (List.range (nRows * nCols)).map fun g =>
    let row := if a.iterColMajor then g % nRows else g / nCols
    let col := if a.iterColMajor then g / nRows else g % nCols
    ⟨stepStrip a.tileGroupRepeats.1 a.tileGroupSteps.1 row, stepStrip a.tileGroupRepeats.2 a.tileGroupSteps.2 col, 1⟩

/-- The groups fill the tensor. -/
def GroupTiler.Fits (a : GroupTiler) : Prop :=
  0 < a.tileGroupDims.1 ∧ 0 < a.tileGroupDims.2 ∧ a.tileDims.1 * a.tileGroupDims.1 ∣ a.tensorDims.1 ∧
    a.tileDims.2 * a.tileGroupDims.2 ∣ a.tensorDims.2

/-- The groups fill the tensor. -/
def StepTiler.Fits (a : StepTiler) : Prop :=
  0 < a.tileGroupRepeats.1 ∧ 0 < a.tileGroupRepeats.2 ∧
    a.tileDims.1 * a.tileGroupRepeats.1 * a.tileGroupSteps.1 ∣ a.tensorDims.1 ∧
    a.tileDims.2 * a.tileGroupRepeats.2 * a.tileGroupSteps.2 ∣ a.tensorDims.2

/-- What the library documents: the groups in order where they fill the tensor, and an exception for a group of no tiles or
groups whose rows do not divide the tensor's. -/
structure TensorTiler2D.Documented (T : TensorTiler2D) : Prop where
  group : ∀ a, a.Fits → T.groupTiler a = some a.taps
  groupRaises : ∀ a, a.tileGroupDims.1 = 0 ∨ a.tileGroupDims.2 = 0 → T.groupTiler a = none
  step : ∀ a, a.Fits → T.stepTiler a = some a.taps
  stepRaises : ∀ a, a.tileGroupRepeats.1 = 0 ∨ a.tileGroupRepeats.2 = 0 ∨
    ¬a.tileDims.1 * a.tileGroupRepeats.1 ∣ a.tensorDims.1 → T.stepTiler a = none

/-- `tb_max_n_rows`, with the value of `TB_MAX_N_ROWS` if it is set. -/
def tbMaxNRows (o : Opts) (env : Option Nat) : Nat :=
  if env.getD 0 ≠ 0 then env.getD 0 else if o.cColMaj then 2 else 4

/-- `A_tiles`. -/
def aTiles (T : TensorTiler2D) (o : Opts) : Option (List Tap) :=
  T.groupTiler ⟨(o.M, o.K), (o.m * o.nATilesPerShim, o.k), (1, o.K / o.k), o.colTiles⟩

/-- `B_tiles`. -/
def bTiles (T : TensorTiler2D) (o : Opts) : Option (List Tap) :=
  T.stepTiler (if o.bColMaj then
    ⟨(o.N, o.K), (o.n, o.k), (o.colTiles, o.K / o.k), (o.nAieCols, 1), false, false⟩
  else
    ⟨(o.K, o.N), (o.k, o.n), (o.K / o.k, o.colTiles), (1, o.nAieCols), true, false⟩)

/-- `C_tiles`. -/
def cTiles (T : TensorTiler2D) (o : Opts) (tbMax : Nat) : Option (List Tap) :=
  T.stepTiler (if o.cColMaj then
    ⟨(o.N, o.M), (o.n, o.m), (o.colTiles, nAieRows), (o.nAieCols, 1), false, true⟩
  else
    ⟨(o.M, o.N), (o.m * nAieRows, o.n), (tbMax / 2, o.colTiles), (1, o.nAieCols), false, false⟩)

/-! ## The sequence -/

/-- A step of the host's sequence: drain a tile of C, fill a tile of A, fill a tile of B, wait for the group. A fill of A
keeps the index it had before `% len(A_tiles)`. -/
inductive Event
  | drain (col tile : Nat) (tap : Tap)
  | fillA (col index tile : Nat) (tap : Tap)
  | fillB (col : Nat) (tap : Tap)
  | finish
  deriving DecidableEq, Repr

section Sequence

variable (o : Opts) (tbMax : Nat) (A B C : List Tap)

/-- The fills of one column for the row blocks from `rowBase` on. -/
def fillRows (rowBase col currentTbNRows : Nat) (es : List Event) : Option (List Event) :=
  forRange currentTbNRows es fun tileRow es => do
    let index := (rowBase + tileRow) * o.nShimMemA + col
    let tileOffset := index % A.length
    let tapA ← A[tileOffset]?
    let es := if col < nAieRows then es ++ [.fillA col index tileOffset tapA] else es
    let tapB ← B[col]?
    pure (es ++ [.fillB col tapB])

/-- The columns of one half of a transfer block. -/
def drainCols (rowBase currentTbNRows : Nat) (st : Nat × List Event) : Option (Nat × List Event) :=
  forRange o.nAieCols st fun col (cIndex, es) => do
    let tapC ← C[cIndex]?
    let es ← fillRows o A B rowBase col currentTbNRows (es ++ [.drain col cIndex tapC])
    pure (cIndex + 1, es)

/-- The halves of transfer block `tb`, with `break` once `C_tiles` is used up. -/
def pingpongs (tb : Nat) : List Nat → Nat × List Event → Option (Nat × List Event)
  | [], st => some st
  | pingpong :: rest, (cIndex, es) =>
    if cIndex ≥ C.length then some (cIndex, es)
    else do
      let rowBase := tb * tbMax + pingpong * tbMax / 2
      let currentTbNRows := min (tbMax / 2) (o.rowBlocks - rowBase)
      let (cIndex, es) ← drainCols o A B C rowBase currentTbNRows (cIndex, es)
      pingpongs tb rest (cIndex, if tb > 0 ∨ (tb = 0 ∧ pingpong > 0) then es ++ [.finish] else es)

/-- `sequence`. -/
def sequence : Option (List Event) := do
  let (_, es) ← forRange (ceilDiv o.rowBlocks tbMax) (0, []) fun tb st => pingpongs o tbMax A B C tb [0, 1] st
  pure (es ++ [.finish])

end Sequence

/-! ## What the sequence transfers -/

/-- The column of a task. -/
def Event.col? : Event → Option Nat
  | .drain col _ _ | .fillA col _ _ _ | .fillB col _ => some col
  | .finish => none

/-- A fill of A on a column: the index before the reduction, the index after, and the tap. -/
def Event.fillA? (col : Nat) : Event → Option (Nat × Nat × Tap)
  | .fillA c index tile tap => if c = col then some (index, tile, tap) else none
  | _ => none

/-- A fill of B on a column. -/
def Event.fillB? (col : Nat) : Event → Option Tap
  | .fillB c tap => if c = col then some tap else none
  | _ => none

/-- A drain of C on a column. -/
def Event.drain? (col : Nat) : Event → Option (Nat × Tap)
  | .drain c tile tap => if c = col then some (tile, tap) else none
  | _ => none

/-- The fills of A on a column, in order. -/
def fillsA (col : Nat) (es : List Event) : List (Nat × Nat × Tap) := es.filterMap (Event.fillA? col)

/-- The fills of B on a column, in order. -/
def fillsB (col : Nat) (es : List Event) : List Tap := es.filterMap (Event.fillB? col)

/-- The drains of C on a column, in order. -/
def drains (col : Nat) (es : List Event) : List (Nat × Tap) := es.filterMap (Event.drain? col)

/-- The row block of the first row of a tile of A. -/
def Opts.aRowBlock (o : Opts) (tap : Tap) : Nat := tap.rows.start * (o.m * o.nATilesPerShim) / (o.m * nAieRows)

/-- The schedule is complete and its two sides match: every shim that feeds A fills the row blocks in order, each once, and
of each the rows of its own cores; no index is reduced; every column drains the row blocks in the same order and every tile
of C is drained; every column fills B once for each row block. -/
structure Complete (o : Opts) (B C : List Tap) (es : List Event) : Prop where
  aBlocks : ∀ col < o.nShimMemA, (fillsA col es).map (fun f => o.aRowBlock f.2.2) = List.range o.rowBlocks
  aRows : ∀ col < o.nShimMemA, ∀ f ∈ fillsA col es, f.2.2.rows.tiles = [f.2.1] ∧
    f.2.1 * (o.m * o.nATilesPerShim) =
      o.aRowBlock f.2.2 * (o.m * nAieRows) + col * (o.m * o.nATilesPerShim)
  aIndex : ∀ col < o.nShimMemA, ∀ f ∈ fillsA col es, f.2.1 = f.1
  cBlocks : ∀ col < o.nAieCols, (drains col es).flatMap (fun d => d.2.rows.tiles) = List.range o.rowBlocks
  cPhase : ∀ col < o.nAieCols, ∀ d ∈ drains col es, d.2.cols = ⟨col, o.nAieCols, o.colTiles⟩
  cAll : ∀ g < C.length, ∃ col < o.nAieCols, g ∈ (drains col es).map Prod.fst
  bFills : ∀ col < o.nAieCols, (fillsB col es).length = o.rowBlocks ∧ ∀ tap ∈ fillsB col es, B[col]? = some tap

/-! ## What the checks establish -/

theorem bind_eq_ok {α β : Type} {x : Except String α} {f : α → Except String β} {b : β} :
    (x >>= f) = .ok b ↔ ∃ a, x = .ok a ∧ f a = .ok b := by
  cases x with
  | error e => simp [bind, Except.bind]
  | ok a => simp [bind, Except.bind]

theorem pyMod_eq_ok {a b r : Nat} : pyMod a b = .ok r ↔ 0 < b ∧ r = a % b := by
  unfold pyMod
  by_cases hb : b = 0
  · rw [if_pos hb]
    exact ⟨nofun, fun h => by omega⟩
  · rw [if_neg hb]
    refine ⟨fun h => ⟨by omega, (Except.ok.inj h).symm⟩, ?_⟩
    rintro ⟨-, rfl⟩
    rfl

theorem sysExitIf_eq_ok {c : Prop} [Decidable c] {msg : String} {u : Unit} : sysExitIf c msg = .ok u ↔ ¬c := by
  unfold sysExitIf
  by_cases hc : c
  · rw [if_pos hc]
    exact ⟨nofun, fun h => absurd hc h⟩
  · rw [if_neg hc]
    exact ⟨fun _ => hc, fun _ => rfl⟩

/-- The shapes that pass. -/
theorem validateShapeArgs_ok {o : Opts} (h : validateShapeArgs o = .ok ()) :
    (0 < o.m * nAieRows ∧ o.M % (o.m * nAieRows) = 0) ∧ (0 < o.k ∧ o.K % o.k = 0) ∧
      (0 < o.n * o.nAieCols ∧ o.N % (o.n * o.nAieCols) = 0) ∧ o.rowBlocks % 2 = 0 := by
  simp only [validateShapeArgs, bind_eq_ok, pyMod_eq_ok, sysExitIf_eq_ok, not_not] at h
  obtain ⟨_, ⟨hm, rfl⟩, _, hM, _, ⟨hk, rfl⟩, _, hK, _, ⟨hn, rfl⟩, _, hN, _, hR, -⟩ := h
  exact ⟨⟨hm, hM⟩, ⟨hk, hK⟩, ⟨hn, hN⟩, hR⟩

end WholeArray

end BitnetXdna
