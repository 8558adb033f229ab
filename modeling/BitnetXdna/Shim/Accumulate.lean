import BitnetXdna.Shim.Residency
import BitnetXdna.Lib.Binary32

/-!
# Accumulate and epilogue

`bitnet_xdna_accumulate`, `bitnet_xdna_epilogue` and `bitnet_xdna_mul_mat` of `runtime/bitnet_xdna.cpp`. The lock makes one
accumulate one step, so it is a program over the globals; the three loops (token tile, K chunk, N chunk) are one definition
each. The epilogue takes its arithmetic from `EpilogueArith`, so that the same text is read over float32 and over the
rationals.
-/

namespace BitnetXdna

open Exec

/-- A call of `bitnet_xdna_accumulate`. `packed` is what is at `src0` when the call is made; `aRowStride` is in bytes. -/
structure Call where
  src0 : Ptr
  packed : Buffer UInt8
  K : Nat
  N : Nat
  aQ : Buffer Int8
  T : Nat
  aRowStride : Nat

/-- The activations of `rows` tokens from `t0` on, columns `kOff` to `kOff + kKeep`, are copied into the mapped buffer. The
buffer is cleared first only when they do not fill it. -/
def stageActivations (c : Call) (t0 rows kOff kKeep : Nat) (boA : Buffer Int8) : Option (Buffer Int8) := do
  let boA ← if rows < kMTile ∨ kKeep < kKChunk then boA.fill 0 (kMTile * kKChunk) 0 else some boA
  forRange rows boA fun r boA => boA.copy (r * kKChunk) c.aQ ((t0 + r) * c.aRowStride + kOff) kKeep

/-- The result of one dispatch goes straight to the accumulator: the path of a single K chunk. -/
def copyOut (N t0 rows nOff nKeep : Nat) (boC gAcc : Buffer Int32) : Option (Buffer Int32) :=
  forRange rows gAcc fun r gAcc => gAcc.copy ((t0 + r) * N + nOff) boC (r * kNChunk) nKeep

/-- The result of one dispatch is added to the partial sums. -/
def addPartial (N rows nOff nKeep : Nat) (boC part : Buffer Int32) : Option (Buffer Int32) :=
  forRange rows part fun r part =>
    let pr := r * N + nOff
    let cr := r * kNChunk
    forRange nKeep part fun j2 part => do
      let p ← part.load (pr + j2)
      let x ← boC.load (cr + j2)
      part.store (pr + j2) (p + x)

/-- The finished sums of a token tile go to the accumulator. -/
def copyPartial (N t0 rows : Nat) (part gAcc : Buffer Int32) : Option (Buffer Int32) :=
  forRange rows gAcc fun r gAcc => gAcc.copy ((t0 + r) * N) part (r * N) N

/-- The per-shape counter of dispatches. -/
def countDispatch (key : Nat × Nat) (s : Shim) : Shim :=
  let n := (s.gShapeStats.lookup key).getD 0
  { s with gShapeStats := s.gShapeStats.insert key (n + 1) }

/-- The innermost loop body: dispatch chunk (nc, kc) on the activations the device has, and take its result. -/
def accumulateChunk (h : Host) (c : Call) (res : Resident) (t0 rows kc nc : Nat) (part : Buffer Int32) :
    ShimM (Buffer Int32) := do
  let nOff := nc * kNChunk
  let nKeep := min kNChunk (c.N - nOff)
  let w ← ofOption res.chunks[nc * res.plan.kChunks + kc]?
  runMappedPresynced h h.singleStem w
  modify (countDispatch (c.K, c.N))
  let s ← get
  let p ← ofOption (s.gPrograms.lookup h.singleStem)
  if res.plan.kChunks = 1 then do
    let gAcc ← ofOption (copyOut c.N t0 rows nOff nKeep p.boC s.gAcc)
    modify fun s => { s with gAcc := gAcc }
    pure part
  else ofOption (addPartial c.N rows nOff nKeep p.boC part)

/-- One K slice of a token tile: its activations are staged and flushed once, then every N chunk is dispatched on them. -/
def accumulateSlice (h : Host) (c : Call) (res : Resident) (t0 rows kc : Nat) (part : Buffer Int32) :
    ShimM (Buffer Int32) := do
  let kOff := kc * kKChunk
  let kKeep := min kKChunk (c.K - kOff)
  modifyProgram h.singleStem fun p => do
    let boA ← stageActivations c t0 rows kOff kKeep p.boA
    pure { p with boA := boA }
  syncA h h.singleStem
  forRange res.plan.nChunks part (accumulateChunk h c res t0 rows kc)

/-- One token tile. With several K chunks the partial sums start at zero and go to the accumulator at the end. -/
def accumulateTile (h : Host) (c : Call) (res : Resident) (t0 : Nat) (part : Buffer Int32) : ShimM (Buffer Int32) := do
  let rows := min kMTile (c.T - t0)
  let part ← if res.plan.kChunks > 1 then ofOption (part.fill 0 part.size 0) else pure part
  let part ← forRange res.plan.kChunks part (accumulateSlice h c res t0 rows)
  if res.plan.kChunks > 1 then do
    let s ← get
    let gAcc ← ofOption (copyPartial c.N t0 rows part s.gAcc)
    modify fun s => { s with gAcc := gAcc }
    pure part
  else pure part

/-- The accumulator before the tiles: grown if it is too small for this call, never shrunk. -/
def growAcc (c : Call) (s : Shim) : Shim :=
  { s with gAcc := if s.gAcc.size < c.T * c.N then s.gAcc.resize (c.T * c.N) 0 else s.gAcc, gAccN := c.N }

/-- The loop over the token tiles `t0 = 0, kMTile, ... < T`. -/
def accumulateTiles (h : Host) (c : Call) (res : Resident) : ShimM Unit := do
  let part : Buffer Int32 := .replicate (if res.plan.kChunks > 1 then kMTile * c.N else 0) 0
  let _ ← forRange (ceilDiv c.T kMTile) part fun i part => accumulateTile h c res (i * kMTile) part
  pure ()

/-- `bitnet_xdna_accumulate`, under the lock from beginning to end. -/
def bitnetXdnaAccumulate (h : Host) (c : Call) : ShimM Bool :=
  catchAll
    (do
      let r ← getResidentLogged h c.src0 c.packed c.K c.N
      match r with
      | none => pure false
      | some res => do
        programFor h h.singleStem
        modify (growAcc c)
        accumulateTiles h c res
        pure true)
    fun _ => pure false

/-- One call as a step of a history: what it returns and the globals it leaves, where it is defined and does not throw. -/
def accumulateStep (h : Host) (s : Shim) (c : Call) : Option (Bool × Shim) :=
  match bitnetXdnaAccumulate h c s with
  | .ok ret s' => some (ret, s')
  | .thrown _ _ => none
  | .undefined => none

/-! ## The epilogue -/

/-- The arithmetic of the epilogues: `float` in the code. -/
class EpilogueArith (F : Type) extends Sub F, Mul F, Div F where
  /-- The conversion from `int32_t`. -/
  ofInt32 : Int32 → F

instance : EpilogueArith Float32 where
  ofInt32 x := Binary32.ofInt x.toInt

instance : EpilogueArith ℚ where
  ofInt32 x := x.toInt

/-- What the epilogue of one call is given. `dstRowStride` is in bytes, and a float is four of them. -/
structure EpilogueArgs (F : Type) where
  actScales : Buffer F
  ws : F
  dstRowStride : Nat

/-- Row `t` of `bitnet_xdna_epilogue`. The row must start at a multiple of four bytes. -/
def epilogueRow {F : Type} [EpilogueArith F] (gAcc : Buffer Int32) (N : Nat) (e : EpilogueArgs F) (t : Nat)
    (dst : Buffer F) : Option (Buffer F) := do
  let scale ← e.actScales.load t
  let post := e.ws / scale
  if t * e.dstRowStride % 4 ≠ 0 then none
  else
    let drow := t * e.dstRowStride / 4
    forRange N dst fun j dst => do
      let acc ← gAcc.load (t * N + j)
      dst.store (drow + j) (EpilogueArith.ofInt32 acc * post)

/-- `bitnet_xdna_epilogue` over the rows from `rowBegin` to `rowEnd`. -/
def bitnetXdnaEpilogue {F : Type} [EpilogueArith F] (gAcc : Buffer Int32) (N rowBegin rowEnd : Nat) (e : EpilogueArgs F)
    (dst : Buffer F) : Option (Buffer F) :=
  forRange (rowEnd - rowBegin) dst fun i dst => epilogueRow gAcc N e (rowBegin + i) dst

/-- `bitnet_xdna_mul_mat`: accumulate, then the whole epilogue. The lock is released in between. -/
def bitnetXdnaMulMat {F : Type} [EpilogueArith F] (h : Host) (c : Call) (e : EpilogueArgs F) (dst : Buffer F) :
    ShimM (Bool × Buffer F) := do
  let ret ← bitnetXdnaAccumulate h c
  if ret then do
    let s ← get
    let dst ← ofOption (bitnetXdnaEpilogue s.gAcc c.N 0 c.T e dst)
    pure (true, dst)
  else pure (false, dst)

end BitnetXdna
