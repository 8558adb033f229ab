import BitnetXdna.Lib.Buffer
import BitnetXdna.Lib.Tiling
import Mathlib.Data.List.AList

/-!
# The state of the shim, and the device behind it

The globals of `runtime/bitnet_xdna.cpp` and `runtime/xdna_gemm.cpp`, and the four operations of `xdna::Program` that reach
the device: construction, `upload`, `sync_a` and `run_mapped_presynced`. The device is a script: `Host.device n` is what it
does at the `n`-th logged operation, so what holds for every script holds for every pattern of failures. A completed
dispatch leaves the product of the device's copy of the activations and the uploaded slab; whatever the device does not
define (fresh buffers, a failed flush, the result of a failed dispatch) is taken from the script as well.

Wall-clock counters are left out. `log` is a ghost: the operations so far, which the statements about uploads and
dispatches count.
-/

namespace BitnetXdna

/-- `kMTile`, the token tile. -/
def kMTile : Nat := 1024

/-- `kKChunk`, the K of the single compiled program. -/
def kKChunk : Nat := 2560

/-- `kNChunk`, the N of the single compiled program. -/
def kNChunk : Nat := 2560

/-- An exception: a `std::exception` with its text, or anything else. -/
inductive Exn where
  | std (what : String)
  | other
deriving DecidableEq

/-- `e.what()` as `get_resident_logged` records it. -/
def Exn.reason : Exn → String
  | .std what => what
  | .other => "unknown exception"

/-- The state a command ends in: `ERT_CMD_STATE_COMPLETED`, or another one with its number. -/
inductive ErtState where
  | completed
  | other (code : Int)
deriving DecidableEq

/-- An operation as the ghost log has it; the flag says whether it completed. -/
inductive Event where
  | program (ok : Bool)
  | repack (src0 : Nat)
  | upload (ok : Bool)
  | syncA (ok : Bool)
  | dispatch (ok : Bool)
deriving DecidableEq

/-- What the device and its driver do at one operation. -/
structure Response where
  /-- The exception the driver throws, if any. -/
  thrown : Option Exn
  /-- The state a command ends in. -/
  ertState : ErtState
  /-- The names of the kernels in the xclbin. -/
  kernels : List String
  /-- The size of the instruction file, if it opens. -/
  instsBytes : Option Nat
  /-- Bytes and words nothing defines. -/
  bytes : Nat → Int8
  words : Nat → Int32

/-- Where the process runs: `BITNET_XDNA_ARTIFACTS` and the device. -/
structure Host where
  artifacts : Option String
  device : Nat → Response

/-- `artifact_dir`. -/
def Host.artifactDir (h : Host) : String := h.artifacts.getD "artifacts/xclbin-tuned"

/-- `single_stem`. -/
def Host.singleStem (h : Host) : String :=
  h.artifactDir ++ "/mm_M" ++ toString kMTile ++ "_K" ++ toString kKChunk ++ "_N" ++ toString kNChunk

/-- `ShapePlan`. -/
structure ShapePlan where
  nChunks : Nat
  kChunks : Nat
deriving DecidableEq

/-- `plan_for`. -/
def planFor (K N : Nat) : Option ShapePlan :=
  if K % 64 ≠ 0 ∨ N % 64 ≠ 0 then none
  else if (K ≠ 2560 ∧ K ≠ 6912) ∨ (N ≠ 2560 ∧ N ≠ 6912) then none
  else some ⟨(N + kNChunk - 1) / kNChunk, (K + kKChunk - 1) / kKChunk⟩

/-- `bitnet_xdna_supports`. -/
def bitnetXdnaSupports (K N : Nat) : Bool := (planFor K N).isSome

/-- A weight tensor's data pointer. -/
abbrev Ptr : Type := Nat

/-- `Resident`: the uploaded slabs of one tensor, row-major over (n_chunk, k_chunk), with the shape they were built for. -/
structure Resident where
  chunks : List (Buffer Int8)
  K : Nat
  N : Nat
  plan : ShapePlan

/-- `xdna::Program::Impl`: the host mapping of the activation buffer, the copy of it the device reads (made by `sync_a`), and
the host mapping of the result buffer. -/
structure Program where
  boA : Buffer Int8
  boADev : Buffer Int8
  boC : Buffer Int32

/-- A `std::map`. -/
abbrev Table (κ v : Type) : Type := AList fun _ : κ => v

/-- `std::map::emplace`: an entry that is there stays. -/
def Table.emplace {κ v : Type} [DecidableEq κ] (t : Table κ v) (k : κ) (x : v) : Table κ v :=
  if k ∈ t then t else t.insert k x

/-- The globals of the shim. -/
structure Shim where
  gPrograms : Table String Program
  gAcc : Buffer Int32
  gAccN : Nat
  gResident : Table Ptr Resident
  gFailed : Table Ptr String
  gResidentBytes : Nat
  gShapeStats : Table (Nat × Nat) Nat
  gDispatches : Nat
  log : List Event

/-- The globals before the first call. -/
def Shim.init : Shim where
  gPrograms := ∅
  gAcc := .replicate 0 0
  gAccN := 0
  gResident := ∅
  gFailed := ∅
  gResidentBytes := 0
  gShapeStats := ∅
  gDispatches := 0
  log := []

/-- A program of the shim. -/
abbrev ShimM (α : Type) : Type := Exec Exn Shim α

open Exec

/-- Append an operation to the ghost log. -/
def logEvent (e : Event) : ShimM Unit := modify fun s => { s with log := s.log ++ [e] }

/-- What the device does now. -/
def respond (h : Host) : ShimM Response := do
  let s ← get
  pure (h.device s.log.length)

/-- An operation that fails: it is logged as such and throws. -/
def failWith {α : Type} (ev : Bool → Event) (e : Exn) : ShimM α := do
  logEvent (ev false)
  throw e

/-! ## `xdna::Program` -/

/-- `Program::Program` for the artifacts at `stem`. The driver may throw anywhere; the xclbin must hold an `MLIR_AIE` kernel
and the instruction file must open and be a whole number of words. Fresh buffers hold anything. -/
def programNew (h : Host) (stem : String) : ShimM Program := do
  let r ← respond h
  match r.thrown with
  | some e => failWith .program e
  | none =>
    match r.kernels.find? fun k => "MLIR_AIE".toList.isPrefixOf k.toList with
    | none => failWith .program (.std ("no MLIR_AIE kernel in " ++ (stem ++ ".xclbin")))
    | some _ =>
      match r.instsBytes with
      | none => failWith .program (.std ("cannot open insts file: " ++ (stem ++ ".insts.bin")))
      | some n =>
        if n % 4 ≠ 0 then failWith .program (.std "insts file is not a whole number of words")
        else do
          logEvent (.program true)
          pure ⟨⟨kMTile * kKChunk, r.bytes⟩, ⟨kMTile * kKChunk, r.bytes⟩, ⟨kMTile * kNChunk, r.words⟩⟩

/-- `program_for`: one program per stem, made once. -/
def programFor (h : Host) (stem : String) : ShimM Unit := do
  let s ← get
  if stem ∈ s.gPrograms then pure ()
  else do
    let p ← programNew h stem
    modify fun s => { s with gPrograms := Table.emplace s.gPrograms stem p }

/-- Change the program of a stem. There must be one. -/
def modifyProgram (stem : String) (f : Program → Option Program) : ShimM Unit := do
  let s ← get
  let p ← ofOption (s.gPrograms.lookup stem)
  let p' ← ofOption (f p)
  modify fun s => { s with gPrograms := s.gPrograms.insert stem p' }

/-- `Program::upload`: the slab is copied into a buffer of its own. -/
def upload (h : Host) (bKn : Buffer Int8) : ShimM (Buffer Int8) := do
  let r ← respond h
  match r.thrown with
  | some e => failWith .upload e
  | none => do
    let bo ← ofOption ((Buffer.replicate (kKChunk * kNChunk) 0).copy 0 bKn 0 (kKChunk * kNChunk))
    logEvent (.upload true)
    pure bo

/-- `Program::sync_a`: the device gets a copy of the activation buffer. A flush that throws leaves it anything. -/
def syncA (h : Host) (stem : String) : ShimM Unit := do
  let r ← respond h
  match r.thrown with
  | some e => do
    modifyProgram stem fun p => some { p with boADev := ⟨p.boADev.size, r.bytes⟩ }
    failWith .syncA e
  | none => do
    modifyProgram stem fun p => some { p with boADev := p.boA }
    logEvent (.syncA true)

/-- What a completed dispatch computes: `C[r, j] = sum_i A[r, i] * B[j, i]`, over the device's copy of A, in int32. -/
def dispatchResult (aDev w : Buffer Int8) (x : Nat) : Int32 :=
  int32Dot (fun i => aDev.cell (x / kNChunk * kKChunk + i)) (fun i => w.cell (x % kNChunk * kKChunk + i)) kKChunk

/-- `Program::run_mapped_presynced`. The counter is advanced only after the result is synced back. -/
def runMappedPresynced (h : Host) (stem : String) (w : Buffer Int8) : ShimM Unit := do
  let r ← respond h
  let spoil := modifyProgram stem fun p => some { p with boC := ⟨p.boC.size, r.words⟩ }
  match r.thrown with
  | some e => do
    spoil
    failWith .dispatch e
  | none =>
    match r.ertState with
    | .other code => do
      spoil
      failWith .dispatch (.std ("NPU dispatch did not complete, ert state " ++ toString code))
    | .completed => do
      modifyProgram stem fun p =>
        some { p with boC := p.boC.write 0 (kMTile * kNChunk) (dispatchResult p.boADev w) }
      modify fun s => { s with gDispatches := s.gDispatches + 1 }
      logEvent (.dispatch true)

end BitnetXdna
