import BitnetXdna.Lib.Exec
import BitnetXdna.Lib.Buffer
import BitnetXdna.Lib.Tiling
import BitnetXdna.Lib.History
import BitnetXdna.Lib.Binary32
import BitnetXdna.Lib.Sharding
import BitnetXdna.Lib.Threads
import BitnetXdna.Lib.Rounding
import BitnetXdna.Lib.LittleEndian
import BitnetXdna.Lib.Stream
import BitnetXdna.Lib.Utf8
import BitnetXdna.Lib.Grammar
import BitnetXdna.I2s.Format
import BitnetXdna.I2s.RoundTrip
import BitnetXdna.Shim.State
import BitnetXdna.Shim.Residency
import BitnetXdna.Shim.Accumulate
import BitnetXdna.Shim.Rules
import BitnetXdna.Shim.Slabs
import BitnetXdna.Shim.Maps
import BitnetXdna.Shim.Gemm
import BitnetXdna.Shim.Exact
import BitnetXdna.Shim.Histories
import BitnetXdna.Shim.Clients
import BitnetXdna.Shim.Script
import BitnetXdna.Shim.Uploads
import BitnetXdna.Shim.Accounting
import BitnetXdna.Shim.Evidence
import BitnetXdna.Shim.Bounds
import BitnetXdna.Shim.Available
import BitnetXdna.Shim.Split
import BitnetXdna.I2s.Golden
import BitnetXdna.I2s.Quantize
import BitnetXdna.Ggml.Share
import BitnetXdna.Ggml.Agree
import BitnetXdna.Ggml.Pool
import BitnetXdna.Ggml.PoolInvariant
import BitnetXdna.Ggml.PoolSteps
import BitnetXdna.Ggml.PoolAgrees
import BitnetXdna.Ggml.MulMat
import BitnetXdna.Ggml.PoolProgress
import BitnetXdna.Ggml.PoolRaces
import BitnetXdna.Npu.WholeArray
import BitnetXdna.Npu.Schedule
import BitnetXdna.Npu.Int4
import BitnetXdna.Npu.Int4Exact
import BitnetXdna.Gguf.Extract
import BitnetXdna.Gguf.Format
import BitnetXdna.Gguf.Inverse
import BitnetXdna.Gguf.Grammar
import BitnetXdna.Gguf.Accepted
import BitnetXdna.Gguf.Shipped
import BitnetXdna.Coord.Identity
import BitnetXdna.Coord.Digest
import BitnetXdna.Coord.Kv
