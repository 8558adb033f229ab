import BitnetXdna.Shim.Available
import BitnetXdna.Lib.Threads

/-!
# The threadpool in the patched mul_mat

The threads of one ggml threadpool run a graph's I2_S mul_mat nodes one after the other through the block that
`patches/001-bitnet-xdna.patch` adds, with `bitnet_xdna_available` as it races on its first call. A step is one access to
what the threads share: the flag and the configuration behind the double-checked lock, the lock, `xdna_result`, the
accumulator, and the barriers. What the device finds and whether an accumulate succeeds is up to the schedule.

The work of a thread on its own part of `dst` (its CPU share, the CPU block) is one step, and an accumulate is one between
taking and releasing the lock. `ggml_barrier` is a full barrier, known by the arrivals of each thread, and the graph executor
performs one after each node. `log` is a ghost: what each thread did, in order.
-/

namespace BitnetXdna
namespace Pool

/-- The shape of a mul_mat node. -/
structure Node where
  ne00 : Nat
  ne01 : Nat
  ne11 : Nat

/-- What a thread makes of a node: the NPU is unavailable, or it is not for this node, or its share is `t_npu` tokens. -/
inductive Decision where
  | unavailable
  | declined
  | split (tNpu : Int)
deriving DecidableEq

/-- The NPU takes part: `t_npu > 0`. -/
def Decision.npu : Decision → Bool
  | .split tNpu => decide (tNpu > 0)
  | _ => false

/-- A call of `ggml_barrier`: after the accumulate, after the epilogue, and the executor's after the node. -/
inductive Site where
  | accumulated (k : Nat)
  | converted (k : Nat)
  | node (k : Nat)
deriving DecidableEq

/-- What a thread does at node `k`: it decides, begins an accumulate, stores and loads `xdna_result`, converts a row of the
accumulator, leaves the node (with the epilogue, or by the CPU block), and arrives at a barrier. -/
inductive Event where
  | decided (k : Nat) (d : Decision)
  | begun (k : Nat)
  | stored (k : Nat) (result : Bool)
  | loaded (k : Nat) (result : Bool)
  | row (k t : Nat)
  | left (k : Nat) (epilogue : Bool)
  | barrier (b : Site)
deriving DecidableEq

/-- Where a thread is. -/
inductive Pc where
  -- `bitnet_xdna_available`: the flag, the lock, and the first call's critical section
  | enter
  | lock
  | critical
  | tiles
  | splitFrac
  | minTokens
  | clamp
  | device
  | publish (state : Bool)
  | unlock (state : Bool)
  -- the decision
  | answered (available : Bool)
  | readTiles
  | readFrac (tiles : Int)
  -- thread 0 drives the NPU, the others compute the CPU share
  | call (tNpu : Nat)
  | wait (tNpu : Nat)
  | accumulating (tNpu : Nat)
  | store (tNpu : Nat) (result : Bool)
  | share (tNpu : Nat)
  | atAccumulated (tNpu : Nat)
  | inAccumulated (tNpu : Nat)
  -- the epilogue, over the rows from `r` to `re`, or the CPU block
  | load (tNpu : Nat)
  | rows (r re : Nat)
  | atConverted
  | inConverted
  | cpu
  | atNode
  | inNode

/-- The threads and what they share. `gStateFast` and `gState` are nothing while they are -1. -/
structure State (n : Nat) (Q : Type) where
  gStateFast : Option Bool
  gState : Option Bool
  config : Config Q
  gMu : Option (Fin n)
  xdnaResult : Bool
  arrived : Fin n → Nat
  node : Fin n → Nat
  pc : Fin n → Pc
  log : List (Fin n × Event)

section Step

variable {n : Nat} {Q : Type} [SplitArith Q]

/-- The start of the process. -/
def State.init : State n Q where
  gStateFast := none
  gState := none
  config := .init
  gMu := none
  xdnaResult := false
  arrived := fun _ => 0
  node := fun _ => 0
  pc := fun _ => .enter
  log := []

/-- Thread `i` goes on at `p`, having done `es`. -/
def State.move (s : State n Q) (i : Fin n) (p : Pc) (es : List Event) : State n Q :=
  { s with pc := Function.update s.pc i p, log := s.log ++ es.map (Prod.mk i) }

/-- Thread `i` arrives at barrier `b`, and waits at `p`. -/
def State.arrive (s : State n Q) (i : Fin n) (b : Site) (p : Pc) : State n Q :=
  { s.move i p [.barrier b] with arrived := Function.update s.arrived i (s.arrived i + 1) }

/-- The barrier that thread `i` is in lets it pass: all threads have arrived. -/
def State.complete (s : State n Q) (i : Fin n) : Prop := ∀ j, s.arrived i ≤ s.arrived j

instance (s : State n Q) (i : Fin n) : Decidable (s.complete i) := inferInstanceAs (Decidable (∀ _, _))

/-- Where the decision takes thread `i`. -/
def afterDecision (i : Fin n) (nd : Node) : Decision → Pc
  | .split tNpu =>
    if tNpu > 0 then
      if i.val = 0 then .call tNpu.toNat
      else if tNpu < nd.ne11 then .share tNpu.toNat
      else .atAccumulated tNpu.toNat
    else .cpu
  | _ => .cpu

/-- Thread `i` decides. -/
def State.decide (s : State n Q) (i : Fin n) (nd : Node) (d : Decision) : State n Q :=
  s.move i (afterDecision i nd d) [.decided (s.node i) d]

/-- One step of thread `i`. `choice` is what the device finds, and the result of an accumulate. A thread that waits for the
lock or in a barrier has no step until it may go on, and one that has run all nodes has none. -/
def step (env : Environ Q) (nodes : List Node) (s : State n Q) : Fin n × Bool → Option (State n Q)
  | (i, choice) => do
    let nd ← nodes[s.node i]?
    match s.pc i with
    | .enter =>
      match s.gStateFast with
      | some cached => some (s.move i (.answered cached) [])
      | none => some (s.move i .lock [])
    | .lock => if s.gMu = none then some ({ s with gMu := some i }.move i .critical []) else none
    | .critical =>
      match s.gState with
      | some state => some (s.move i (.publish state) [])
      | none =>
        let s := { s with gState := some false }
        if env.bitnetXdna then some (s.move i .tiles []) else some (s.move i (.publish false) [])
    | .tiles => some ({ s with config := s.config.setTiles env }.move i .splitFrac [])
    | .splitFrac => some ({ s with config := s.config.setSplit env }.move i .minTokens [])
    | .minTokens => some ({ s with config := s.config.setMinTokens env }.move i .clamp [])
    | .clamp => some ({ s with config := s.config.clampMinTokens }.move i .device [])
    | .device => some ({ s with gState := some choice }.move i (.publish choice) [])
    | .publish state => some ({ s with gStateFast := some state }.move i (.unlock state) [])
    | .unlock state => some ({ s with gMu := none }.move i (.answered state) [])
    | .answered available =>
      if available && (bitnetXdnaWorthIt s.config.gMinTokens nd.ne11 && bitnetXdnaSupports nd.ne00 nd.ne01) then
        if n > 1 then some (s.move i .readTiles []) else some (s.decide i nd (.split nd.ne11))
      else some (s.decide i nd (if available then .declined else .unavailable))
    | .readTiles => some (s.move i (.readFrac s.config.gForceTiles) [])
    | .readFrac tiles => some (s.decide i nd (.split (bitnetXdnaTokenSplit tiles s.config.gSplitFrac nd.ne11)))
    | .call tNpu => some (s.move i (.wait tNpu) [.begun (s.node i)])
    | .wait tNpu => if s.gMu = none then some ({ s with gMu := some i }.move i (.accumulating tNpu) []) else none
    | .accumulating tNpu => some ({ s with gMu := none }.move i (.store tNpu choice) [])
    | .store tNpu result =>
      some ({ s with xdnaResult := result }.move i (.atAccumulated tNpu) [.stored (s.node i) result])
    | .share tNpu => some (s.move i (.atAccumulated tNpu) [])
    | .atAccumulated tNpu => some (s.arrive i (.accumulated (s.node i)) (.inAccumulated tNpu))
    | .inAccumulated tNpu => if s.complete i then some (s.move i (.load tNpu) []) else none
    | .load tNpu =>
      let rb := i.val * tNpu / n
      let re := (i.val + 1) * tNpu / n
      some (s.move i (if s.xdnaResult then .rows rb re else .cpu) [.loaded (s.node i) s.xdnaResult])
    | .rows r re =>
      if r < re then some (s.move i (.rows (r + 1) re) [.row (s.node i) r]) else some (s.move i .atConverted [])
    | .atConverted => some (s.arrive i (.converted (s.node i)) .inConverted)
    | .inConverted => if s.complete i then some (s.move i .atNode [.left (s.node i) true]) else none
    | .cpu => some (s.move i .atNode [.left (s.node i) false])
    | .atNode => some (s.arrive i (.node (s.node i)) .inNode)
    | .inNode =>
      if s.complete i then some { s.move i .enter [] with node := Function.update s.node i (s.node i + 1) } else none

/-- The state after a schedule. -/
def run (env : Environ Q) (nodes : List Node) (schedule : List (Fin n × Bool)) : State n Q :=
  interleave (step env nodes) .init schedule

/-- The barriers among some events of all threads, for one of them. -/
def barriersOf (i : Fin n) (log : List (Fin n × Event)) : List Site :=
  log.filterMap fun
    | (j, .barrier b) => if j = i then some b else none
    | _ => none

/-- The barriers a thread has arrived at, in order. -/
def State.barriers (s : State n Q) (i : Fin n) : List Site := barriersOf i s.log

/-- A thread that has run all nodes. -/
def State.Finished (nodes : List Node) (s : State n Q) (i : Fin n) : Prop := s.node i = nodes.length

end Step

end Pool
end BitnetXdna
