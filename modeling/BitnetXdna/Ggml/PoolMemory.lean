import BitnetXdna.Ggml.PoolMoves
import BitnetXdna.Ggml.Node

/-!
# The memory of the pool

The threads of the pool with what they work on: the shim and the `dst` of each node. A step of `Memory` is a step of the pool
in which an accumulate is the shim's own, and in which a CPU share, a row of the epilogue and a CPU block write to the `dst` of
their node. `Painted` is what holds of a `dst` at any time: it has the writes of the CPU shares first and those of the epilogue
or of the CPU blocks after them, all inside its rows, and those of a thread as far as the thread has come.
-/

namespace BitnetXdna
namespace Pool

/-- The code of `ggml_compute_forward_mul_mat` below the patched block, which computes a node on the CPU alone: the writes of
thread `ith` of `nth`, and the value that it computes for each cell. -/
structure CpuBlock where
  writes : GraphNode → Nat → Nat → List (Write Float32)
  value : GraphNode → Nat → Nat → Float32

/-- Its threads compute every cell of the node. -/
structure CpuBlock.Computes (b : CpuBlock) (nth : Nat) (g : GraphNode) : Prop where
  paints : ∀ ith < nth, ∀ w ∈ b.writes g nth ith, w.Paints g.ne11 g.ne01 (b.value g)
  hits : ∀ t < g.ne11, ∀ c < g.ne01, ∃ ith < nth, Hits (b.writes g nth ith) t c

/-- What a run of the pool is about: the device, the ggml functions, the environment and the graph. -/
structure Setup (Q : Type) where
  host : Host
  kern : Kernels Float32
  block : CpuBlock
  env : Environ Q
  graph : List GraphNode

/-- The shape of a node of the graph. -/
def nodeOf (g : GraphNode) : Node := ⟨g.ne00, g.ne01, g.ne11⟩

/-- The shapes of the graph. -/
def Setup.nodes {Q : Type} (u : Setup Q) : List Node := u.graph.map nodeOf

/-- The pool, the shim's globals and the `dst` of each node. The globals, or a `dst`, are nothing once an access to them was
undefined. -/
structure Memory (n : Nat) (Q : Type) where
  pool : State n Q
  shim : Option Shim
  dst : Nat → Option (Buffer Float32)

namespace Setup

variable {n : Nat} {Q : Type} [SplitArith Q]

/-- The start of the process. -/
def init (u : Setup Q) : Memory n Q where
  pool := .init
  shim := some .init
  dst k := u.graph[k]?.map GraphNode.dst

/-- What thread `ith` of `nth` does to the `dst` of its node in the step from `p`: the CPU share, a row of the epilogue, or
the CPU block. -/
def effect (u : Setup Q) (nth ith : Nat) (shim : Option Shim) (g : GraphNode) (p : Pc) (dst : Buffer Float32) :
    Option (Buffer Float32) :=
  match p with
  | .share tNpu => applyWrites g.nb1 (cpuShare u.kern g.toMulMat tNpu nth ith) dst
  | .rows r re => if r < re then shim.bind fun s => epilogueRow s.gAcc g.ne01 g.args r dst else some dst
  | .cpu => applyWrites g.nb1 (u.block.writes g nth ith) dst
  | _ => some dst

/-- One step of a thread. The result of an accumulate is the shim's; `choice` is what the device finds. -/
def step (u : Setup Q) (m : Memory n Q) : Fin n × Bool → Option (Memory n Q)
  | (i, choice) => do
    let g ← u.graph[m.pool.node i]?
    match m.pool.pc i with
    | .accumulating tNpu =>
      let called := m.shim.bind fun s => accumulateStep u.host s (g.call tNpu)
      let pool ← Pool.step u.env u.nodes m.pool (i, (called.map Prod.fst).getD false)
      some { m with pool := pool, shim := called.map Prod.snd }
    | p =>
      let pool ← Pool.step u.env u.nodes m.pool (i, choice)
      let k := m.pool.node i
      some { m with pool := pool, dst := Function.update m.dst k ((m.dst k).bind (u.effect n i m.shim g p)) }

/-- The pool and its memory after a schedule. -/
def run (u : Setup Q) (schedule : List (Fin n × Bool)) : Memory n Q := interleave u.step u.init schedule

/-- What a run relies on: the memory of each node, ggml kernels that compute the biased sums of a node that is served, a CPU
block that computes every cell, and tensors that do not change. -/
structure Valid (u : Setup Q) (nth : Nat) : Prop where
  fits : ∀ g ∈ u.graph, g.Fits
  kern : ∀ g ∈ u.graph, bitnetXdnaSupports g.ne00 g.ne01 = true → u.kern.Exact g.toMulMat g.code g.act
  block : ∀ g ∈ u.graph, u.block.Computes nth g
  stable : ∀ g ∈ u.graph, ∀ g' ∈ u.graph, g.src0 = g'.src0 → g.ne00 = g'.ne00 → g.ne01 = g'.ne01 →
    ∀ i < g.ne01 * g.ne00 / 4, g.packed.cell i = g'.packed.cell i

end Setup

/-! ## What has been written -/

section Painted

variable {n : Nat} {Q : Type} [SplitArith Q]

/-- Thread 0 has stored a success for node `k`. -/
def State.Succeeded (s : State n Q) (k : Nat) : Prop := ∃ j, (j, .stored k true) ∈ s.log

/-- The cells that thread `i` writes at node `k` past the first barrier: its rows of the epilogue, or those of its CPU
block. -/
def Setup.Last (u : Setup Q) (s : State n Q) (k T : Nat) (g : GraphNode) (i : Fin n) (t c : Nat) : Prop :=
  (s.Succeeded k ∧ i.val * T / n ≤ t ∧ t < (i.val + 1) * T / n ∧ c < g.ne01) ∨
    ¬s.Succeeded k ∧ Hits (u.block.writes g n i) t c

/-- Those that it has written when it is at `p` in the node. -/
def Setup.Past (u : Setup Q) (s : State n Q) (k T : Nat) (g : GraphNode) (i : Fin n) (t c : Nat) : Pc → Prop
  | .rows r _ => i.val * T / n ≤ t ∧ t < r ∧ c < g.ne01
  | .atConverted | .inConverted => i.val * T / n ≤ t ∧ t < (i.val + 1) * T / n ∧ c < g.ne01
  | .atNode | .inNode => u.Last s k T g i t c
  | _ => False

/-- Those that it has written. -/
def Setup.Converted (u : Setup Q) (s : State n Q) (k T : Nat) (g : GraphNode) (i : Fin n) (t c : Nat) : Prop :=
  (k < s.node i ∧ u.Last s k T g i t c) ∨ k = s.node i ∧ u.Past s k T g i t c (s.pc i)

/-- The writes to the `dst` of node `k` so far: `early` those of the CPU shares, `late` those of the epilogue or of the CPU
blocks. -/
structure Setup.Painted (u : Setup Q) (av : Bool) (s : State n Q) (k : Nat) (g : GraphNode)
    (early late : List (Write Float32)) : Prop where
  first : ∀ w ∈ early, w.Paints g.ne11 g.ne01 g.value
  second : ∀ w ∈ late, (s.Succeeded k → w.Paints g.ne11 g.ne01 g.value) ∧
    (¬s.Succeeded k → w.Paints g.ne11 g.ne01 (u.block.value g))
  shares : ∀ i : Fin n, i.val ≠ 0 → npuAt u.env u.nodes n av k = true → tokensAt u.env u.nodes n av k < g.ne11 →
    s.Beyond k i → ∀ w ∈ cpuShare u.kern g.toMulMat (tokensAt u.env u.nodes n av k) n i, w ∈ early
  done : ∀ i t c, u.Converted s k (tokensAt u.env u.nodes n av k) g i t c → Hits late t c
  after : npuAt u.env u.nodes n av k = true → late ≠ [] → ∀ j, s.Beyond k j

variable {u : Setup Q} {av : Bool} {res res' : Nat → Bool} {s s' : State n Q} {i j : Fin n} {choice : Bool} {nd : Node}
  {nodes : List Node} {k k' T t c : Nat} {p : Pc} {es : List Event} {g : GraphNode} {early early' late ws : List (Write Float32)}

/-- The result of a node is stored once. -/
theorem Running.succeeded_iff (h : Running u.env u.nodes av res s) {r : Bool} (hmem : (j, .stored k r) ∈ s.log) :
    s.Succeeded k ↔ r = true := by
  obtain ⟨-, -, hr, -⟩ := h.log j _ hmem
  constructor
  · rintro ⟨j', hmem'⟩
    obtain ⟨-, -, htrue, -⟩ := h.log j' _ hmem'
    rw [hr, ← htrue]
  · rintro rfl
    exact ⟨j, hmem⟩

/-- The NPU took part in a node that succeeded. -/
theorem Running.npu_of_succeeded (h : Running u.env u.nodes av res s) (hs : s.Succeeded k) :
    npuAt u.env u.nodes n av k = true := by
  obtain ⟨j, hmem⟩ := hs
  exact (h.log j _ hmem).2.1

/-- Where the result of a node is known, or there is none, it does not change. -/
theorem Running.succeeded_congr (h' : Running u.env u.nodes av res' s') (hgrow : ∀ x ∈ s.log, x ∈ s'.log)
    (hknown : npuAt u.env u.nodes n av k = true → ∃ j r, (j, .stored k r) ∈ s.log) : s'.Succeeded k ↔ s.Succeeded k := by
  refine ⟨fun hs => ?_, fun ⟨j, hmem⟩ => ⟨j, hgrow _ hmem⟩⟩
  obtain ⟨j, r, hmem⟩ := hknown (h'.npu_of_succeeded hs)
  obtain rfl := (h'.succeeded_iff (hgrow _ hmem)).mp hs
  exact ⟨j, hmem⟩

/-- A node that every thread is past the store of has a result. -/
theorem Running.stored_of_beyond (h : Running u.env u.nodes av res s) (ht : Traced u.env u.nodes av s)
    (hnpu : npuAt u.env u.nodes n av k = true) (i : Fin n) (hall : ∀ j, s.Beyond k j) : ∃ j r, (j, .stored k r) ∈ s.log := by
  have hpos : 0 < n := Nat.lt_of_le_of_lt (Nat.zero_le _) i.isLt
  rcases hall ⟨0, hpos⟩ with hlt | ⟨rfl, hst⟩
  · exact ht.settled ⟨0, hpos⟩ k hnpu (Or.inl hlt)
  · exact ⟨_, _, (h.result ⟨0, hpos⟩ rfl hnpu hst).2⟩

omit [SplitArith Q] in
/-- A thread that has converted something is past the load of the result. -/
theorem Setup.Converted.settled (h : u.Converted s k T g i t c) :
    k < s.node i ∨ k = s.node i ∧ (s.pc i).settled = true := by
  rcases h with ⟨hlt, -⟩ | ⟨rfl, hp⟩
  · exact Or.inl hlt
  · refine Or.inr ⟨rfl, ?_⟩
    cases hpc : s.pc i <;> rw [hpc] at hp <;> first | rfl | exact hp.elim

omit [SplitArith Q] in
/-- What a thread has converted depends on its place and on the result of the node. -/
theorem Setup.Converted.congr (h : u.Converted s' k T g i t c) (hpc : s'.pc i = s.pc i) (hnode : s'.node i = s.node i)
    (hsame : s'.Succeeded k ↔ s.Succeeded k) : u.Converted s k T g i t c := by
  have hlast : u.Last s' k T g i t c ↔ u.Last s k T g i t c := by simp only [Setup.Last, hsame]
  simp only [Setup.Converted, hpc, hnode, hlast] at h
  refine h.imp_right fun ⟨hk, hp⟩ => ⟨hk, ?_⟩
  cases hq : s.pc i <;> rw [hq] at hp <;> first | exact hp | exact hlast.mp hp

/-! ## A step -/

omit [SplitArith Q] in
/-- What a thread is past after a step: what it was past before, or it has stored the result, computed its CPU share, or
decided that there is none. -/
theorem Went.beyond (hw : Went nodes s s' i choice nd k' p es) (h : s'.Beyond k i) :
    s.Beyond k i ∨ k = s.node i ∧ k' = k ∧ ((∃ t r, s.pc i = .store t r) ∨ (∃ t, s.pc i = .share t) ∨
      ∃ d, .decided k d ∈ es ∧ p = afterDecision i nd d) := by
  rw [State.Beyond, hw.pc, hw.node, Function.update_self, Function.update_self] at h
  rcases hw.goes.node with rfl | ⟨hfrom, rfl, rfl, -⟩
  · rcases h with hlt | ⟨rfl, hst⟩
    · exact Or.inl (Or.inl hlt)
    · rcases hw.goes.of_stored hst with hold | hnew
      · exact Or.inl (Or.inr ⟨rfl, hold⟩)
      · exact Or.inr ⟨rfl, rfl, hnew⟩
  · rcases h with hlt | ⟨-, hst⟩
    · rcases Nat.lt_succ_iff_lt_or_eq.mp hlt with hlt | rfl
      · exact Or.inl (Or.inl hlt)
      · exact Or.inl (Or.inr ⟨rfl, by rw [hfrom]; rfl⟩)
    · exact absurd hst (by simp [Pc.stored])

/-- A step keeps a `dst` painted, if thread `i` adds what it has to. -/
theorem Setup.Painted.step (hP : u.Painted av s k g early late) (h : Running u.env u.nodes av res s)
    (ht : Traced u.env u.nodes av s) (h' : Running u.env u.nodes av res' s') (hw : Went u.nodes s s' i choice nd k' p es)
    (hearly : ∀ w ∈ early, w ∈ early') (hfirst : ∀ w ∈ early', w.Paints g.ne11 g.ne01 g.value)
    (hsecond : ∀ w ∈ ws, (s'.Succeeded k → w.Paints g.ne11 g.ne01 g.value) ∧
      (¬s'.Succeeded k → w.Paints g.ne11 g.ne01 (u.block.value g)))
    (hshares : i.val ≠ 0 → npuAt u.env u.nodes n av k = true → tokensAt u.env u.nodes n av k < g.ne11 → s'.Beyond k i →
      ∀ w ∈ cpuShare u.kern g.toMulMat (tokensAt u.env u.nodes n av k) n i, w ∈ early')
    (hdone : ∀ t c, u.Converted s' k (tokensAt u.env u.nodes n av k) g i t c → Hits (late ++ ws) t c)
    (hafter : npuAt u.env u.nodes n av k = true → ws ≠ [] → ∀ j, s'.Beyond k j) :
    u.Painted av s' k g early' (late ++ ws) := by
  have hother : ∀ j, j ≠ i → s'.pc j = s.pc j ∧ s'.node j = s.node j := fun j hj => by
    rw [hw.pc, hw.node, Function.update_of_ne hj, Function.update_of_ne hj]
    exact ⟨rfl, rfl⟩
  refine ⟨hfirst, fun w hmem => ?_, fun j hj hnpu hT hbeyond w hmem => ?_, fun j t c hconv => ?_, fun hnpu hne j => ?_⟩
  · rcases List.mem_append.mp hmem with hmem | hmem
    · rw [h'.succeeded_congr hw.grow fun hnpu =>
        h.stored_of_beyond ht hnpu i (hP.after hnpu (List.ne_nil_of_mem hmem))]
      exact hP.second w hmem
    · exact hsecond w hmem
  · by_cases hji : j = i
    · subst hji
      exact hshares hj hnpu hT hbeyond w hmem
    · rw [State.Beyond, (hother j hji).1, (hother j hji).2] at hbeyond
      exact hearly w (hP.shares j hj hnpu hT hbeyond w hmem)
  · by_cases hji : j = i
    · subst hji
      exact hdone t c hconv
    · have hset := hconv.settled
      rw [(hother j hji).1, (hother j hji).2] at hset
      have hold := hconv.congr (hother j hji).1 (hother j hji).2
        (h'.succeeded_congr hw.grow fun hnpu => ht.settled j k hnpu hset)
      exact Hits.append.mpr (Or.inl (hP.done j t c hold))
  · by_cases hws : ws = []
    · rw [hws, List.append_nil] at hne
      exact (hP.after hnpu hne j).went hw
    · exact hafter hnpu hws j

omit [SplitArith Q] in
/-- What a thread has written after a step inside a node: what it had written before, a row of the epilogue, or what it writes
at the node in all. -/
theorem Goes.past {result : Bool} {p p' : Pc} (hgoes : Goes n i nd k result choice p k p' es) (hp : PcTokens T i p)
    (h : u.Past s k T g i t c p') :
    u.Past s k T g i t c p ∨ (∃ re, p = .rows t re ∧ t < re ∧ c < g.ne01) ∨
      (p = .cpu ∨ p = .inConverted) ∧ u.Last s k T g i t c := by
  cases hgoes with
  | seek _ hp' => cases p' <;> simp [Pc.seeking, Setup.Past] at hp' h
  | decide d _ =>
    rw [afterDecision_eq] at h
    split_ifs at h <;> exact h.elim
  | load t' =>
    obtain rfl : t' = T := hp
    split at h
    · obtain ⟨hlow, hhigh, -⟩ := h
      omega
    · exact h.elim
  | row r re hr =>
    obtain ⟨hlow, hhigh, hc⟩ := h
    rcases Nat.lt_succ_iff_lt_or_eq.mp hhigh with hlt | rfl
    · exact Or.inl ⟨hlow, hlt, hc⟩
    · exact Or.inr (Or.inl ⟨re, rfl, hr, hc⟩)
  | rowsEnd r re hr =>
    obtain ⟨-, hle, rfl⟩ := hp
    obtain ⟨hlow, hhigh, hc⟩ := h
    exact Or.inl ⟨hlow, by omega, hc⟩
  | arriveConverted | arriveNode => exact Or.inl h
  | passConverted => exact Or.inr (Or.inr ⟨Or.inr rfl, h⟩)
  | block => exact Or.inr (Or.inr ⟨Or.inl rfl, h⟩)
  | _ => exact h.elim

/-- At the CPU block of a node, the node has not succeeded. -/
theorem Running.not_succeeded_of_cpu (h : Running u.env u.nodes av res s) (hpc : s.pc i = .cpu) : ¬s.Succeeded (s.node i) := by
  intro hs
  have hnpu := h.npu_of_succeeded hs
  have hok := h.pc i
  rw [hpc] at hok
  obtain ⟨-, j, hmem⟩ := h.result_of_past hnpu (by rw [hpc]; rfl)
  have htrue := (h.succeeded_iff hmem).mp hs
  rw [hok hnpu] at htrue
  exact absurd htrue (by simp)

/-- Past the rows of a node, and at them, the node has succeeded. -/
theorem Running.succeeded_of_rows (h : Running u.env u.nodes av res s)
    (hpc : (∃ r re, s.pc i = .rows r re) ∨ s.pc i = .inConverted) : s.Succeeded (s.node i) := by
  have hok := h.pc i
  obtain ⟨hnpu, hres, hpast⟩ : npuAt u.env u.nodes n av (s.node i) = true ∧ res (s.node i) = true ∧
      (s.pc i).past = true := by
    rcases hpc with ⟨r, re, hpc⟩ | hpc <;> rw [hpc] at hok ⊢ <;> exact ⟨hok.1, hok.2, rfl⟩
  obtain ⟨-, j, hmem⟩ := h.result_of_past hnpu hpast
  exact ⟨j, by rwa [hres] at hmem⟩

/-- What thread `i` has converted after a step: what it had before, a row of the epilogue, or its part of the CPU block. -/
theorem Setup.Converted.cases (hconv : u.Converted s' k T g i t c) (h : Running u.env u.nodes av res s)
    (ht : Traced u.env u.nodes av s) (h' : Running u.env u.nodes av res' s') (hT : T = tokensAt u.env u.nodes n av k)
    (hw : Went u.nodes s s' i choice nd k' p es) :
    u.Converted s k T g i t c ∨ k = s.node i ∧
      ((∃ re, s.pc i = .rows t re ∧ t < re ∧ c < g.ne01) ∨
        s.pc i = .cpu ∧ ¬s'.Succeeded k ∧ Hits (u.block.writes g n i) t c) := by
  have hpci : s'.pc i = p := by rw [hw.pc, Function.update_self]
  have hnodei : s'.node i = k' := by rw [hw.node, Function.update_self]
  have hsame : k < s.node i ∨ k = s.node i ∧ (s.pc i).settled = true → (s'.Succeeded k ↔ s.Succeeded k) := fun hset =>
    h'.succeeded_congr hw.grow fun hnpu => ht.settled i k hnpu hset
  have hlast : (s'.Succeeded k ↔ s.Succeeded k) → (u.Last s' k T g i t c ↔ u.Last s k T g i t c) := fun hs => by
    simp only [Setup.Last, hs]
  rw [Setup.Converted, hpci, hnodei] at hconv
  rcases hconv with ⟨hlt, hl⟩ | ⟨hk, hp⟩
  · -- a node that the thread has gone on from
    by_cases hold : k < s.node i
    · exact Or.inl (Or.inl ⟨hold, (hlast (hsame (Or.inl hold))).mp hl⟩)
    · rcases hw.goes.node with rfl | ⟨hfrom, rfl, -⟩
      · exact absurd hlt hold
      · obtain rfl : k = s.node i := by omega
        refine Or.inl (Or.inr ⟨rfl, ?_⟩)
        have hset : (s.pc i).settled = true := by rw [hfrom]; rfl
        rw [hfrom]
        exact (hlast (hsame (Or.inr ⟨rfl, hset⟩))).mp hl
  · rcases hw.goes.node with rfl | ⟨-, rfl, rfl, -⟩
    · subst hk
      have htok : PcTokens T i (s.pc i) := hT ▸ ht.tokens i
      rcases hw.goes.past htok hp with hp | ⟨re, hp, hlt, hc⟩ | ⟨hp | hp, hl⟩
      · have hset : (s.pc i).settled = true := by
          cases hq : s.pc i <;> rw [hq] at hp <;> first | rfl | exact hp.elim
        have hl := hlast (hsame (Or.inr ⟨rfl, hset⟩))
        refine Or.inl (Or.inr ⟨rfl, ?_⟩)
        cases hq : s.pc i <;> rw [hq] at hp <;> first | exact hp | exact hl.mp hp
      · exact Or.inr ⟨rfl, Or.inl ⟨re, hp, hlt, hc⟩⟩
      · -- the CPU block of a node that has not succeeded
        have hset : (s.pc i).settled = true := by rw [hp]; rfl
        have hnot : ¬s'.Succeeded (s.node i) := fun hs =>
          h.not_succeeded_of_cpu hp ((hsame (Or.inr ⟨rfl, hset⟩)).mp hs)
        rcases hl with ⟨hs, -⟩ | ⟨-, hhits⟩
        · exact absurd hs hnot
        · exact Or.inr ⟨rfl, Or.inr ⟨hp, hnot, hhits⟩⟩
      · -- the epilogue of a node that has succeeded
        have hset : (s.pc i).settled = true := by rw [hp]; rfl
        have hs := (hsame (Or.inr ⟨rfl, hset⟩)).mpr (h.succeeded_of_rows (Or.inr hp))
        rcases hl with ⟨-, hrows⟩ | ⟨hnot, -⟩
        · refine Or.inl (Or.inr ⟨rfl, ?_⟩)
          rw [hp]
          exact hrows
        · exact absurd hs hnot
    · exact hp.elim

end Painted

end Pool
end BitnetXdna
