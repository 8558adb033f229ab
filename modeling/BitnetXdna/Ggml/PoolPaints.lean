import BitnetXdna.Ggml.PoolMemory

/-!
# What a step of the pool does to a `dst`

Every step keeps the `dst` of the node it is in painted as far as the threads have come. One lemma for each way it changes:
not at all (`Painted.quiet`), by a CPU share, by a row of the epilogue, and by a CPU block.
-/

namespace BitnetXdna
namespace Pool

section Decision

variable {Q : Type} [SplitArith Q]

/-- The split of a batch is no more than the batch. -/
theorem bitnetXdnaTokenSplit_le (gForceTiles : Int) (gSplitFrac : Q) {nTokens : Int} (h : 0 ≤ nTokens) :
    bitnetXdnaTokenSplit gForceTiles gSplitFrac nTokens ≤ nTokens := by
  have clamp : ∀ t : Int, (if t > nTokens then nTokens else t) ≤ nTokens := fun t => by
    split <;> omega
  unfold bitnetXdnaTokenSplit
  repeat' split
  all_goals first | exact clamp _ | omega

/-- What holds of a node where the NPU takes part. -/
theorem decisionOf_npu {env : Environ Q} {nth : Nat} {av : Bool} {nd : Node} (h : (decisionOf env nth av nd).npu = true) :
    bitnetXdnaSupports nd.ne00 nd.ne01 = true ∧ (decisionOf env nth av nd).tokens ≤ nd.ne11 ∧
      (nth ≤ 1 → (decisionOf env nth av nd).tokens = nd.ne11) := by
  simp only [decisionOf] at h ⊢
  split_ifs at h ⊢ with hgo hmany
  · refine ⟨?_, ?_, fun hone => absurd hmany (by omega)⟩
    · simp only [Bool.and_eq_true] at hgo
      exact hgo.2.2
    · have hle := bitnetXdnaTokenSplit_le (Config.resolved env).gForceTiles (Config.resolved env).gSplitFrac
        (Int.natCast_nonneg nd.ne11)
      simp only [Decision.tokens]
      omega
  · refine ⟨?_, ?_, fun _ => ?_⟩
    · simp only [Bool.and_eq_true] at hgo
      exact hgo.2.2
    · exact Nat.le_of_eq (Int.toNat_natCast _)
    · exact Int.toNat_natCast _
  · exact absurd h (by simp [Decision.npu])
  · exact absurd h (by simp [Decision.npu])

end Decision

section Paints

variable {n : Nat} {Q : Type} [SplitArith Q] {u : Setup Q} {av : Bool} {res res' : Nat → Bool} {s s' : State n Q}
  {i j : Fin n} {choice : Bool} {nd : Node} {k k' T t c : Nat} {p : Pc} {es : List Event} {g : GraphNode}
  {early early' late ws : List (Write Float32)}

omit [SplitArith Q] in
theorem Setup.nodes_eq (hg : u.graph[k]? = some g) : u.nodes[k]? = some (nodeOf g) := by
  rw [Setup.nodes, List.getElem?_map, hg]
  rfl

theorem npuAt_eq (hg : u.graph[k]? = some g) : npuAt u.env u.nodes n av k = (decisionOf u.env n av (nodeOf g)).npu := by
  rw [npuAt, Setup.nodes_eq hg]

theorem tokensAt_eq (hg : u.graph[k]? = some g) :
    tokensAt u.env u.nodes n av k = (decisionOf u.env n av (nodeOf g)).tokens := by
  rw [tokensAt, Setup.nodes_eq hg]

/-- What holds of a node of the graph where the NPU takes part. -/
theorem Setup.of_npu (hg : u.graph[k]? = some g) (hnpu : npuAt u.env u.nodes n av k = true) :
    bitnetXdnaSupports g.ne00 g.ne01 = true ∧ tokensAt u.env u.nodes n av k ≤ g.ne11 ∧
      (n ≤ 1 → tokensAt u.env u.nodes n av k = g.ne11) := by
  rw [npuAt_eq hg] at hnpu
  rw [tokensAt_eq hg]
  exact decisionOf_npu hnpu

/-- A thread other than thread 0 that is past the store after a step was so before, or it has computed its CPU share, or it has
none. -/
theorem Went.shares (hw : Went u.nodes s s' i choice nd k' p es) (h : Running u.env u.nodes av res s)
    (h' : Running u.env u.nodes av res' s') (hg : u.graph[k]? = some g) (hi : i.val ≠ 0)
    (hnpu : npuAt u.env u.nodes n av k = true) (hT : tokensAt u.env u.nodes n av k < g.ne11) (hbeyond : s'.Beyond k i) :
    s.Beyond k i ∨ k = s.node i ∧ ∃ t, s.pc i = .share t := by
  rcases hw.beyond hbeyond with hold | ⟨rfl, rfl, ⟨t, r, hp⟩ | hshare | ⟨d, hd, rfl⟩⟩
  · exact Or.inl hold
  · have hok := h.pc i
    rw [hp] at hok
    exact absurd hok.1 hi
  · exact Or.inr ⟨rfl, hshare⟩
  · -- the decision is that of the node, which leaves the thread a share
    obtain rfl : nd = nodeOf g := Option.some.inj (hw.here.symm.trans (Setup.nodes_eq hg))
    have hmem : (i, .decided (s.node i) d) ∈ s'.log := hw.log ▸ List.mem_append_right _ (List.mem_map_of_mem hd)
    rw [npuAt_eq hg, ← h'.decided hw.here hmem] at hnpu
    rw [tokensAt_eq hg, ← h'.decided hw.here hmem] at hT
    have hpci : s'.pc i = .share d.tokens := by
      rw [hw.pc, Function.update_self, afterDecision_eq, if_pos hnpu, if_neg hi]
      exact if_pos hT
    have hnodei : s'.node i = s.node i := by rw [hw.node, Function.update_self]
    rw [State.Beyond, hnodei, hpci] at hbeyond
    rcases hbeyond with hlt | ⟨-, hst⟩
    · exact absurd hlt (Nat.lt_irrefl _)
    · exact absurd hst (by simp [Pc.stored])

/-- A step that writes nothing to the `dst` of node `k`. -/
theorem Setup.Painted.quiet (hP : u.Painted av s k g early late) (h : Running u.env u.nodes av res s)
    (ht : Traced u.env u.nodes av s) (h' : Running u.env u.nodes av res' s') (hw : Went u.nodes s s' i choice nd k' p es)
    (hg : u.graph[k]? = some g)
    (hquiet : k = s.node i → (∀ t, s.pc i ≠ .share t) ∧ (∀ r re, s.pc i = .rows r re → ¬r < re) ∧ s.pc i ≠ .cpu) :
    u.Painted av s' k g early late := by
  have key : u.Painted av s' k g early (late ++ []) := by
    refine hP.step h ht h' hw (fun _ hw => hw) hP.first (by simp) ?_ ?_ (by simp)
    · intro hi hnpu hT hbeyond
      rcases hw.shares h h' hg hi hnpu hT hbeyond with hold | ⟨hk, t, hp⟩
      · exact hP.shares i hi hnpu hT hold
      · exact absurd hp ((hquiet hk).1 t)
    · intro t c hconv
      rw [List.append_nil]
      rcases hconv.cases h ht h' rfl hw with hold | ⟨hk, ⟨re, hp, hlt, -⟩ | ⟨hp, -⟩⟩
      · exact hP.done i t c hold
      · exact absurd hlt ((hquiet hk).2.1 t re hp)
      · exact absurd hp (hquiet hk).2.2
  rwa [List.append_nil] at key

/-- A CPU share. -/
theorem Setup.Painted.share (hP : u.Painted av s (s.node i) g early late) (h : Running u.env u.nodes av res s)
    (ht : Traced u.env u.nodes av s) (h' : Running u.env u.nodes av res' s') (hw : Went u.nodes s s' i choice nd k' p es)
    (hg : u.graph[s.node i]? = some g) (hpc : s.pc i = .share T) (hfits : g.Fits)
    (hkern : bitnetXdnaSupports g.ne00 g.ne01 = true → u.kern.Exact g.toMulMat g.code g.act) :
    late = [] ∧ u.Painted av s' (s.node i) g (early ++ cpuShare u.kern g.toMulMat T n i) [] := by
  have hok := h.pc i
  rw [hpc] at hok
  obtain ⟨hi, hnpu⟩ : i.val ≠ 0 ∧ npuAt u.env u.nodes n av (s.node i) = true := hok
  have hT : T = tokensAt u.env u.nodes n av (s.node i) := by
    have htok := ht.tokens i
    rw [hpc] at htok
    exact htok
  obtain ⟨hs, hle, -⟩ := Setup.of_npu hg hnpu
  obtain ⟨-, h64, -, hK⟩ := GraphNode.shape_of_supports hs
  have hnil : late = [] := by
    by_contra hne
    rcases hP.after hnpu hne i with hlt | ⟨-, hst⟩
    · exact absurd hlt (Nat.lt_irrefl _)
    · rw [hpc] at hst
      exact absurd hst (by simp [Pc.stored])
  subst hnil
  refine ⟨rfl, hP.step h ht h' hw (fun w hw => List.mem_append_left _ hw) ?_
    (fun w hw => absurd hw List.not_mem_nil) ?_ ?_ fun _ hne => absurd rfl hne⟩
  · intro w hmem
    rcases List.mem_append.mp hmem with hmem | hmem
    · exact hP.first w hmem
    · exact GraphNode.share_paints hfits hK (hkern hs) (Dvd.dvd.trans (by decide) h64) (hT ▸ hle) (by omega) i.isLt w hmem
  · intro _ _ _ _ w hmem
    exact List.mem_append_right _ (hT ▸ hmem)
  · intro t c hconv
    rcases hconv.cases h ht h' rfl hw with hold | ⟨-, ⟨re, hp, -⟩ | ⟨hp, -⟩⟩
    · exact hP.done i t c hold
    · exact absurd (hpc.symm.trans hp) (by simp)
    · exact absurd (hpc.symm.trans hp) (by simp)

/-- A row of the epilogue. -/
theorem Setup.Painted.row {r re : Nat} (hP : u.Painted av s (s.node i) g early late) (h : Running u.env u.nodes av res s)
    (ht : Traced u.env u.nodes av s) (h' : Running u.env u.nodes av res' s') (hw : Went u.nodes s s' i choice nd k' p es)
    (hg : u.graph[s.node i]? = some g) (hpc : s.pc i = .rows r re)
    (hpaints : ∀ w ∈ ws, w.Paints g.ne11 g.ne01 g.value) (hhits : ∀ c < g.ne01, Hits ws r c) :
    u.Painted av s' (s.node i) g early (late ++ ws) := by
  have hok := h.pc i
  rw [hpc] at hok
  obtain ⟨hnpu, -⟩ : npuAt u.env u.nodes n av (s.node i) = true ∧ res (s.node i) = true := hok
  have hpast : (s.pc i).past = true := by rw [hpc]; rfl
  obtain ⟨j₀, hmem₀⟩ := h.succeeded_of_rows (Or.inl ⟨r, re, hpc⟩)
  refine hP.step h ht h' hw (fun _ hw => hw) hP.first ?_ ?_ ?_ ?_
  · exact fun w hmem => ⟨fun _ => hpaints w hmem, fun hnot => absurd ⟨j₀, hw.grow _ hmem₀⟩ hnot⟩
  · intro hi _ hT hbeyond
    rcases hw.shares h h' hg hi hnpu hT hbeyond with hold | ⟨-, t, hp⟩
    · exact hP.shares i hi hnpu hT hold
    · exact absurd (hpc.symm.trans hp) (by simp)
  · intro t c hconv
    rcases hconv.cases h ht h' rfl hw with hold | ⟨-, ⟨re', hp, -, hc⟩ | ⟨hp, -⟩⟩
    · exact Hits.append.mpr (Or.inl (hP.done i t c hold))
    · obtain ⟨rfl, rfl⟩ := Pc.rows.inj (hpc.symm.trans hp)
      exact Hits.append.mpr (Or.inr (hhits c hc))
    · exact absurd (hpc.symm.trans hp) (by simp)
  · intro _ _ j
    obtain ⟨hnode, hst⟩ := h.all_here hnpu hpast j
    exact (show s.Beyond (s.node i) j from Or.inr ⟨hnode.symm, hst⟩).went hw

/-- A CPU block. -/
theorem Setup.Painted.block (hP : u.Painted av s (s.node i) g early late) (h : Running u.env u.nodes av res s)
    (ht : Traced u.env u.nodes av s) (h' : Running u.env u.nodes av res' s') (hw : Went u.nodes s s' i choice nd k' p es)
    (hg : u.graph[s.node i]? = some g) (hpc : s.pc i = .cpu) (hblock : u.block.Computes n g) :
    u.Painted av s' (s.node i) g early (late ++ u.block.writes g n i) := by
  have hnot : ¬s'.Succeeded (s.node i) := by
    rw [h'.succeeded_congr hw.grow fun hnpu => ht.settled i _ hnpu (Or.inr ⟨rfl, by rw [hpc]; rfl⟩)]
    exact h.not_succeeded_of_cpu hpc
  refine hP.step h ht h' hw (fun _ hw => hw) hP.first ?_ ?_ ?_ ?_
  · exact fun w hmem => ⟨fun hs => absurd hs hnot, fun _ => hblock.paints i i.isLt w hmem⟩
  · intro hi hnpu hT hbeyond
    rcases hw.shares h h' hg hi hnpu hT hbeyond with hold | ⟨-, t, hp⟩
    · exact hP.shares i hi hnpu hT hold
    · exact absurd (hpc.symm.trans hp) (by simp)
  · intro t c hconv
    rcases hconv.cases h ht h' rfl hw with hold | ⟨-, ⟨re, hp, -⟩ | ⟨-, -, hhits⟩⟩
    · exact Hits.append.mpr (Or.inl (hP.done i t c hold))
    · exact absurd (hpc.symm.trans hp) (by simp)
    · exact Hits.append.mpr (Or.inr hhits)
  · intro hnpu _ j
    obtain ⟨hnode, hst⟩ := h.all_here hnpu (by rw [hpc]; rfl) j
    exact (show s.Beyond (s.node i) j from Or.inr ⟨hnode.symm, hst⟩).went hw

end Paints

end Pool
end BitnetXdna
