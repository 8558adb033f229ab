import BitnetXdna.Ggml.Node

/-!
# Histories of `bitnet_xdna_mul_mat`

The single-threaded form accumulates and runs the whole epilogue itself. In every history of such calls, on every device, a
call that returns true leaves the golden result in its `dst`, and one that returns false leaves its `dst` as it was.
-/

namespace BitnetXdna

/-- One call as a step of a history: what it returns with its `dst`, and the globals it leaves. -/
def mulMatStep (h : Host) (s : Shim) (g : GraphNode) : Option ((Bool × Buffer Float32) × Shim) :=
  match bitnetXdnaMulMat h (g.call g.ne11) g.args g.dst s with
  | .ok out s' => some (out, s')
  | .thrown _ _ => none
  | .undefined => none

/-- The golden result in the rows of a `dst`, and nothing else changed. -/
structure GraphNode.Served (g : GraphNode) (dst : Buffer Float32) : Prop where
  size : dst.size = g.dst.size
  golden : ∃ b, g.golden = some b ∧
    ∀ t < g.ne11, ∀ n < g.ne01, dst.cell (t * g.nb1 / 4 + n) = b.cell (t * g.ne01 + n)
  outside : ∀ p, (∀ t < g.ne11, ∀ n < g.ne01, t * g.nb1 / 4 + n ≠ p) → dst.cell p = g.dst.cell p

/-- The write of a cell of the epilogue. -/
theorem mem_epilogueWrites {F : Type} [EpilogueArith F] {gAcc : Buffer Int32} {N T : Nat} {e : EpilogueArgs F} {w : Write F} :
    w ∈ epilogueWrites gAcc N 0 T e ↔ ∃ t < T, ∃ n < N,
      w = ⟨t, n, EpilogueArith.ofInt32 (gAcc.cell (t * N + n)) * (e.ws / e.actScales.cell t)⟩ := by
  simp only [epilogueWrites, Nat.sub_zero, Nat.zero_add, List.mem_flatMap, List.mem_range, List.mem_map]
  constructor
  · rintro ⟨t, ht, n, hn, rfl⟩
    exact ⟨t, ht, n, hn, rfl⟩
  · rintro ⟨t, ht, n, hn, rfl⟩
    exact ⟨t, ht, n, hn, rfl⟩

/-- The whole epilogue from an accumulator that holds the product of the node. -/
theorem GraphNode.served_epilogue {g : GraphNode} (h : g.Fits) (hs : bitnetXdnaSupports g.ne00 g.ne01 = true)
    {gAcc : Buffer Int32} (hexact : (g.call g.ne11).Exact gAcc) :
    ∃ dst, bitnetXdnaEpilogue gAcc g.ne01 0 g.ne11 g.args g.dst = some dst ∧ g.Served dst := by
  obtain ⟨-, -, hpos, -⟩ := shape_of_supports hs
  obtain ⟨b, hgolden, -, hcell⟩ := golden_eq h hs
  have hpaints : ∀ w ∈ epilogueWrites gAcc g.ne01 0 g.ne11 g.args, w.Paints g.ne11 g.ne01 g.value := by
    intro w hw
    obtain ⟨t, ht, n, hn, rfl⟩ := mem_epilogueWrites.mp hw
    refine ⟨ht, hn, ?_⟩
    exact congrArg (· * (g.xws / g.xsc.cell t)) (congrArg Binary32.ofInt (cell_of_exact hexact ht hn))
  obtain ⟨dst, hrun, hsize, hhits, hkeep⟩ := applyWrites_paints h.dst hpaints
  refine ⟨dst, ?_, hsize, ⟨b, hgolden, fun t ht n hn => ?_⟩, fun p hp => hkeep p fun w hw => ?_⟩
  · have hscales : g.ne11 ≤ g.args.actScales.size := h.scales
    have hacc : g.ne11 * g.ne01 ≤ gAcc.size := hexact.size_le
    rw [bitnetXdnaEpilogue_eq_applyWrites hpos hscales hacc]
    exact hrun
  · rw [hcell t ht n hn]
    exact hhits t n ⟨_, mem_epilogueWrites.mpr ⟨t, ht, n, hn, rfl⟩, rfl, rfl⟩
  · exact hp w.row (hpaints w hw).1 w.col (hpaints w hw).2.1

section Step

variable {h : Host} {s s' : Shim} {g : GraphNode} {past : List Call}

/-- A step is the step of its accumulate, and then the epilogue if that succeeded. -/
theorem mulMatStep_eq {ret : Bool} (hrun : accumulateStep h s (g.call g.ne11) = some (ret, s')) :
    mulMatStep h s g = if ret = true then
      (bitnetXdnaEpilogue s'.gAcc g.ne01 0 g.ne11 g.args g.dst).map fun dst => ((true, dst), s')
    else some ((false, g.dst), s') := by
  have hcall : bitnetXdnaAccumulate h (g.call g.ne11) s = .ok ret s' := by
    unfold accumulateStep at hrun
    split at hrun
    · rename_i heq
      obtain ⟨rfl, rfl⟩ := Prod.mk.inj (Option.some.inj hrun)
      exact heq
    · exact absurd hrun (by simp)
    · exact absurd hrun (by simp)
  rw [mulMatStep, bitnetXdnaMulMat, Exec.bind_of_eq hcall]
  cases ret with
  | false => rfl
  | true =>
    simp only [if_true]
    rw [Exec.bind_of_eq (show (Exec.get : ShimM Shim) s' = .ok s' s' from rfl)]
    have hcall : (g.call g.ne11).N = g.ne01 ∧ (g.call g.ne11).T = g.ne11 := ⟨rfl, rfl⟩
    rw [hcall.1, hcall.2]
    cases bitnetXdnaEpilogue s'.gAcc g.ne01 0 g.ne11 g.args g.dst <;> rfl

/-- A call, as it ended. -/
structure Ended (h : Host) (r : Record Shim GraphNode (Bool × Buffer Float32)) : Prop where
  fits : r.input.Fits
  supported : r.output.1 = true → bitnetXdnaSupports r.input.ne00 r.input.ne01 = true
  served : r.output.1 = true → r.input.Served r.output.2
  kept : r.output.1 = false → r.output.2 = r.input.dst
  answered : h.Clean → (r.input.call r.input.ne11).Servable r.before → r.output.1 = true

/-- A call after a history of calls on tensors that do not change. -/
theorem mulMatStep_spec (hfits : g.Fits) (hI : ShimInv past s)
    (hstable : ∀ c' ∈ past ++ [g.call g.ne11], g.src0 = c'.src0 → g.ne00 = c'.K → g.ne01 = c'.N →
      ∀ i < g.ne01 * g.ne00 / 4, g.packed.cell i = c'.packed.cell i) :
    ∃ out s', mulMatStep h s g = some (out, s') ∧ ShimInv (past ++ [g.call g.ne11]) s' ∧ Ended h ⟨s, g, out, s'⟩ := by
  obtain ⟨ret, s', hrun, -, hI', hexact, hlive⟩ := accumulateStep_spec (h := h) (hfits.call (Nat.le_refl _)) hI
  cases ret with
  | false =>
    have hno : ∀ {p : Prop}, false = true → p := fun h => absurd h Bool.false_ne_true
    exact ⟨(false, g.dst), s', mulMatStep_eq hrun, hI', hfits, hno, hno, fun _ => rfl, hlive⟩
  | true =>
    obtain ⟨res, hres, hK, hN, hserves⟩ := hexact rfl
    have hacc : (g.call g.ne11).Exact s'.gAcc := hI'.exact hstable hres hK hN hserves
    have hsupports : bitnetXdnaSupports g.ne00 g.ne01 = true := by
      obtain ⟨c', -, -, hK', hN', hc'⟩ := hI'.holds _ _ hres
      rw [bitnetXdnaSupports, show g.ne00 = c'.K from hK.symm.trans hK', show g.ne01 = c'.N from hN.symm.trans hN', hc'.plan]
      rfl
    obtain ⟨dst, hdst, hserved⟩ := GraphNode.served_epilogue hfits hsupports hacc
    refine ⟨(true, dst), s', ?_, hI', hfits, fun _ => hsupports, fun _ => hserved, fun h : true = false => ?_, hlive⟩
    · rw [mulMatStep_eq hrun, if_pos rfl, hdst]
      rfl
    · exact absurd h.symm Bool.false_ne_true

end Step

/-- Every history of calls on tensors that do not change is defined, and its calls end so. -/
theorem mulMat_ended (h : Host) (gs : List GraphNode) (hfits : ∀ g ∈ gs, g.Fits)
    (hstable : Stable (gs.map fun g => g.call g.ne11)) :
    ∃ rs, history (mulMatStep h) .init gs = some rs ∧ rs.map Record.input = gs ∧ ∀ r ∈ rs, Ended h r := by
  refine history_invariant _ _ (fun past s => ShimInv (past.map fun g => g.call g.ne11) s) _ .init ?_
  intro past g rest s hall hI
  have hmem : ∀ g' ∈ past ++ [g], g' ∈ gs := fun g' hg' => by
    rw [hall, List.append_cons]
    exact List.mem_append_left rest hg'
  have hsame : (past.map fun g => g.call g.ne11) ++ [g.call g.ne11] = (past ++ [g]).map fun g => g.call g.ne11 := by
    rw [List.map_append, List.map_singleton]
  obtain ⟨out, s', hrun, hI', hended⟩ := mulMatStep_spec (h := h) (hfits g (hmem g (by simp))) hI fun c' hc' => by
    rw [hsame] at hc'
    obtain ⟨g', hg', rfl⟩ := List.mem_map.mp hc'
    exact hstable _ (List.mem_map_of_mem (hmem g (by simp))) _ (List.mem_map_of_mem (hmem g' hg'))
  rw [hsame] at hI'
  exact ⟨out, s', hrun, hI', hended⟩

/-- In every history of calls on tensors that do not change, on every device, every call is defined. A call that returns true
leaves the golden result in the rows of its `dst` and writes nothing else there, and one that returns false writes nothing.
On a device without faults a call for a tensor that can be served returns true. -/
theorem mul_mat_history (h : Host) (gs : List GraphNode) (hfits : ∀ g ∈ gs, g.Fits)
    (hstable : Stable (gs.map fun g => g.call g.ne11)) :
    ∃ rs, history (mulMatStep h) .init gs = some rs ∧ rs.map Record.input = gs ∧ ∀ r ∈ rs,
      (r.output.1 = true → r.input.Served r.output.2) ∧ (r.output.1 = false → r.output.2 = r.input.dst) ∧
      (h.Clean → (r.input.call r.input.ne11).Servable r.before → r.output.1 = true) := by
  obtain ⟨rs, hrun, hinput, hended⟩ := mulMat_ended h gs hfits hstable
  exact ⟨rs, hrun, hinput, fun r hr => ⟨(hended r hr).served, (hended r hr).kept, (hended r hr).answered⟩⟩

/-- Two prompts on a tensor, on a device that never fails. -/
theorem mul_mat_history_two_prompts :
    ∃ rs, history (mulMatStep .faultless) .init [plainNode 7, plainNode 3000] = some rs ∧
      rs.map Record.input = [plainNode 7, plainNode 3000] ∧ ∀ r ∈ rs,
      (r.output.1 = true → r.input.Served r.output.2) ∧ (r.output.1 = false → r.output.2 = r.input.dst) ∧
      (Host.faultless.Clean → (r.input.call r.input.ne11).Servable r.before → r.output.1 = true) := by
  refine mul_mat_history .faultless _ (fun g hg => ?_) fun c hc c' hc' _ _ _ i _ => ?_
  · simp only [List.mem_cons, List.not_mem_nil, or_false] at hg
    rcases hg with rfl | rfl <;> exact plainNode_fits _
  · simp only [List.map_cons, List.map_nil, List.mem_cons, List.not_mem_nil, or_false] at hc hc'
    rcases hc with rfl | rfl <;> rcases hc' with rfl | rfl <;> rfl

end BitnetXdna
