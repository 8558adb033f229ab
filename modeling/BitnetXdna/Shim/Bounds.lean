import BitnetXdna.Shim.Clients

/-!
# Every access is in bounds

An access out of bounds has no value in the model, and neither has a call that makes one. So a history of calls that is
defined, on buffers that hold exactly what each call may read, makes none: not in the packed tensor, the activations, the
scratch row, the slab, the mapped buffers, the partial sums, the accumulator or the list of resident chunks
(`accumulate_in_bounds`). The accumulator keeps the size that earlier calls gave it, and the epilogue of a call stays in bounds
after any number of later calls.
-/

namespace BitnetXdna

open Exec

/-- The buffers of a call are exactly as large as the call may use them. -/
structure Call.Tight (c : Call) : Prop where
  tokens : 1 ≤ c.T
  stride : c.K ≤ c.aRowStride
  packed : c.packed.size = c.K * c.N / 4
  aQ : c.aQ.size = (c.T - 1) * c.aRowStride + c.K

/-- They are large enough for the call. -/
theorem Call.valid_of_tight {c : Call} (h : bitnetXdnaSupports c.K c.N → c.Tight) : c.Valid := by
  constructor
  · intro hs
    rw [(h hs).packed, Nat.mul_comm]
  · intro hs t ht
    have hle : t * c.aRowStride ≤ (c.T - 1) * c.aRowStride := Nat.mul_le_mul_right _ (by omega)
    rw [(h hs).aQ]
    omega

/-- The epilogue over any rows of a call, from an accumulator to a `dst` that holds them, is defined. -/
def EpilogueInBounds (c : Call) (gAcc : Buffer Int32) : Prop :=
  ∀ (F : Type) [EpilogueArith F] (e : EpilogueArgs F) (dst : Buffer F) (rb re : Nat), rb ≤ re → re ≤ c.T →
    Job.Fits ⟨c, e⟩ dst → ∃ dst', bitnetXdnaEpilogue gAcc c.N rb re e dst = some dst'

/-- It is where the accumulator has a cell for each entry of the call. -/
theorem epilogueInBounds_of_le {c : Call} {gAcc : Buffer Int32} (hacc : c.T * c.N ≤ gAcc.size) : EpilogueInBounds c gAcc := by
  intro F _ e dst rb re _ hre hfits
  obtain ⟨dst', hrun, -⟩ := bitnetXdnaEpilogue_rows rb hfits hacc hre
  exact ⟨dst', hrun⟩

/-- A call that succeeds leaves an accumulator with a cell for each of its entries. -/
theorem CallOf.size_le {h : Host} {cs : List Call} {r : Record Shim Call Bool} (hr : CallOf h cs r)
    (hret : r.output = true) : r.input.T * r.input.N ≤ r.after.gAcc.size := by
  obtain ⟨past, -, hI⟩ := hr.inv
  obtain ⟨ret, s', hrun, -, hI', hexact, -⟩ := accumulateStep_spec (h := h) hr.valid hI
  obtain ⟨rfl, rfl⟩ := Prod.mk.inj (Option.some.inj (hrun.symm.trans hr.run))
  obtain ⟨res, hres, hK, hN, hserves⟩ := hexact hret
  obtain ⟨c', -, -, hK', hN', hs⟩ := hI'.holds _ res hres
  -- the product of the bytes the entry was built from has as many entries
  have hserves' : Serves res { r.input with packed := c'.packed } := by
    refine ⟨?_, ?_⟩
    · rw [← hK, ← hN, hK', hN']
      exact hs.plan
    · simp only [← hK, ← hN, hK', hN']
      exact hs.chunks
  exact (hserves c'.packed hserves').size_le

/-- In every history of calls on buffers that are exactly large enough, on every device, every call is defined; and the
epilogue over any rows of a call that succeeded is defined, right after the call and after any later call. -/
theorem accumulate_in_bounds (h : Host) (cs : List Call)
    (htight : ∀ c ∈ cs, bitnetXdnaSupports c.K c.N → c.Tight) :
    ∃ rs, history (accumulateStep h) .init cs = some rs ∧ rs.map Record.input = cs ∧
      (∀ r ∈ rs, r.output = true → EpilogueInBounds r.input r.after.gAcc) ∧
      rs.Pairwise fun r r' => r.output = true → EpilogueInBounds r.input r'.after.gAcc := by
  obtain ⟨rs, hrun, hinput, hcalls⟩ := accumulate_history h cs fun c hc => Call.valid_of_tight (htight c hc)
  refine ⟨rs, hrun, hinput, fun r hr hret => epilogueInBounds_of_le ((hcalls r hr).size_le hret), ?_⟩
  refine history_pairwise (fun r s => r.output = true → r.input.T * r.input.N ≤ s.gAcc.size) hrun ?_ ?_ ?_
  · intro r hr hret
    exact (hcalls r hr).size_le hret
  · intro r _ r' hr' hsize hret
    exact Nat.le_trans (hsize hret) (hcalls r' hr').step.accSize
  · intro r _ r' hr' hsize hret
    exact epilogueInBounds_of_le (Nat.le_trans (hsize hret) (hcalls r' hr').step.accSize)

theorem oneToken_tight (src0 : Ptr) (K N : Nat) : (oneToken src0 K N).Tight := by
  refine ⟨Nat.le_refl 1, Nat.le_refl K, ?_, ?_⟩
  · exact congrArg (· / 4) (Nat.mul_comm N K)
  · exact (Nat.zero_add K).symm.trans (congrArg (· + K) (Nat.zero_mul K).symm)

/-- A long row, a wide one, and the long one again, on a device that never fails. -/
theorem accumulate_in_bounds_shapes :
    ∃ rs, history (accumulateStep .faultless) .init [oneToken 0 6912 2560, oneToken 1 2560 6912, oneToken 0 6912 2560] =
        some rs ∧
      rs.map Record.input = [oneToken 0 6912 2560, oneToken 1 2560 6912, oneToken 0 6912 2560] ∧
      (∀ r ∈ rs, r.output = true → EpilogueInBounds r.input r.after.gAcc) ∧
      rs.Pairwise fun r r' => r.output = true → EpilogueInBounds r.input r'.after.gAcc := by
  refine accumulate_in_bounds .faultless _ ?_
  intro c hc _
  simp only [List.mem_cons, List.not_mem_nil, or_false] at hc
  rcases hc with rfl | rfl | rfl <;> exact oneToken_tight ..

end BitnetXdna
