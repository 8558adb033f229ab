import BitnetXdna.Shim.Exact
import BitnetXdna.Lib.History

/-!
# Histories of accumulate calls

`ShimInv` holds of the globals after every history: programs have the sizes they were made with, and each resident entry is
the slabs of a call of the history. From it, every call of a history is defined and every call that succeeds is exact
(`accumulate_exact`); and the two maps of tensors share a key exactly when a resident tensor has been asked for with another
shape (`resident_failed_disjoint_iff`).
-/

namespace BitnetXdna

open Exec

/-- The globals after the calls `past`. -/
structure ShimInv (past : List Call) (s : Shim) : Prop where
  sized : s.Sized
  holds : ∀ p res, s.gResident.lookup p = some res → ∃ c ∈ past, c.src0 = p ∧ res.K = c.K ∧ res.N = c.N ∧ Serves res c

/-- The packed bytes of a tensor do not change from call to call. -/
def Stable (cs : List Call) : Prop :=
  ∀ c ∈ cs, ∀ c' ∈ cs, c.src0 = c'.src0 → c.K = c'.K → c.N = c'.N →
    ∀ i < c.N * c.K / 4, c.packed.cell i = c'.packed.cell i

theorem ShimInv.init : ShimInv [] .init :=
  ⟨fun _ _ hp => absurd hp (by simp [Shim.init]), fun _ _ hr => absurd hr (by simp [Shim.init])⟩

/-- A tensor that fails to be built leaves every program sized. -/
theorem BuildThrows.sized {stem : String} {src0 : Ptr} {n : Nat} {s s' : Shim} (h : BuildThrows stem src0 n s s')
    (hs : s.Sized) : s'.Sized := by
  cases h with
  | program hm => exact hs
  | upload hsp i hi => exact hsp.frame.sized hs

section Step

variable {h : Host} {c : Call} {past : List Call} {s s' : Shim} {ret : Bool}

/-- What a call does to the resident entries: they stay, and its own tensor may be added. -/
theorem AccumulateStep.gResident (hstep : AccumulateStep h c s ret s') :
    s'.gResident = s.gResident ∨ (c.src0 ∉ s.gResident ∧ ∃ plan, planFor c.K c.N = some plan ∧
      s'.gResident = s.gResident.insert c.src0 ⟨slabs c.packed c.K c.N plan, c.K, c.N, plan⟩) := by
  cases hstep with
  | refused | shape | plan => exact Or.inl rfl
  | threw plan e s' hf hr hp hs' => exact Or.inl hs'.gResident
  | hit res ret s' hf hr hK hN hs' => exact Or.inl hs'.gResident
  | built plan sp ret s' hf hr hp hsp hs' => exact Or.inr ⟨hr, plan, hp, hs'.gResident⟩

/-- A call carries the invariant on. -/
theorem AccumulateStep.inv (hstep : AccumulateStep h c s ret s') (hI : ShimInv past s) : ShimInv (past ++ [c]) s' := by
  have hold : ∀ {p res}, s.gResident.lookup p = some res →
      ∃ c' ∈ past ++ [c], c'.src0 = p ∧ res.K = c'.K ∧ res.N = c'.N ∧ Serves res c' := by
    intro p res hr
    obtain ⟨c', hc', hrest⟩ := hI.holds p res hr
    exact ⟨c', List.mem_append_left _ hc', hrest⟩
  constructor
  · cases hstep with
    | refused | shape | plan => exact hI.sized
    | threw plan e s' hf hr hp hs' => exact hs'.sized hI.sized
    | hit res ret s' hf hr hK hN hs' => exact hs'.sized hI.sized
    | built plan sp ret s' hf hr hp hsp hs' => exact hs'.sized (hsp.frame.sized hI.sized)
  · intro p res hr
    rcases hstep.gResident with heq | ⟨-, plan, hp, heq⟩
    · exact hold (heq ▸ hr)
    · rw [heq] at hr
      by_cases hpc : p = c.src0
      · subst hpc
        rw [AList.lookup_insert] at hr
        obtain rfl := Option.some.inj hr
        exact ⟨c, by simp, rfl, rfl, rfl, hp, rfl⟩
      · rw [AList.lookup_insert_ne hpc] at hr
        exact hold hr

/-- One call of a history: it is defined, and it ends as `wp_bitnetXdnaAccumulate` says. -/
theorem accumulateStep_spec (hv : c.Valid) (hI : ShimInv past s) :
    ∃ ret s', accumulateStep h s c = some (ret, s') ∧ AccumulateStep h c s ret s' ∧ ShimInv (past ++ [c]) s' ∧
      (ret = true → ∃ res, s'.gResident.lookup c.src0 = some res ∧ res.K = c.K ∧ res.N = c.N ∧
        ∀ packed, Serves res { c with packed := packed } → Call.Exact { c with packed := packed } s'.gAcc) ∧
      (h.Clean → c.Servable s → ret = true) := by
  have hserves : ∀ res, s.gResident.lookup c.src0 = some res → res.K = c.K → res.N = c.N →
      ∃ packed, Serves res { c with packed := packed } := by
    intro res hr hK hN
    obtain ⟨c', -, -, hK', hN', hs⟩ := hI.holds c.src0 res hr
    refine ⟨c'.packed, ?_, ?_⟩
    · rw [← hK, ← hN, hK', hN']
      exact hs.plan
    · simp only [← hK, ← hN, hK', hN']
      exact hs.chunks
  obtain ⟨ret, s', hrun, hstep, hexact, hlive⟩ := wp_returns (wp_bitnetXdnaAccumulate hv hI.sized hserves)
  exact ⟨ret, s', by rw [accumulateStep, hrun], hstep, hstep.inv hI, hexact, hlive⟩

/-- A call that succeeds leaves every tensor servable that keeps its shape. -/
theorem AccumulateStep.servable (hstep : AccumulateStep h c s true s') {c' : Call} (hs : c'.Servable s)
    (hshape : c.src0 = c'.src0 → c.K = c'.K ∧ c.N = c'.N) : c'.Servable s' := by
  cases hstep with
  | hit res ret s' hf hr hK hN hs' =>
    refine ⟨?_, hs.supported, ?_⟩
    · rw [hs'.gFailed]
      exact hs.notFailed
    · rw [hs'.gResident]
      exact hs.shape
  | built plan sp ret s' hf hr hp hsp hs' =>
    refine ⟨?_, hs.supported, fun res hres => ?_⟩
    · rw [hs'.gFailed, uploaded_gFailed, repacking, hsp.gFailed]
      exact hs.notFailed
    · rw [hs'.gResident] at hres
      by_cases heq : c.src0 = c'.src0
      · rw [← heq, AList.lookup_insert] at hres
        obtain rfl := Option.some.inj hres
        exact hshape heq
      · rw [AList.lookup_insert_ne (Ne.symm heq)] at hres
        exact hs.shape res hres

end Step

/-- The entry of a resident tensor serves every later call for it with the same shape and the same bytes. -/
theorem Serves.of_stable {c c' : Call} {res : Resident} (h : Serves res c') (hK : c.K = c'.K) (hN : c.N = c'.N)
    (hbytes : ∀ i < c.N * c.K / 4, c.packed.cell i = c'.packed.cell i) : Serves res c := by
  have hplan : planFor c.K c.N = some res.plan := by rw [hK, hN, h.plan]
  refine ⟨hplan, ?_⟩
  obtain ⟨hK', -, -⟩ := planFor_eq_some hplan
  have h4 : c.N * (c.K / 4) = c.N * c.K / 4 := (Nat.mul_div_assoc c.N (show 4 ∣ c.K by omega)).symm
  rw [h.chunks, ← hK, ← hN]
  exact (slabs_congr (by omega) fun i hi => hbytes i (h4 ▸ hi)).symm

/-- A call that succeeds after a history of calls on the same tensors is exact. -/
theorem ShimInv.exact {past : List Call} {c : Call} {s : Shim} {res : Resident} (hI : ShimInv past s)
    (hstable : ∀ c' ∈ past, c.src0 = c'.src0 → c.K = c'.K → c.N = c'.N →
      ∀ i < c.N * c.K / 4, c.packed.cell i = c'.packed.cell i)
    (hr : s.gResident.lookup c.src0 = some res) (hK : res.K = c.K) (hN : res.N = c.N)
    (hexact : ∀ packed, Serves res { c with packed := packed } → Call.Exact { c with packed := packed } s.gAcc) :
    c.Exact s.gAcc := by
  obtain ⟨c', hc', hsrc, hK', hN', hserves⟩ := hI.holds c.src0 res hr
  have hKc : c.K = c'.K := hK.symm.trans hK'
  have hNc : c.N = c'.N := hN.symm.trans hN'
  exact hexact c.packed (hserves.of_stable hKc hNc (hstable c' hc' hsrc.symm hKc hNc))

/-- A call of the history `cs`, made from globals that its earlier calls left. -/
structure CallOf (h : Host) (cs : List Call) (r : Record Shim Call Bool) : Prop where
  inv : ∃ past, (∀ c ∈ past ++ [r.input], c ∈ cs) ∧ ShimInv past r.before
  valid : r.input.Valid
  run : accumulateStep h r.before r.input = some (r.output, r.after)

/-- Every history of calls is defined. -/
theorem accumulate_history (h : Host) (cs : List Call) (hvalid : ∀ c ∈ cs, c.Valid) :
    ∃ rs, history (accumulateStep h) .init cs = some rs ∧ rs.map Record.input = cs ∧ ∀ r ∈ rs, CallOf h cs r := by
  refine history_invariant _ _ ShimInv (CallOf h cs) .init ?_
  intro past c rest s hall hI
  have hmem : ∀ c' ∈ past ++ [c], c' ∈ cs := fun c' hc' => by
    rw [hall, List.append_cons]
    exact List.mem_append_left rest hc'
  obtain ⟨ret, s', hrun, -, hI', -, -⟩ := accumulateStep_spec (h := h) (hvalid c (hmem c (by simp))) hI
  exact ⟨ret, s', hrun, hI', ⟨past, hmem, hI⟩, hvalid c (hmem c (by simp)), hrun⟩

/-- On a device without faults every call of a history succeeds, where each tensor has one shape and it is supported. -/
theorem accumulate_answered {h : Host} {cs : List Call} {rs : List (Record Shim Call Bool)} (hclean : h.Clean)
    (hvalid : ∀ c ∈ cs, c.Valid) (hsupported : ∀ c ∈ cs, bitnetXdnaSupports c.K c.N = true)
    (hshape : ∀ c ∈ cs, ∀ c' ∈ cs, c.src0 = c'.src0 → c.K = c'.K ∧ c.N = c'.N)
    (hrun : history (accumulateStep h) .init cs = some rs) : ∀ r ∈ rs, r.output = true := by
  have hinit : ∀ c ∈ cs, c.Servable .init := fun c hc =>
    ⟨by simp [Shim.init], hsupported c hc, fun _ hr => absurd hr (by simp [Shim.init])⟩
  have hall : ∃ rs, history (accumulateStep h) .init cs = some rs ∧ rs.map Record.input = cs ∧ ∀ r ∈ rs, r.output = true := by
    refine history_invariant _ _ (fun past s => ShimInv past s ∧ ∀ c ∈ cs, c.Servable s) _ ⟨.init, hinit⟩ ?_
    rintro past c rest s hcs ⟨hI, hs⟩
    have hc : c ∈ cs := by simp [hcs]
    obtain ⟨ret, s', hstep, hends, hI', -, hlive⟩ := accumulateStep_spec (h := h) (hvalid c hc) hI
    obtain rfl := hlive hclean (hs c hc)
    exact ⟨true, s', hstep, ⟨hI', fun c' hc' => hends.servable (hs c' hc') (hshape c hc c' hc')⟩, rfl⟩
  obtain ⟨rs', hrun', -, hanswered⟩ := hall
  obtain rfl := Option.some.inj (hrun.symm.trans hrun')
  exact hanswered

section CallOf

variable {h : Host} {cs : List Call} {r : Record Shim Call Bool}

/-- A call of a history ends as `AccumulateStep` says. -/
theorem CallOf.step (hr : CallOf h cs r) : AccumulateStep h r.input r.before r.output r.after := by
  obtain ⟨past, -, hI⟩ := hr.inv
  obtain ⟨ret, s', hrun, hstep, -⟩ := accumulateStep_spec (h := h) hr.valid hI
  obtain ⟨rfl, rfl⟩ := Prod.mk.inj (Option.some.inj (hrun.symm.trans hr.run))
  exact hstep

/-- A call that succeeds leaves its product, where the tensors do not change. -/
theorem CallOf.exact (hr : CallOf h cs r) (hstable : Stable cs) (hret : r.output = true) :
    r.input.Exact r.after.gAcc := by
  obtain ⟨past, hmem, hI⟩ := hr.inv
  obtain ⟨ret, s', hrun, -, hI', hexact, -⟩ := accumulateStep_spec (h := h) hr.valid hI
  obtain ⟨rfl, rfl⟩ := Prod.mk.inj (Option.some.inj (hrun.symm.trans hr.run))
  obtain ⟨res, hres, hK, hN, hserves⟩ := hexact hret
  exact hI'.exact (fun c' hc' => hstable _ (hmem _ (by simp)) c' (hmem c' hc')) hres hK hN hserves

end CallOf

/-- The accumulator is what a call that succeeded left, in some history on some device. -/
def Accumulated (c : Call) (gAcc : Buffer Int32) : Prop :=
  ∃ (h : Host) (cs : List Call) (rs : List (Record Shim Call Bool)), (∀ c ∈ cs, c.Valid) ∧ Stable cs ∧
    history (accumulateStep h) .init cs = some rs ∧ ∃ r ∈ rs, r.input = c ∧ r.output = true ∧ r.after.gAcc = gAcc

/-- It holds the product of that call. -/
theorem Accumulated.exact {c : Call} {gAcc : Buffer Int32} (h : Accumulated c gAcc) : c.Exact gAcc := by
  obtain ⟨h, cs, rs, hvalid, hstable, hrun, r, hr, rfl, hret, rfl⟩ := h
  obtain ⟨rs', hrun', -, hcalls⟩ := accumulate_history h cs hvalid
  obtain rfl := Option.some.inj (hrun.symm.trans hrun')
  exact (hcalls r hr).exact hstable hret

/-- In every history of calls, on every device, every call is defined, and every call that returns true leaves the product of
its own tensor and its own activations in the accumulator, exactly. -/
theorem accumulate_exact (h : Host) (cs : List Call) (hvalid : ∀ c ∈ cs, c.Valid) (hstable : Stable cs) :
    ∃ rs, history (accumulateStep h) .init cs = some rs ∧ rs.map Record.input = cs ∧
      ∀ r ∈ rs, r.output = true → r.input.Exact r.after.gAcc := by
  obtain ⟨rs, hrun, hinput, hcalls⟩ := accumulate_history h cs hvalid
  exact ⟨rs, hrun, hinput, fun r hr hret => (hcalls r hr).exact hstable hret⟩

/-- A call with one token, on a tensor of zero bytes. -/
def oneToken (src0 : Ptr) (K N : Nat) : Call where
  src0 := src0
  packed := .replicate (N * K / 4) 0
  K := K
  N := N
  aQ := .replicate K 1
  T := 1
  aRowStride := K

theorem oneToken_valid (src0 : Ptr) (K N : Nat) : (oneToken src0 K N).Valid :=
  ⟨fun _ => Nat.le_refl _, fun _ t ht => by
    obtain rfl : t = 0 := Nat.lt_one_iff.mp ht
    simp [oneToken]⟩

/-- So are any number of them. -/
theorem oneToken_valid_all (shapes : List (Ptr × Nat × Nat)) :
    ∀ c ∈ shapes.map fun p => oneToken p.1 p.2.1 p.2.2, c.Valid := by
  intro c hc
  obtain ⟨p, -, rfl⟩ := List.mem_map.mp hc
  exact oneToken_valid ..

/-- Two tensors of different shapes and the first one again, on a device that never fails: every call is served. -/
theorem accumulate_exact_two_tensors :
    ∃ rs, history (accumulateStep .faultless) .init [oneToken 0 2560 2560, oneToken 1 6912 2560, oneToken 0 2560 2560] =
        some rs ∧
      rs.map Record.input = [oneToken 0 2560 2560, oneToken 1 6912 2560, oneToken 0 2560 2560] ∧
      ∀ r ∈ rs, r.output = true ∧ r.input.Exact r.after.gAcc := by
  have hvalid := oneToken_valid_all [(0, 2560, 2560), (1, 6912, 2560), (0, 2560, 2560)]
  have hmem : ∀ c ∈ [oneToken 0 2560 2560, oneToken 1 6912 2560, oneToken 0 2560 2560],
      c = oneToken 0 2560 2560 ∨ c = oneToken 1 6912 2560 := fun c hc => by
    simp only [List.mem_cons, List.not_mem_nil, or_false] at hc
    tauto
  obtain ⟨rs, hrun, hinput, hexact⟩ := accumulate_exact .faultless _ hvalid fun c hc c' hc' _ _ _ i _ => by
    rcases hmem c hc with rfl | rfl <;> rcases hmem c' hc' with rfl | rfl <;> rfl
  have hanswered := accumulate_answered Host.faultless_clean hvalid (fun c hc => ?_) (fun c hc c' hc' hsrc => ?_) hrun
  · exact ⟨rs, hrun, hinput, fun r hr => ⟨hanswered r hr, hexact r hr (hanswered r hr)⟩⟩
  · rcases hmem c hc with rfl | rfl <;> decide
  · rcases hmem c hc with rfl | rfl <;> rcases hmem c' hc' with rfl | rfl
    · exact ⟨rfl, rfl⟩
    · exact absurd hsrc (by decide)
    · exact absurd hsrc (by decide)
    · exact ⟨rfl, rfl⟩

/-! ## The two maps of tensors -/

/-- No tensor is both resident and known to fail. -/
def Shim.KeysDisjoint (s : Shim) : Prop := ∀ p ∈ s.gResident, p ∉ s.gFailed

/-- A call for a resident tensor with another shape than the one it is resident with. -/
def Call.ShapeClash (c : Call) (s : Shim) : Prop :=
  ∃ res, s.gResident.lookup c.src0 = some res ∧ (res.K ≠ c.K ∨ res.N ≠ c.N)

/-- Every resident tensor is served: a call with its pointer and its shape gets its entry and is not refused. -/
def Shim.Served (h : Host) (s : Shim) : Prop :=
  ∀ p res, s.gResident.lookup p = some res → ∀ packed, getResidentLogged h p packed res.K res.N s = .ok (some res) s

/-- A resident tensor is served exactly when it is not known to fail. -/
theorem served_iff_keysDisjoint (h : Host) (s : Shim) : s.Served h ↔ s.KeysDisjoint := by
  constructor
  · intro hserved p hp hf
    obtain ⟨res, hr⟩ := Option.isSome_iff_exists.mp (AList.lookup_isSome.mpr hp)
    have := hserved p res hr (.replicate 0 0)
    simp [getResidentLogged, Bind.bind, Exec.get, hf, Pure.pure] at this
  · intro hdisj p res hr packed
    have hf : p ∉ s.gFailed := hdisj p (AList.lookup_isSome.mp (by rw [hr]; rfl))
    simp [getResidentLogged, getResident, catchAll, Bind.bind, Exec.get, hf, hr, Pure.pure]

section Step

variable {h : Host} {c : Call} {s s' : Shim} {ret : Bool}

/-- A call without a clash keeps the maps disjoint. -/
theorem AccumulateStep.keysDisjoint (hstep : AccumulateStep h c s ret s') (hclash : ¬c.ShapeClash s)
    (hs : s.KeysDisjoint) : s'.KeysDisjoint := by
  -- a tensor that is not resident may be added to the failed ones
  have hfail : ∀ (reason : String) (g : Table Ptr Resident), g = s.gResident → c.src0 ∉ s.gResident →
      ∀ p ∈ g, p ∉ s.gFailed.insert c.src0 reason := by
    rintro reason g rfl hr p hp hp'
    rcases (AList.mem_insert _).mp hp' with rfl | hp'
    · exact hr hp
    · exact hs p hp hp'
  cases hstep with
  | refused hf => exact hs
  | shape res hf hr hne => exact absurd ⟨res, hr, hne⟩ hclash
  | plan hf hr hp => exact hfail _ _ rfl hr
  | threw plan e s' hf hr hp hs' => exact hfail _ _ hs'.gResident hr
  | hit res ret s' hf hr hK hN hs' =>
    intro p hp
    rw [hs'.gResident] at hp
    rw [hs'.gFailed]
    exact hs p hp
  | built plan sp ret s' hf hr hp hsp hs' =>
    intro p hp
    rw [hs'.gResident, AList.mem_insert] at hp
    rw [hs'.gFailed, uploaded_gFailed, repacking, hsp.gFailed]
    rcases hp with rfl | hp
    · exact hf
    · exact hs p hp

/-- A call for a tensor known to fail is refused, and changes nothing. -/
theorem AccumulateStep.of_failed (hstep : AccumulateStep h c s ret s') (hf : c.src0 ∈ s.gFailed) :
    ret = false ∧ s' = s := by
  cases hstep with
  | refused => exact ⟨rfl, rfl⟩
  | shape res hf' | plan hf' | threw plan e s' hf' | hit res ret s' hf' | built plan sp ret s' hf' => exact absurd hf hf'

/-- A clash is refused, and the resident tensor is known to fail from then on. -/
theorem AccumulateStep.of_shapeClash (hstep : AccumulateStep h c s ret s') (hclash : c.ShapeClash s) :
    ret = false ∧ c.src0 ∈ s'.gResident ∧ c.src0 ∈ s'.gFailed := by
  obtain ⟨res, hr, hne⟩ := hclash
  have hmem : c.src0 ∈ s.gResident := AList.lookup_isSome.mp (by rw [hr]; rfl)
  cases hstep with
  | refused hf => exact ⟨rfl, hmem, hf⟩
  | shape res hf hr hne => exact ⟨rfl, hmem, (AList.mem_insert _).mpr (Or.inl rfl)⟩
  | hit res' ret s' hf hr' hK hN hs' =>
    obtain rfl := Option.some.inj (hr.symm.trans hr')
    omega
  | plan hf hr' | threw plan e s' hf hr' | built plan sp ret s' hf hr' => exact absurd hmem hr'

end Step

/-- A history keeps its resident tensors servable exactly as long as none of its calls is for a resident tensor with another
shape. -/
theorem resident_failed_disjoint_iff (h : Host) (cs : List Call) (hvalid : ∀ c ∈ cs, c.Valid) :
    ∃ rs, history (accumulateStep h) .init cs = some rs ∧ rs.map Record.input = cs ∧
      ((∀ r ∈ rs, r.after.KeysDisjoint ∧ r.after.Served h) ↔ ∀ r ∈ rs, ¬r.input.ShapeClash r.before) := by
  obtain ⟨rs, hrun, hinput, hcalls⟩ := accumulate_history h cs hvalid
  refine ⟨rs, hrun, hinput, fun hgood r hr hclash => ?_, fun hclash r hr => ?_⟩
  · obtain ⟨-, hres, hfail⟩ := (hcalls r hr).step.of_shapeClash hclash
    exact (hgood r hr).1 _ hres hfail
  · have hdisj := history_carries Shim.KeysDisjoint hrun (fun _ hp => absurd hp (by simp [Shim.init]))
      (fun r hr hI => (hcalls r hr).step.keysDisjoint (hclash r hr) hI) r hr
    exact ⟨hdisj, (served_iff_keysDisjoint h _).mpr hdisj⟩

/-- A tensor, the same tensor with another shape, and the first call again, on a device that never fails. -/
theorem resident_failed_disjoint_iff_reshaped :
    ∃ rs, history (accumulateStep .faultless) .init [oneToken 0 2560 2560, oneToken 0 2560 6912, oneToken 0 2560 2560] =
        some rs ∧
      rs.map Record.input = [oneToken 0 2560 2560, oneToken 0 2560 6912, oneToken 0 2560 2560] ∧
      ((∀ r ∈ rs, r.after.KeysDisjoint ∧ r.after.Served .faultless) ↔ ∀ r ∈ rs, ¬r.input.ShapeClash r.before) :=
  resident_failed_disjoint_iff .faultless _ (oneToken_valid_all [(0, 2560, 2560), (0, 2560, 6912), (0, 2560, 2560)])

/-- The call that made a tensor resident is refused after a call with another shape: the tensor is then both resident and
known to fail. -/
theorem reshaped_tensor_refused :
    ∃ s₁ s₂ s₃, accumulateStep .faultless .init (oneToken 0 2560 2560) = some (true, s₁) ∧
      accumulateStep .faultless s₁ (oneToken 0 2560 6912) = some (false, s₂) ∧
      accumulateStep .faultless s₂ (oneToken 0 2560 2560) = some (false, s₃) ∧
      s₁.KeysDisjoint ∧ 0 ∈ s₁.gResident ∧ ¬s₂.KeysDisjoint := by
  have hinit : (oneToken 0 2560 2560).Servable .init := ⟨by decide, by decide, by simp [Shim.init]⟩
  -- the first call makes the tensor resident
  obtain ⟨ret₁, s₁, hrun₁, hstep₁, hI₁, hexact₁, hlive₁⟩ :=
    accumulateStep_spec (h := .faultless) (oneToken_valid 0 2560 2560) ShimInv.init
  obtain rfl : ret₁ = true := hlive₁ Host.faultless_clean hinit
  obtain ⟨res, hr₁, hK₁, hN₁, -⟩ := hexact₁ rfl
  have hdisj₁ : s₁.KeysDisjoint := hstep₁.keysDisjoint (fun ⟨_, hr, _⟩ => absurd hr (by simp [Shim.init]))
    fun _ hp => absurd hp (by simp [Shim.init])
  have hmem₁ : (oneToken 0 2560 2560).src0 ∈ s₁.gResident := AList.lookup_isSome.mp (by rw [hr₁]; rfl)
  -- the second has another shape, and the third finds the tensor among the failed ones
  obtain ⟨ret₂, s₂, hrun₂, hstep₂, hI₂, -, -⟩ :=
    accumulateStep_spec (h := .faultless) (oneToken_valid 0 2560 6912) hI₁
  obtain ⟨rfl, hres₂, hfail₂⟩ := hstep₂.of_shapeClash ⟨res, hr₁, Or.inr (by rw [hN₁]; decide)⟩
  obtain ⟨ret₃, s₃, hrun₃, hstep₃, -, -, -⟩ :=
    accumulateStep_spec (h := .faultless) (oneToken_valid 0 2560 2560) hI₂
  obtain ⟨rfl, -⟩ := hstep₃.of_failed hfail₂
  exact ⟨s₁, s₂, s₃, hrun₁, hrun₂, hrun₃, hdisj₁, hmem₁, fun hdisj => hdisj _ hres₂ hfail₂⟩

end BitnetXdna
