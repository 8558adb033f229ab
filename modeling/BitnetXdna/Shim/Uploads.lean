import BitnetXdna.Shim.Clients
import BitnetXdna.Shim.Script

/-!
# How often a tensor is uploaded

Over whole histories, with the device failing anywhere: each tensor is built at most once, a tensor that the gate has refused
is never asked for again, and one that it has let through is never uploaded again (`built_at_most_once`).
-/

namespace BitnetXdna

open Exec

/-- The operations of a call of a history. -/
def eventsBetween (s s' : Shim) : List Event := s'.log.drop s.log.length

section Call

variable {h : Host} {c : Call} {s s' : Shim} {ret : Bool} {plan : ShapePlan}

/-- They are its script, as it is played. -/
theorem Scripted.events (hs : Scripted h c s ret s') :
    eventsBetween s s' = play h.permits Event.failed s.log.length (c.script h s) := by
  rw [eventsBetween, hs.counted.log, List.drop_left]

/-- A call made from globals that earlier calls left ends as its script says. -/
theorem scripted_of_run {past : List Call} (hv : c.Valid) (hI : ShimInv past s)
    (hrun : accumulateStep h s c = some (ret, s')) : Scripted h c s ret s' := by
  have hr : CallOf h (past ++ [c]) ⟨s, c, ret, s'⟩ := ⟨⟨past, fun _ hc => hc, hI⟩, hv, hrun⟩
  exact hr.scripted

/-- Serving a call leaves the maps of tensors alone. -/
theorem preserves_serve (res : Resident) : Preserves Frame (do
    programFor h h.singleStem
    modify (growAcc c)
    accumulateTiles h c res
    pure true : ShimM Bool) := by
  have hprogram : Preserves Frame (programFor h h.singleStem) := fun s =>
    wp_programFor (fun sp hsp => hsp.frame) fun e _ _ => ⟨rfl, rfl, rfl, fun _ hm => hm, fun hs => hs, Nat.le_refl _⟩
  exact hprogram.bind fun _ => (Preserves.modify fun s => Frame.growAcc c s).bind fun _ =>
    (Frame.accumulateTiles c res).bind fun _ => .pure true

/-- The tensor of a call that the gate lets through is resident from then on. -/
theorem accumulate_of_passes (hv : c.Valid) (hpass : c.passes h s = true)
    (hrun : accumulateStep h s c = some (ret, s')) : c.src0 ∈ s'.gResident := by
  obtain ⟨r, s₁, hres, hsome, -, hmem⟩ := getResidentLogged_returns h s hv
  rw [hpass, eq_comm, Option.isSome_iff_exists] at hsome
  obtain ⟨res, rfl⟩ := hsome
  have hwp : wp True (bitnetXdnaAccumulate h c) (fun _ s' => Frame s₁ s') (fun _ _ => False) s := by
    unfold bitnetXdnaAccumulate
    rw [wp_catchAll, wp_bind, wp_of_eq hres]
    exact wp_mono (preserves_serve res s₁) (fun _ _ h => h) (fun _ _ h => h) id
  unfold accumulateStep at hrun
  unfold wp at hwp
  cases hout : bitnetXdnaAccumulate h c s with
  | ok ret s' =>
    rw [hout] at hrun hwp
    obtain ⟨-, rfl⟩ := Prod.mk.inj (Option.some.inj hrun)
    rw [hwp.gResident]
    exact hmem nofun
  | thrown e s' =>
    rw [hout] at hrun
    exact absurd hrun (by simp)
  | undefined =>
    rw [hout] at hrun
    exact absurd hrun (by simp)

/-- Building a tensor goes through exactly when the gate then lets the call through. -/
theorem Call.passes_of_build (hv : c.Valid) (hgate : c.gate s = .build plan) :
    completes h.permits s.log.length (programScript h s ++ buildScript c.src0 plan) = c.passes h s := by
  obtain ⟨r, s', hrun, hpass, -⟩ := getResidentLogged_returns h s hv
  obtain ⟨-, hdone, -⟩ := (wp_of_eq hrun).mp (wp_getResidentLogged_build hgate)
  rw [hpass, hdone]

/-- A servable call whose tensor is resident finds it. -/
theorem Call.Servable.gate_of_resident {res : Resident} (hs : c.Servable s) (hr : s.gResident.lookup c.src0 = some res) :
    c.gate s = .hit res.plan := by
  obtain ⟨hK, hN⟩ := hs.shape res hr
  unfold Call.gate
  rw [if_neg hs.notFailed, hr]
  simp only
  rw [if_neg (by omega)]

/-- A tensor that is resident with the shape of the call is let through. -/
theorem Call.passes_of_hit (hv : c.Valid) (hgate : c.gate s = .hit plan) : c.passes h s = true := by
  obtain ⟨r, s', hrun, hpass, -⟩ := getResidentLogged_returns h s hv
  obtain ⟨⟨res, rfl, -⟩, -⟩ := (wp_of_eq hrun).mp (wp_getResidentLogged_hit hgate)
  exact hpass

/-- A call that is refused before the device is asked is not let through. -/
theorem Call.passes_of_refused (hv : c.Valid) (hgate : c.gate s = .refused) : c.passes h s = false := by
  obtain ⟨r, s', hrun, hpass, -⟩ := getResidentLogged_returns h s hv
  obtain ⟨rfl, -, -⟩ := (wp_of_eq hrun).mp (wp_getResidentLogged_refused hgate)
  exact hpass

/-- The known failures stay known. -/
theorem AccumulateStep.gFailed_mono (hstep : AccumulateStep h c s ret s') : ∀ p ∈ s.gFailed, p ∈ s'.gFailed := by
  intro p hp
  cases hstep with
  | refused => exact hp
  | shape | plan => exact (AList.mem_insert _).mpr (Or.inr hp)
  | threw => exact (AList.mem_insert _).mpr (Or.inr hp)
  | hit res ret s' hf hr hK hN hs' =>
    rw [hs'.gFailed]
    exact hp
  | built plan sp ret s' hf hr hp' hsp hs' =>
    rw [hs'.gFailed, uploaded_gFailed, repacking, hsp.gFailed]
    exact hp

/-- The resident tensors stay resident. -/
theorem AccumulateStep.gResident_mono (hstep : AccumulateStep h c s ret s') : ∀ p ∈ s.gResident, p ∈ s'.gResident := by
  intro p hp
  rcases hstep.gResident with heq | ⟨-, plan, -, heq⟩
  · rwa [heq]
  · rw [heq]
    exact (AList.mem_insert _).mpr (Or.inr hp)

/-- Only a call that builds its tensor asks for a build, and only once. -/
theorem count_repack_script (p : Ptr) :
    (c.script h s).count (.repack p) ≤ if p = c.src0 ∧ c.src0 ∉ s.gResident ∧ c.src0 ∉ s.gFailed then 1 else 0 := by
  have hprogram : (programScript h s).count (.repack p) = 0 :=
    List.count_eq_zero_of_not_mem fun hm => absurd (mem_programScript hm) nofun
  have htiles : ∀ plan, (tilesScript plan c.T).count (.repack p) = 0 := fun plan =>
    List.count_eq_zero_of_not_mem fun hm => by rcases mem_tilesScript hm with h | h <;> exact absurd h nofun
  unfold Call.script
  cases hgate : c.gate s with
  | refused => exact Nat.zero_le _
  | hit plan =>
    simp only [List.count_append, hprogram, htiles]
    exact Nat.zero_le _
  | build plan =>
    obtain ⟨hf, hr, -⟩ := Call.of_gate_build hgate
    have hr' : c.src0 ∉ s.gResident := AList.lookup_eq_none.mp hr
    have huploads : (List.replicate (plan.nChunks * plan.kChunks) (Event.upload true)).count (.repack p) = 0 :=
      List.count_eq_zero_of_not_mem fun hm => absurd (List.eq_of_mem_replicate hm) nofun
    simp only [List.count_append, hprogram, htiles, buildScript, List.count_cons, huploads]
    by_cases hp : p = c.src0
    · simp [hp, hr', hf]
    · simp [hp, Ne.symm hp]

/-- A call for a tensor that is resident uploads nothing. -/
theorem not_upload_of_mem (hs : Scripted h c s ret s') (hmem : c.src0 ∈ s.gResident) (p : Ptr) (ok : Bool) :
    .repack p ∉ eventsBetween s s' ∧ .upload ok ∉ eventsBetween s s' := by
  have hscript : ∀ e ∈ c.script h s, e = .program true ∨ e = .syncA true ∨ e = .dispatch true := by
    intro e he
    unfold Call.script at he
    cases hgate : c.gate s with
    | refused =>
      rw [hgate] at he
      exact absurd he (by simp)
    | hit plan =>
      rw [hgate] at he
      rcases List.mem_append.mp he with he | he
      · exact Or.inl (mem_programScript he)
      · exact Or.inr (mem_tilesScript he)
    | build plan => exact absurd hmem (AList.lookup_eq_none.mp (Call.of_gate_build hgate).2.1)
  have hevents : ∀ e ∈ eventsBetween s s', e ≠ .repack p ∧ e ≠ .upload ok := by
    intro e he
    rw [hs.events] at he
    rcases mem_play he with he | ⟨e', he', rfl⟩
    · rcases hscript e he with rfl | rfl | rfl <;> exact ⟨nofun, nofun⟩
    · rcases hscript e' he' with rfl | rfl | rfl <;> exact ⟨nofun, nofun⟩
  exact ⟨fun he => (hevents _ he).1 rfl, fun he => (hevents _ he).2 rfl⟩

/-- A call that gets as far as a dispatch has been let through. -/
theorem passes_of_dispatch (hs : Scripted h c s ret s') (hv : c.Valid) {ok : Bool}
    (hmem : .dispatch ok ∈ eventsBetween s s') : c.passes h s = true := by
  rw [hs.events] at hmem
  unfold Call.script at hmem
  cases hgate : c.gate s with
  | refused =>
    rw [hgate] at hmem
    exact absurd hmem (by simp)
  | hit plan => exact Call.passes_of_hit hv hgate
  | build plan =>
    by_contra hpass
    have hstop := Call.passes_of_build (h := h) hv hgate
    rw [Bool.not_eq_true] at hpass
    rw [hgate, play_append_of_not (by rw [hstop, hpass])] at hmem
    -- before the loops there is no dispatch
    have hbuild : ∀ e ∈ programScript h s ++ buildScript c.src0 plan,
        e = .program true ∨ e = .repack c.src0 ∨ e = .upload true := by
      intro e he
      rcases List.mem_append.mp he with he | he
      · exact Or.inl (mem_programScript he)
      · exact Or.inr (mem_buildScript he)
    rcases mem_play hmem with he | ⟨e, he, heq⟩
    · rcases hbuild _ he with h | h | h <;> exact absurd h nofun
    · rcases hbuild e he with rfl | rfl | rfl <;> exact absurd heq nofun

end Call

/-! ## At most one build for each tensor -/

/-- Each tensor has been built at most once, and one in neither map never. -/
def Shim.BuiltOnce (s : Shim) : Prop :=
  ∀ p, s.log.count (.repack p) ≤ 1 ∧ (p ∉ s.gResident → p ∉ s.gFailed → s.log.count (.repack p) = 0)

section History

variable {h : Host} {cs : List Call} {r : Record Shim Call Bool}

/-- The tensor of a call is in one of the maps from then on. -/
theorem CallOf.mem_maps (hr : CallOf h cs r) : r.input.src0 ∈ r.after.gResident ∨ r.input.src0 ∈ r.after.gFailed := by
  cases hpass : r.input.passes h r.before with
  | false => exact Or.inr (accumulate_of_not_passes hr.valid hpass hr.run).2.1
  | true => exact Or.inl (accumulate_of_passes hr.valid hpass hr.run)

/-- A call builds its tensor only if it never has been. -/
theorem CallOf.builtOnce (hr : CallOf h cs r) (hb : r.before.BuiltOnce) : r.after.BuiltOnce := by
  intro p
  have hcount : r.after.log.count (.repack p) ≤ r.before.log.count (.repack p) +
      if p = r.input.src0 ∧ r.input.src0 ∉ r.before.gResident ∧ r.input.src0 ∉ r.before.gFailed then 1 else 0 := by
    rw [hr.scripted.counted.log, List.count_append]
    refine Nat.add_le_add_left (Nat.le_trans (count_play_le fun e he => ?_) (count_repack_script p)) _
    cases e with
    | repack src0 => exact he
    | program | upload | syncA | dispatch => exact absurd he nofun
  obtain ⟨hone, hnone⟩ := hb p
  split at hcount
  · next hp =>
    obtain ⟨rfl, hres, hfail⟩ := hp
    have hzero := hnone hres hfail
    refine ⟨by omega, fun hres' hfail' => ?_⟩
    rcases hr.mem_maps with hm | hm
    · exact absurd hm hres'
    · exact absurd hm hfail'
  · refine ⟨by omega, fun hres' hfail' => ?_⟩
    have hzero := hnone (fun hm => hres' (hr.step.gResident_mono p hm)) fun hm => hfail' (hr.step.gFailed_mono p hm)
    omega

end History

/-- In every history of calls, on every device: no tensor is built more than once; after the gate has refused a tensor, every
call for it fails without an operation; and after the gate has let a tensor through, as it has whenever a dispatch has failed,
no call for it builds or uploads anything. -/
theorem built_at_most_once (h : Host) (cs : List Call) (hvalid : ∀ c ∈ cs, c.Valid) :
    ∃ rs, history (accumulateStep h) .init cs = some rs ∧ rs.map Record.input = cs ∧
      (∀ r ∈ rs, ∀ p, r.after.log.count (.repack p) ≤ 1) ∧
      rs.Pairwise fun r r' => r'.input.src0 = r.input.src0 →
        (r.input.passes h r.before = false → r'.output = false ∧ r'.after = r'.before) ∧
        (r.input.passes h r.before = true ∨ .dispatch false ∈ eventsBetween r.before r.after →
          ∀ p ok, .repack p ∉ eventsBetween r'.before r'.after ∧ .upload ok ∉ eventsBetween r'.before r'.after) := by
  obtain ⟨rs, hrun, hinput, hcalls⟩ := accumulate_history h cs hvalid
  refine ⟨rs, hrun, hinput, fun r hr p => ?_, ?_⟩
  · have hinit : Shim.init.BuiltOnce := fun p => ⟨Nat.zero_le _, fun _ _ => rfl⟩
    exact (history_carries Shim.BuiltOnce hrun hinit (fun r hr => (hcalls r hr).builtOnce) r hr p).1
  · refine history_pairwise (fun r s => (r.input.passes h r.before = false → r.input.src0 ∈ s.gFailed) ∧
      (r.input.passes h r.before = true → r.input.src0 ∈ s.gResident)) hrun ?_ ?_ ?_
    · intro r hr
      constructor
      · intro hpass
        exact (accumulate_of_not_passes (hcalls r hr).valid hpass (hcalls r hr).run).2.1
      · intro hpass
        exact accumulate_of_passes (hcalls r hr).valid hpass (hcalls r hr).run
    · rintro r - r' hr' ⟨hfail, hres⟩
      exact ⟨fun hpass => (hcalls r' hr').step.gFailed_mono _ (hfail hpass),
        fun hpass => (hcalls r' hr').step.gResident_mono _ (hres hpass)⟩
    · rintro r hr r' hr' ⟨hfail, hres⟩ hsrc
      constructor
      · intro hpass
        exact (hcalls r' hr').step.of_failed (hsrc ▸ hfail hpass)
      · intro hdispatch p ok
        have hpass : r.input.passes h r.before = true := by
          rcases hdispatch with hpass | hmem
          · exact hpass
          · exact passes_of_dispatch (hcalls r hr).scripted (hcalls r hr).valid hmem
        exact not_upload_of_mem (hcalls r' hr').scripted (hsrc ▸ hres hpass) p ok

/-- A tensor, the same tensor again, and another one, on a device that never fails. -/
theorem built_at_most_once_again :
    ∃ rs, history (accumulateStep .faultless) .init [oneToken 0 2560 2560, oneToken 0 2560 2560, oneToken 1 6912 2560] =
        some rs ∧
      rs.map Record.input = [oneToken 0 2560 2560, oneToken 0 2560 2560, oneToken 1 6912 2560] ∧
      (∀ r ∈ rs, ∀ p, r.after.log.count (.repack p) ≤ 1) ∧
      rs.Pairwise fun r r' => r'.input.src0 = r.input.src0 →
        (r.input.passes .faultless r.before = false → r'.output = false ∧ r'.after = r'.before) ∧
        (r.input.passes .faultless r.before = true ∨ .dispatch false ∈ eventsBetween r.before r.after →
          ∀ p ok, .repack p ∉ eventsBetween r'.before r'.after ∧ .upload ok ∉ eventsBetween r'.before r'.after) :=
  built_at_most_once .faultless _ (oneToken_valid_all [(0, 2560, 2560), (0, 2560, 2560), (1, 6912, 2560)])

end BitnetXdna
