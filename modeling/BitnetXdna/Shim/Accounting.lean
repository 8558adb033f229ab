import BitnetXdna.Shim.Uploads

/-!
# The bytes that are counted as resident

`bitnet_xdna_resident_bytes` is advanced chunk by chunk while a tensor is built, and never taken back. It is the bytes of the
resident chunks exactly as long as no build stops at an upload after its first (`resident_bytes_accounted_iff`); from then on
it is too large.
-/

namespace BitnetXdna

open Exec

/-- The bytes of the chunks of all resident tensors. -/
def Shim.residentSum (s : Shim) : Nat := s.gResident.total fun res => res.chunks.length * (kKChunk * kNChunk)

/-- `bitnet_xdna_resident_bytes` is right. -/
def Shim.BytesAccounted (s : Shim) : Prop := s.gResidentBytes = s.residentSum

/-- The device lets a call that builds its tensor have its program and its first uploads, one at least, but not the next. -/
def Call.StopsAfterUpload (h : Host) (c : Call) (s : Shim) : Prop :=
  ∃ plan i, c.gate s = .build plan ∧ 0 < i ∧ i < plan.nChunks * plan.kChunks ∧
    completes h.permits s.log.length (programScript h s) = true ∧
    completes h.permits (s.log.length + (programScript h s).length + 1) (List.replicate i (.upload true)) = true ∧
    h.permits (s.log.length + (programScript h s).length + 1 + i) (.upload true) = false

section Call

variable {h : Host} {c : Call} {s : Shim} {plan : ShapePlan}

theorem count_upload_programScript : (programScript h s).count (.upload true) = 0 :=
  List.count_eq_zero_of_not_mem fun hm => absurd (mem_programScript hm) nofun

theorem count_upload_tilesScript (plan : ShapePlan) (T : Nat) : (tilesScript plan T).count (.upload true) = 0 :=
  List.count_eq_zero_of_not_mem fun hm => by rcases mem_tilesScript hm with h | h <;> exact absurd h nofun

theorem count_upload_buildScript (src0 : Ptr) (plan : ShapePlan) :
    (buildScript src0 plan).count (.upload true) = plan.nChunks * plan.kChunks := by
  have hne : Event.repack src0 ≠ .upload true := by simp
  rw [buildScript, List.count_cons_of_ne hne, List.count_replicate_self]

/-- A failure is no completed upload. -/
theorem count_upload_play_le (n : Nat) (es : List Event) :
    (play h.permits Event.failed n es).count (.upload true) ≤ es.count (.upload true) :=
  count_play_le fun e he => by cases e <;> exact absurd he nofun

/-- The uploads of a build that stops. They are all wasted. -/
theorem count_upload_of_stops (hgate : c.gate s = .build plan)
    (hstop : completes h.permits s.log.length (programScript h s ++ buildScript c.src0 plan) = false) :
    0 < (play h.permits Event.failed s.log.length (programScript h s ++ buildScript c.src0 plan)).count (.upload true) ↔
      c.StopsAfterUpload h s := by
  cases hprogram : completes h.permits s.log.length (programScript h s) with
  | false =>
    have hle := count_upload_play_le (h := h) s.log.length (programScript h s)
    rw [count_upload_programScript] at hle
    rw [play_append_of_not hprogram]
    constructor
    · intro hpos
      omega
    · rintro ⟨plan', i, -, -, -, hgo, -⟩
      rw [hprogram] at hgo
      exact absurd hgo (by simp)
  | true =>
    have huploads : completes h.permits (s.log.length + (programScript h s).length + 1)
        (List.replicate (plan.nChunks * plan.kChunks) (.upload true)) = false := by
      rw [completes_append, hprogram, Bool.true_and] at hstop
      exact hstop
    obtain ⟨i, hi, hbefore, hpermit, hplay⟩ := play_replicate_of_stops Event.failed huploads
    have hlog : play h.permits Event.failed s.log.length (programScript h s ++ buildScript c.src0 plan) =
        programScript h s ++ Event.repack c.src0 :: (List.replicate i (Event.upload true) ++ [Event.upload false]) := by
      have hrepack : h.permits (s.log.length + (programScript h s).length) (.repack c.src0) = true := rfl
      rw [play_append hprogram, buildScript, play, if_pos hrepack, hplay]
      rfl
    have hcount : (programScript h s ++ Event.repack c.src0 ::
        (List.replicate i (Event.upload true) ++ [Event.upload false])).count (.upload true) = i := by
      have hne : Event.repack c.src0 ≠ .upload true := by simp
      rw [List.count_append, count_upload_programScript, List.count_cons_of_ne hne, List.count_append,
        List.count_replicate_self, List.count_singleton, if_neg (by decide), Nat.zero_add, Nat.add_zero]
    rw [hlog, hcount]
    constructor
    · intro hpos
      exact ⟨plan, i, hgate, hpos, hi, hprogram, hbefore, hpermit⟩
    · rintro ⟨plan', j, -, hj, -, -, hgo, -⟩
      by_contra hzero
      obtain rfl : i = 0 := by omega
      -- the first upload would have gone through
      have hfirst := completes_iff.mp hgo 0 (.upload true) (by rw [List.getElem?_replicate, if_pos hj])
      rw [hpermit] at hfirst
      exact absurd hfirst (by simp)

end Call

section History

variable {h : Host} {cs : List Call} {r : Record Shim Call Bool}

/-- A call that builds nothing uploads nothing and makes nothing resident. -/
theorem CallOf.bytes_of_not_build (hr : CallOf h cs r) (hgate : ∀ plan, r.input.gate r.before ≠ .build plan) :
    r.after.gResidentBytes = r.before.gResidentBytes ∧ r.after.residentSum = r.before.residentSum := by
  have hcount : (r.input.script h r.before).count (.upload true) = 0 ∧ r.after.gResident = r.before.gResident := by
    unfold Call.script
    cases hg : r.input.gate r.before with
    | refused =>
      exact ⟨rfl, (accumulate_of_not_passes hr.valid (Call.passes_of_refused hr.valid hg) hr.run).2.2.1⟩
    | hit plan =>
      obtain ⟨-, res, hres, -⟩ := Call.of_gate_hit hg
      constructor
      · simp only [List.count_append, count_upload_programScript, count_upload_tilesScript]
      · rcases hr.step.gResident with heq | ⟨hno, -⟩
        · exact heq
        · rw [AList.lookup_eq_none.mpr hno] at hres
          exact absurd hres (by simp)
    | build plan => exact absurd hg (hgate plan)
  have hle := count_upload_play_le (h := h) r.before.log.length (r.input.script h r.before)
  rw [hcount.1, Nat.le_zero] at hle
  constructor
  · rw [hr.scripted.counted.gResidentBytes, hle]
    rfl
  · rw [Shim.residentSum, hcount.2]
    rfl

/-- A build that goes through counts its own chunks. -/
theorem CallOf.bytes_of_built {plan : ShapePlan} (hr : CallOf h cs r) (hgate : r.input.gate r.before = .build plan)
    (hdone : completes h.permits r.before.log.length (programScript h r.before ++ buildScript r.input.src0 plan) = true) :
    r.after.gResidentBytes = r.before.gResidentBytes + kKChunk * kNChunk * (plan.nChunks * plan.kChunks) ∧
      r.after.residentSum = plan.nChunks * plan.kChunks * (kKChunk * kNChunk) + r.before.residentSum := by
  obtain ⟨-, hres, hplan⟩ := Call.of_gate_build hgate
  have hno : r.input.src0 ∉ r.before.gResident := AList.lookup_eq_none.mp hres
  constructor
  · rw [hr.scripted.counted.gResidentBytes, Call.script, hgate]
    simp only
    have hle := count_upload_play_le (h := h)
      (r.before.log.length + (programScript h r.before ++ buildScript r.input.src0 plan).length)
      (tilesScript plan r.input.T)
    rw [count_upload_tilesScript, Nat.le_zero] at hle
    rw [play_append hdone, List.count_append, List.count_append, count_upload_programScript, count_upload_buildScript, hle,
      Nat.zero_add, Nat.add_zero]
  · have hpass : r.input.passes h r.before = true := by rw [← Call.passes_of_build hr.valid hgate, hdone]
    have hmem := accumulate_of_passes hr.valid hpass hr.run
    rcases hr.step.gResident with heq | ⟨-, plan', hplan', heq⟩
    · exact absurd (heq ▸ hmem) hno
    · rw [hplan, Option.some.injEq] at hplan'
      subst hplan'
      rw [Shim.residentSum, heq, AList.total_insert_of_notMem _ _ hno, length_slabs]
      rfl

/-- A build that stops counts the uploads it has wasted. -/
theorem CallOf.bytes_of_stops {plan : ShapePlan} (hr : CallOf h cs r) (hgate : r.input.gate r.before = .build plan)
    (hstop : completes h.permits r.before.log.length (programScript h r.before ++ buildScript r.input.src0 plan) = false) :
    r.before.gResidentBytes ≤ r.after.gResidentBytes ∧ r.after.residentSum = r.before.residentSum ∧
      (r.before.gResidentBytes < r.after.gResidentBytes ↔ r.input.StopsAfterUpload h r.before) := by
  have hbytes := hr.scripted.counted.gResidentBytes
  rw [Call.script, hgate] at hbytes
  simp only at hbytes
  rw [play_append_of_not hstop] at hbytes
  have hpass : r.input.passes h r.before = false := by rw [← Call.passes_of_build hr.valid hgate, hstop]
  have hsame := (accumulate_of_not_passes hr.valid hpass hr.run).2.2.1
  refine ⟨by rw [hbytes]; exact Nat.le_add_right .., by rw [Shim.residentSum, hsame]; rfl, ?_⟩
  rw [← count_upload_of_stops hgate hstop, hbytes]
  constructor
  · intro hlt
    by_contra hzero
    rw [Nat.not_lt, Nat.le_zero] at hzero
    rw [hzero] at hlt
    exact absurd hlt (by simp)
  · intro hpos
    exact Nat.lt_add_of_pos_right (Nat.mul_pos (by decide) hpos)

/-- The counter is never below the bytes of the resident chunks, and a call takes it further above them exactly when it stops
after an upload. -/
theorem CallOf.bytes (hr : CallOf h cs r) :
    r.before.gResidentBytes + r.after.residentSum ≤ r.after.gResidentBytes + r.before.residentSum ∧
      (r.before.gResidentBytes + r.after.residentSum < r.after.gResidentBytes + r.before.residentSum ↔
        r.input.StopsAfterUpload h r.before) := by
  cases hgate : r.input.gate r.before with
  | refused | hit =>
    have hno : ∀ plan, r.input.gate r.before ≠ .build plan := by
      intro plan
      rw [hgate]
      nofun
    obtain ⟨hbytes, hsum⟩ := hr.bytes_of_not_build hno
    rw [hbytes, hsum]
    refine ⟨Nat.le_refl _, fun hlt => absurd hlt (Nat.lt_irrefl _), ?_⟩
    rintro ⟨plan, i, hg, -⟩
    exact absurd hg (hno plan)
  | build plan =>
    cases hdone : completes h.permits r.before.log.length (programScript h r.before ++ buildScript r.input.src0 plan) with
    | true =>
      obtain ⟨hbytes, hsum⟩ := hr.bytes_of_built hgate hdone
      rw [hbytes, hsum, Nat.mul_comm (plan.nChunks * plan.kChunks)]
      refine ⟨by omega, fun hlt => by omega, ?_⟩
      rintro ⟨plan', i, hg, -, hi, -, -, hpermit⟩
      obtain rfl := Gate.build.inj (hgate.symm.trans hg)
      -- the upload that does not go through is one of the script
      rw [completes_append, Bool.and_eq_true] at hdone
      have hupload := completes_iff.mp hdone.2 (i + 1) (.upload true)
        (by rw [buildScript, List.getElem?_cons_succ, List.getElem?_replicate, if_pos hi])
      rw [Nat.add_comm i, ← Nat.add_assoc, hpermit] at hupload
      exact absurd hupload (by simp)
    | false =>
      obtain ⟨hle, hsum, hiff⟩ := hr.bytes_of_stops hgate hdone
      rw [hsum, ← hiff]
      omega

/-- The entries of a reachable state hold the chunks of their own plans. -/
theorem CallOf.chunks (hr : CallOf h cs r) {p : Ptr} {res : Resident} (hres : r.after.gResident.lookup p = some res) :
    planFor res.K res.N = some res.plan ∧ res.chunks.length = res.plan.nChunks * res.plan.kChunks := by
  obtain ⟨past, -, hI⟩ := hr.inv
  obtain ⟨c, -, -, hK, hN, hserves⟩ := (hr.step.inv hI).holds p res hres
  constructor
  · rw [hK, hN]
    exact hserves.plan
  · rw [hserves.chunks, length_slabs]

end History

/-- In every history of calls, on every device, each resident entry holds exactly the chunks of its own plan. The counter of
resident bytes is right after every call exactly when no call stops after an upload. -/
theorem resident_bytes_accounted_iff (h : Host) (cs : List Call) (hvalid : ∀ c ∈ cs, c.Valid) :
    ∃ rs, history (accumulateStep h) .init cs = some rs ∧ rs.map Record.input = cs ∧
      (∀ r ∈ rs, ∀ p res, r.after.gResident.lookup p = some res →
        planFor res.K res.N = some res.plan ∧ res.chunks.length = res.plan.nChunks * res.plan.kChunks) ∧
      ((∀ r ∈ rs, r.after.BytesAccounted) ↔ ∀ r ∈ rs, ¬r.input.StopsAfterUpload h r.before) := by
  obtain ⟨rs, hrun, hinput, hcalls⟩ := accumulate_history h cs hvalid
  refine ⟨rs, hrun, hinput, fun r hr p res hres => (hcalls r hr).chunks hres, ?_, ?_⟩
  · intro hgood r hr hstops
    have hbefore : r.before.residentSum ≤ r.before.gResidentBytes := by
      refine history_before (fun s => s.residentSum ≤ s.gResidentBytes) hrun (Nat.le_refl 0) (fun r hr hle => ?_) r hr
      have := (hcalls r hr).bytes.1
      omega
    have hlt := (hcalls r hr).bytes.2.mpr hstops
    have hafter := hgood r hr
    unfold Shim.BytesAccounted at hafter
    omega
  · intro hclean
    refine history_carries Shim.BytesAccounted hrun rfl ?_
    intro r hr hbefore
    obtain ⟨hle, hiff⟩ := (hcalls r hr).bytes
    have hnot := mt hiff.mp (hclean r hr)
    unfold Shim.BytesAccounted at hbefore ⊢
    omega

/-- Two tensors, on a device that never fails. -/
theorem resident_bytes_accounted_iff_two :
    ∃ rs, history (accumulateStep .faultless) .init [oneToken 0 2560 2560, oneToken 1 6912 2560] = some rs ∧
      rs.map Record.input = [oneToken 0 2560 2560, oneToken 1 6912 2560] ∧
      (∀ r ∈ rs, ∀ p res, r.after.gResident.lookup p = some res →
        planFor res.K res.N = some res.plan ∧ res.chunks.length = res.plan.nChunks * res.plan.kChunks) ∧
      ((∀ r ∈ rs, r.after.BytesAccounted) ↔ ∀ r ∈ rs, ¬r.input.StopsAfterUpload .faultless r.before) :=
  resident_bytes_accounted_iff .faultless _ (oneToken_valid_all [(0, 2560, 2560), (1, 6912, 2560)])

/-- A host whose device fails at its fourth operation only. -/
def Host.failsFourth : Host where
  artifacts := none
  device n := { Host.faultless.device n with thrown := if n = 3 then some .other else none }

/-- The second of three uploads fails: no tensor is resident, and the bytes of the first upload are still counted. -/
theorem wasted_upload_counted :
    ∃ s, accumulateStep .failsFourth .init (oneToken 0 2560 6912) = some (false, s) ∧
      s.gResidentBytes = 6553600 ∧ s.residentSum = 0 ∧ ¬s.BytesAccounted := by
  have hv := oneToken_valid 0 2560 6912
  obtain ⟨ret, s, hrun, -⟩ := accumulateStep_spec (h := .failsFourth) hv ShimInv.init
  have hr : CallOf .failsFourth [oneToken 0 2560 6912] ⟨.init, oneToken 0 2560 6912, ret, s⟩ :=
    ⟨⟨[], fun _ hc => hc, ShimInv.init⟩, hv, hrun⟩
  have hgate : (oneToken 0 2560 6912).gate .init = .build ⟨3, 1⟩ := by decide
  have hstop : completes Host.failsFourth.permits 0
      (programScript .failsFourth .init ++ buildScript 0 ⟨3, 1⟩) = false := by decide
  have huploads : (play Host.failsFourth.permits Event.failed Shim.init.log.length
      ((oneToken 0 2560 6912).script .failsFourth .init)).count (.upload true) = 1 := by decide
  have hscripted : Scripted .failsFourth (oneToken 0 2560 6912) .init ret s := hr.scripted
  have hret : ret = false := by
    rw [hscripted.ret_eq]
    decide
  have hbytes : s.gResidentBytes = 6553600 := by
    rw [hscripted.counted.gResidentBytes, huploads]
    rfl
  have hsum : s.residentSum = 0 := (hr.bytes_of_stops hgate hstop).2.1
  refine ⟨s, hret ▸ hrun, hbytes, hsum, ?_⟩
  rw [Shim.BytesAccounted, hbytes, hsum]
  decide

end BitnetXdna
