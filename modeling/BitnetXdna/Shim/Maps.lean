import BitnetXdna.Shim.Slabs

/-!
# How the residency functions end

`get_resident_logged` looks a tensor up, refuses it, builds it, or fails to build it. The rule for it (`wp_getResidentLogged`)
has one premise for each of these ends, with the globals written out. `Frame` is what the dispatch loops leave alone.
-/

namespace BitnetXdna

open Exec

/-- The shapes that are served, and their plans. -/
theorem planFor_eq_some {K N : Nat} {plan : ShapePlan} (hp : planFor K N = some plan) :
    (K = 2560 ∨ K = 6912) ∧ (N = 2560 ∨ N = 6912) ∧ plan = ⟨ceilDiv N kNChunk, ceilDiv K kKChunk⟩ := by
  rw [planFor] at hp
  split at hp
  · exact absurd hp (by simp)
  · split at hp
    · exact absurd hp (by simp)
    · next hs =>
      refine ⟨by omega, by omega, ?_⟩
      simpa [ceilDiv] using hp.symm

/-- The memory a call may read: the packed tensor and the activations of its tokens. A shape that is not served is refused
before anything is read. -/
structure Call.Valid (c : Call) : Prop where
  packed : bitnetXdnaSupports c.K c.N → c.N * c.K / 4 ≤ c.packed.size
  aQ : bitnetXdnaSupports c.K c.N → ∀ t < c.T, t * c.aRowStride + c.K ≤ c.aQ.size

/-- The globals when the chunk loop of `get_resident` is entered. -/
def repacking (src0 : Ptr) (s : Shim) : Shim := { s with log := s.log ++ [.repack src0] }

/-- The globals when building a tensor of `n` chunks throws: at the program, or at the upload of chunk `i`. -/
inductive BuildThrows (stem : String) (src0 : Ptr) (n : Nat) (s : Shim) : Shim → Prop where
  | program (hm : stem ∉ s.gPrograms) : BuildThrows stem src0 n s { s with log := s.log ++ [.program false] }
  | upload {sp : Shim} (hsp : ProgramReady stem s sp) (i : Nat) (hi : i < n) :
      BuildThrows stem src0 n s { uploaded (repacking src0 sp) i with
        log := (uploaded (repacking src0 sp) i).log ++ [.upload false] }

section Maps

variable {stem : String} {src0 : Ptr} {n : Nat} {s s' : Shim}

/-- The maps of tensors are not touched by `program_for`. -/
theorem ProgramReady.gResident (h : ProgramReady stem s s') : s'.gResident = s.gResident := by cases h <;> rfl

theorem ProgramReady.gFailed (h : ProgramReady stem s s') : s'.gFailed = s.gFailed := by cases h <;> rfl

theorem ProgramReady.gAcc (h : ProgramReady stem s s') : s'.gAcc = s.gAcc := by cases h <;> rfl

/-- A tensor that fails to be built leaves the maps of tensors as they were. -/
theorem BuildThrows.gResident (h : BuildThrows stem src0 n s s') : s'.gResident = s.gResident := by
  cases h with
  | program hm => rfl
  | upload hsp i hi => rw [uploaded_gResident, repacking, hsp.gResident]

theorem BuildThrows.gFailed (h : BuildThrows stem src0 n s s') : s'.gFailed = s.gFailed := by
  cases h with
  | program hm => rfl
  | upload hsp i hi => rw [uploaded_gFailed, repacking, hsp.gFailed]

theorem BuildThrows.gAcc (h : BuildThrows stem src0 n s s') : s'.gAcc = s.gAcc := by
  cases h with
  | program hm => rfl
  | upload hsp i hi => rw [uploaded_gAcc, repacking, hsp.gAcc]

end Maps

section Residency

variable {U : Prop} {h : Host} {s : Shim} {src0 : Ptr} {packed : Buffer UInt8} {K N : Nat}

/-- How `get_resident` ends: a tensor known to fail or of another shape or without a plan is refused, a resident one is
found, and any other is built and entered, or building it throws. -/
theorem wp_getResident {Q : Option Resident → Shim → Prop} {E : Exn → Shim → Prop}
    (hpacked : bitnetXdnaSupports K N → N * K / 4 ≤ packed.size) (hfailed : src0 ∈ s.gFailed → Q none s)
    (hhit : ∀ res, src0 ∉ s.gFailed → s.gResident.lookup src0 = some res → res.K = K → res.N = N → Q (some res) s)
    (hshape : ∀ res, src0 ∉ s.gFailed → s.gResident.lookup src0 = some res → (res.K ≠ K ∨ res.N ≠ N) → Q none s)
    (hplan : src0 ∉ s.gFailed → src0 ∉ s.gResident → planFor K N = none → Q none s)
    (hbuilt : ∀ plan sp, src0 ∉ s.gFailed → src0 ∉ s.gResident → planFor K N = some plan →
      ProgramReady h.singleStem s sp →
      Q (some ⟨slabs packed K N plan, K, N, plan⟩)
        { uploaded (repacking src0 sp) (plan.nChunks * plan.kChunks) with
          gResident := s.gResident.insert src0 ⟨slabs packed K N plan, K, N, plan⟩ })
    (hthrown : ∀ plan e s', src0 ∉ s.gFailed → src0 ∉ s.gResident → planFor K N = some plan → ¬h.Clean →
      BuildThrows h.singleStem src0 (plan.nChunks * plan.kChunks) s s' → E e s') :
    wp U (getResident h src0 packed K N) Q E s := by
  simp only [getResident, wp_bind, wp_get]
  by_cases hf : src0 ∈ s.gFailed
  · rw [if_pos hf]
    exact hfailed hf
  rw [if_neg hf]
  cases hr : s.gResident.lookup src0 with
  | some res =>
    simp only
    split
    · next hne => exact hshape res hf hr hne
    · next heq => exact hhit res hf hr (by omega) (by omega)
  | none =>
    have hr' : src0 ∉ s.gResident := AList.lookup_eq_none.mp hr
    cases hp : planFor K N with
    | none => exact hplan hf hr' hp
    | some plan =>
      obtain ⟨hK, hN, -⟩ := planFor_eq_some hp
      have hK128 : 128 ∣ K := by omega
      have hsize : N * (K / 4) ≤ packed.size := by
        rw [← Nat.mul_div_assoc N (show 4 ∣ K by omega)]
        exact hpacked (by rw [bitnetXdnaSupports, hp]; rfl)
      simp only [wp_bind]
      refine wp_programFor (fun sp hsp => ?_) fun e hm hc =>
        hthrown plan e _ hf hr' hp (fun hclean => hc (hclean _)) (.program hm)
      rw [wp_bind, wp_logEvent, wp_bind]
      refine wp_uploadChunks (s := repacking src0 sp) hK128 hsize ?_ fun e i hi hc =>
        hthrown plan e _ hf hr' hp (fun hclean => hc (hclean _)) (.upload hsp i hi)
      have := hbuilt plan sp hf hr' hp hsp
      simpa only [wp_bind, wp_modify, wp_pure, uploaded, repacking, Table.emplace, hsp.gResident, if_neg hr'] using this

/-- How `get_resident_logged` ends: like `get_resident`, with every refusal and every exception recorded. -/
theorem wp_getResidentLogged {Q : Option Resident → Shim → Prop} {E : Exn → Shim → Prop}
    (hpacked : bitnetXdnaSupports K N → N * K / 4 ≤ packed.size) (hfailed : src0 ∈ s.gFailed → Q none s)
    (hhit : ∀ res, src0 ∉ s.gFailed → s.gResident.lookup src0 = some res → res.K = K → res.N = N → Q (some res) s)
    (hshape : ∀ res, src0 ∉ s.gFailed → s.gResident.lookup src0 = some res → (res.K ≠ K ∨ res.N ≠ N) →
      Q none { s with gFailed := s.gFailed.insert src0 "plan/shape rejected" })
    (hplan : src0 ∉ s.gFailed → src0 ∉ s.gResident → planFor K N = none →
      Q none { s with gFailed := s.gFailed.insert src0 "plan/shape rejected" })
    (hbuilt : ∀ plan sp, src0 ∉ s.gFailed → src0 ∉ s.gResident → planFor K N = some plan →
      ProgramReady h.singleStem s sp →
      Q (some ⟨slabs packed K N plan, K, N, plan⟩)
        { uploaded (repacking src0 sp) (plan.nChunks * plan.kChunks) with
          gResident := s.gResident.insert src0 ⟨slabs packed K N plan, K, N, plan⟩ })
    (hthrown : ∀ plan (e : Exn) s', src0 ∉ s.gFailed → src0 ∉ s.gResident → planFor K N = some plan → ¬h.Clean →
      BuildThrows h.singleStem src0 (plan.nChunks * plan.kChunks) s s' →
      Q none { s' with gFailed := s.gFailed.insert src0 e.reason }) :
    wp U (getResidentLogged h src0 packed K N) Q E s := by
  simp only [getResidentLogged, wp_bind, wp_get]
  by_cases hf : src0 ∈ s.gFailed
  · rw [if_pos hf]
    exact hfailed hf
  rw [if_neg hf, wp_catchAll, wp_bind]
  refine wp_getResident hpacked (fun hf' => absurd hf' hf) (fun res hf hr hK hN => ?_) (fun res hf hr hne => ?_)
    (fun hf hr hp => ?_) (fun plan sp hf hr hp hsp => ?_) fun plan e s' hf hr hp hc hs' => ?_
  · rw [wp_pure]
    exact hhit res hf hr hK hN
  · simpa only [wp_bind, wp_modify, wp_pure, Table.emplace, if_neg hf] using hshape res hf hr hne
  · simpa only [wp_bind, wp_modify, wp_pure, Table.emplace, if_neg hf] using hplan hf hr hp
  · rw [wp_pure]
    exact hbuilt plan sp hf hr hp hsp
  · simpa only [wp_bind, wp_modify, wp_pure, Table.emplace, hs'.gFailed, if_neg hf] using hthrown plan e s' hf hr hp hc hs'

end Residency

/-! ## What the dispatch loops leave alone -/

/-- The maps of tensors are as they were, every program is still there, with its buffers as large as they were, and the
accumulator is at least as large. -/
structure Frame (s s' : Shim) : Prop where
  gResident : s'.gResident = s.gResident
  gFailed : s'.gFailed = s.gFailed
  gResidentBytes : s'.gResidentBytes = s.gResidentBytes
  programs : ∀ stem ∈ s.gPrograms, stem ∈ s'.gPrograms
  sized : s.Sized → s'.Sized
  accSize : s.gAcc.size ≤ s'.gAcc.size

instance : Std.Refl Frame := ⟨fun _ => ⟨rfl, rfl, rfl, fun _ hm => hm, id, Nat.le_refl _⟩⟩

instance : IsTrans Shim Frame := ⟨fun _ _ _ h h' =>
  ⟨h'.gResident.trans h.gResident, h'.gFailed.trans h.gFailed, h'.gResidentBytes.trans h.gResidentBytes,
    fun stem hm => h'.programs stem (h.programs stem hm), fun hs => h'.sized (h.sized hs), h.accSize.trans h'.accSize⟩⟩

/-- Replacing the program of a stem by a sized one keeps all programs sized. -/
theorem Shim.Sized.insert {s : Shim} (hs : s.Sized) {stem : String} {p : Program} (hp : p.Sized) :
    Shim.Sized { s with gPrograms := s.gPrograms.insert stem p } := by
  intro stem' q hq
  by_cases heq : stem' = stem
  · subst heq
    rw [AList.lookup_insert] at hq
    exact Option.some.inj hq ▸ hp
  · rw [AList.lookup_insert_ne heq] at hq
    exact hs stem' q hq

/-- `program_for` only ever adds a sized program. -/
theorem ProgramReady.frame {stem : String} {s s' : Shim} (h : ProgramReady stem s s') : Frame s s' := by
  cases h with
  | there hm => exact refl_of Frame s
  | made hm p hp =>
    exact ⟨rfl, rfl, rfl, fun _ hm' => (AList.mem_insert _).mpr (Or.inr hm'), fun hs => hs.insert hp, Nat.le_refl _⟩

/-- After `program_for` the program is there. -/
theorem ProgramReady.hasProgram {stem : String} {s s' : Shim} (h : ProgramReady stem s s') (hs : s.Sized) :
    s'.HasProgram stem := by
  cases h with
  | there hm =>
    obtain ⟨p, hp⟩ := Option.isSome_iff_exists.mp (AList.lookup_isSome.mpr hm)
    exact ⟨p, hp, hs stem p hp⟩
  | made hm p hp => exact ⟨p, AList.lookup_insert _, hp⟩

section Frame

variable {h : Host} {stem : String}

/-- A step of the program of a stem that keeps its buffers' sizes. -/
theorem Frame.modifyProgram {f : Program → Option Program} (hf : ∀ p p', f p = some p' → p.Sized → p'.Sized) :
    Preserves Frame (modifyProgram stem f) := by
  intro s
  simp only [BitnetXdna.modifyProgram, wp_bind, wp_get]
  cases hp : s.gPrograms.lookup stem with
  | none => exact trivial
  | some p =>
    rw [wp_ofOption_some, wp_bind]
    cases hp' : f p with
    | none => exact trivial
    | some p' =>
      rw [wp_ofOption_some, wp_modify]
      exact ⟨rfl, rfl, rfl, fun stem' hm => (AList.mem_insert _).mpr (Or.inr hm),
        fun hs => hs.insert (hf p p' hp' (hs stem p hp)), Nat.le_refl _⟩

theorem Frame.logEvent (e : Event) : Preserves Frame (logEvent e) :=
  Preserves.modify fun _ => ⟨rfl, rfl, rfl, fun _ hm => hm, fun hs => hs, Nat.le_refl _⟩

theorem Frame.failWith {α : Type} (ev : Bool → Event) (e : Exn) : Preserves Frame (failWith ev e : ShimM α) :=
  (Frame.logEvent _).bind fun _ => .throw e

theorem Frame.respond : Preserves Frame (respond h) := Preserves.get.bind fun _ => .pure _

/-- A step that is defined on every program. -/
theorem Frame.modifyProgram_some {f : Program → Program} (hf : ∀ p : Program, p.Sized → (f p).Sized) :
    Preserves Frame (BitnetXdna.modifyProgram stem fun p => some (f p)) :=
  Frame.modifyProgram fun p _ hp hs => Option.some.inj hp ▸ hf p hs

theorem Frame.syncA : Preserves Frame (syncA h stem) := by
  refine Frame.respond.bind ?_
  intro r
  cases r.thrown with
  | some e =>
    refine Preserves.bind (Frame.modifyProgram_some ?_) fun _ => Frame.failWith _ _
    exact fun p hs => ⟨hs.boA, hs.boADev, hs.boC⟩
  | none =>
    refine Preserves.bind (Frame.modifyProgram_some ?_) fun _ => Frame.logEvent _
    exact fun p hs => ⟨hs.boA, hs.boA, hs.boC⟩

theorem Frame.runMappedPresynced (w : Buffer Int8) : Preserves Frame (runMappedPresynced h stem w) := by
  refine Frame.respond.bind ?_
  intro r
  have hspoil : Preserves Frame (BitnetXdna.modifyProgram stem fun p =>
      some { p with boC := ⟨p.boC.size, r.words⟩ }) := by
    refine Frame.modifyProgram_some ?_
    exact fun p hs => ⟨hs.boA, hs.boADev, hs.boC⟩
  cases r.thrown with
  | some e => exact hspoil.bind fun _ => Frame.failWith _ _
  | none =>
    cases r.ertState with
    | other code => exact hspoil.bind fun _ => Frame.failWith _ _
    | completed =>
      refine Preserves.bind (Frame.modifyProgram_some ?_) fun _ => ?_
      · exact fun p hs => ⟨hs.boA, hs.boADev, hs.boC⟩
      · refine Preserves.bind (Preserves.modify fun s => ?_) fun _ => Frame.logEvent _
        exact ⟨rfl, rfl, rfl, fun _ hm => hm, fun hs => hs, Nat.le_refl _⟩

/-- Staging keeps the size of the activation buffer. -/
theorem size_stageActivations {c : Call} {t0 rows kOff kKeep : Nat} {boA boA' : Buffer Int8}
    (h : stageActivations c t0 rows kOff kKeep boA = some boA') : boA'.size = boA.size := by
  have hloop : ∀ b b' : Buffer Int8, forRange rows b (fun r b => b.copy (r * kKChunk) c.aQ
      ((t0 + r) * c.aRowStride + kOff) kKeep) = some b' → b'.size = b.size := fun b b' hrun =>
    forRange_keeps (I := fun b' => b'.size = b.size) rfl (fun r b b' hb hc => (Buffer.size_copy hc).trans hb) hrun
  simp only [stageActivations, Option.bind_eq_bind] at h
  split at h
  · obtain ⟨b, hb, hrun⟩ := Option.bind_eq_some_iff.mp h
    exact (hloop b boA' hrun).trans (Buffer.size_fill hb)
  · exact hloop boA boA' h

/-- The copy loops keep the size of the accumulator. -/
theorem size_copyOut {N t0 rows nOff nKeep : Nat} {boC gAcc gAcc' : Buffer Int32}
    (h : copyOut N t0 rows nOff nKeep boC gAcc = some gAcc') : gAcc'.size = gAcc.size :=
  forRange_keeps (I := fun b => b.size = gAcc.size) rfl (fun _ _ _ hb hc => (Buffer.size_copy hc).trans hb) h

theorem size_copyPartial {N t0 rows : Nat} {part gAcc gAcc' : Buffer Int32}
    (h : copyPartial N t0 rows part gAcc = some gAcc') : gAcc'.size = gAcc.size :=
  forRange_keeps (I := fun b => b.size = gAcc.size) rfl (fun _ _ _ hb hc => (Buffer.size_copy hc).trans hb) h

/-- Replacing the accumulator by one that is no smaller. -/
theorem Frame.setAcc {s : Shim} {gAcc : Buffer Int32} (h : s.gAcc.size ≤ gAcc.size) : Frame s { s with gAcc := gAcc } :=
  ⟨rfl, rfl, rfl, fun _ hm => hm, fun hs => hs, h⟩

/-- The accumulator only ever grows. -/
theorem Frame.growAcc (c : Call) (s : Shim) : Frame s (growAcc c s) := by
  refine ⟨rfl, rfl, rfl, fun _ hm => hm, fun hs => hs, ?_⟩
  rw [BitnetXdna.growAcc]
  split
  · exact Nat.le_of_lt ‹_›
  · exact Nat.le_refl _

/-- The dispatch loops of an accumulate leave the maps of tensors alone, whether they return or throw. -/
theorem Frame.accumulateTiles (c : Call) (res : Resident) : Preserves Frame (accumulateTiles h c res) := by
  have hchunk : ∀ t0 rows kc nc part, Preserves Frame (accumulateChunk h c res t0 rows kc nc part) := by
    intro t0 rows kc nc part
    refine (Preserves.ofOption _).bind fun w => (Frame.runMappedPresynced w).bind ?_
    intro _
    refine (Preserves.modify fun _ => ⟨rfl, rfl, rfl, fun _ hm => hm, fun hs => hs, Nat.le_refl _⟩).bind ?_
    intro _
    refine Preserves.getBind ?_
    intro s
    rw [wp_bind]
    cases s.gPrograms.lookup h.singleStem with
    | none => exact trivial
    | some p =>
      rw [wp_ofOption_some]
      split
      · rw [wp_bind]
        cases hcopy : copyOut c.N t0 rows (nc * kNChunk) (min kNChunk (c.N - nc * kNChunk)) p.boC s.gAcc with
        | none => exact trivial
        | some gAcc => exact Frame.setAcc (Nat.le_of_eq (size_copyOut hcopy).symm)
      · exact Preserves.ofOption _ s
  have hslice : ∀ t0 rows kc part, Preserves Frame (accumulateSlice h c res t0 rows kc part) := by
    intro t0 rows kc part
    refine (Frame.modifyProgram fun p p' hp hs => ?_).bind fun _ => Frame.syncA.bind fun _ =>
      Preserves.forRange _ _ (hchunk t0 rows kc)
    simp only [Option.bind_eq_bind, Option.bind_eq_some_iff] at hp
    obtain ⟨boA, hstage, hp⟩ := hp
    have hsize := size_stageActivations hstage
    exact Option.some.inj hp ▸ ⟨hsize.trans hs.boA, hs.boADev, hs.boC⟩
  have htile : ∀ t0 part, Preserves Frame (accumulateTile h c res t0 part) := by
    intro t0 part
    rw [accumulateTile]
    split
    · refine (Preserves.ofOption _).bind fun part => (Preserves.forRange _ _ (hslice t0 _)).bind ?_
      intro part
      refine Preserves.getBind ?_
      intro s
      rw [wp_bind]
      cases hcopy : copyPartial c.N t0 (min kMTile (c.T - t0)) part s.gAcc with
      | none => exact trivial
      | some gAcc => exact Frame.setAcc (Nat.le_of_eq (size_copyPartial hcopy).symm)
    · exact (Preserves.pure _).bind fun part => (Preserves.forRange _ _ (hslice t0 _)).bind fun part => .pure _
  exact (Preserves.forRange _ _ fun i part => htile _ part).bind fun _ => .pure _

end Frame

end BitnetXdna
