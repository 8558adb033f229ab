import BitnetXdna.Shim.Accumulate

/-!
# Rules for the operations of the shim

What each operation that reaches the device can do, once: it completes with the state written out, or it throws, and then
the device was at fault at that very operation. The residency functions are built from these, and `Frame` says what the
rest of an accumulate leaves alone.
-/

namespace BitnetXdna

open Exec

/-- The device does nothing wrong at this operation. -/
structure Response.Clean (r : Response) : Prop where
  thrown : r.thrown = none
  ert : r.ertState = .completed
  kernel : ∃ k ∈ r.kernels, "MLIR_AIE".toList.isPrefixOf k.toList
  insts : ∃ n, r.instsBytes = some n ∧ n % 4 = 0

/-- A device without faults. -/
def Host.Clean (h : Host) : Prop := ∀ n, (h.device n).Clean

/-- A host whose device never fails. -/
def Host.faultless : Host where
  artifacts := none
  device _ := ⟨none, .completed, ["MLIR_AIE"], some 0, fun _ => 0, fun _ => 0⟩

theorem Host.faultless_clean : Host.faultless.Clean := fun _ =>
  ⟨rfl, rfl, ⟨"MLIR_AIE", List.mem_singleton.mpr rfl, by decide⟩, ⟨0, rfl, rfl⟩⟩

/-- The buffers of a program have the sizes they were allocated with. -/
structure Program.Sized (p : Program) : Prop where
  boA : p.boA.size = kMTile * kKChunk
  boADev : p.boADev.size = kMTile * kKChunk
  boC : p.boC.size = kMTile * kNChunk

/-- All programs are sized. -/
def Shim.Sized (s : Shim) : Prop := ∀ stem p, s.gPrograms.lookup stem = some p → p.Sized

/-- The program of a stem is there, with buffers of the right sizes. -/
def Shim.HasProgram (s : Shim) (stem : String) : Prop := ∃ p, s.gPrograms.lookup stem = some p ∧ p.Sized

/-- The globals once `program_for` has returned: the program was there, or it has been made. -/
inductive ProgramReady (stem : String) (s : Shim) : Shim → Prop where
  | there (hm : stem ∈ s.gPrograms) : ProgramReady stem s s
  | made (hm : stem ∉ s.gPrograms) (p : Program) (hp : p.Sized) : ProgramReady stem s { s with
      gPrograms := s.gPrograms.insert stem p
      log := s.log ++ [.program true] }

section Rules

variable {U : Prop} {h : Host} {stem : String} {s : Shim}

@[simp] theorem wp_logEvent {e : Event} {Q : Unit → Shim → Prop} {E : Exn → Shim → Prop} :
    wp U (logEvent e) Q E s ↔ Q () { s with log := s.log ++ [e] } := Iff.rfl

@[simp] theorem wp_respond {Q : Response → Shim → Prop} {E : Exn → Shim → Prop} :
    wp U (respond h) Q E s ↔ Q (h.device s.log.length) s := Iff.rfl

@[simp] theorem wp_failWith {α : Type} {ev : Bool → Event} {e : Exn} {Q : α → Shim → Prop} {E : Exn → Shim → Prop} :
    wp U (failWith ev e) Q E s ↔ E e { s with log := s.log ++ [ev false] } := Iff.rfl

/-- A step of a program that is there. -/
theorem wp_modifyProgram {f : Program → Option Program} {p p' : Program} {Q : Unit → Shim → Prop}
    {E : Exn → Shim → Prop} (hp : s.gPrograms.lookup stem = some p) (hf : f p = some p')
    (hQ : Q () { s with gPrograms := s.gPrograms.insert stem p' }) : wp U (modifyProgram stem f) Q E s := by
  simpa only [modifyProgram, wp_bind, wp_get, hp, wp_ofOption_some, hf, wp_modify] using hQ

/-- A step that is defined on every program. -/
theorem wp_modifyProgram_some {f : Program → Program} {p : Program} {Q : Unit → Shim → Prop} {E : Exn → Shim → Prop}
    (hp : s.gPrograms.lookup stem = some p) :
    wp U (modifyProgram stem fun p => some (f p)) Q E s ↔ Q () { s with gPrograms := s.gPrograms.insert stem (f p) } := by
  simp only [modifyProgram, wp_bind, wp_get, hp, wp_ofOption_some, wp_modify]

/-- Construction gives a sized program, or throws on a device at fault. -/
theorem wp_programNew {Q : Program → Shim → Prop} {E : Exn → Shim → Prop}
    (hok : ∀ p : Program, p.Sized → Q p { s with log := s.log ++ [.program true] })
    (hfail : ∀ e, ¬(h.device s.log.length).Clean → E e { s with log := s.log ++ [.program false] }) :
    wp U (programNew h stem) Q E s := by
  simp only [programNew, wp_bind, wp_respond]
  cases ht : (h.device s.log.length).thrown with
  | some e => exact hfail e fun hc => by simp [hc.thrown] at ht
  | none =>
    cases hk : (h.device s.log.length).kernels.find? fun k => "MLIR_AIE".toList.isPrefixOf k.toList with
    | none =>
      refine hfail _ ?_
      intro hc
      obtain ⟨k, hmem, hpre⟩ := hc.kernel
      exact absurd hpre (by simpa using List.find?_eq_none.mp hk k hmem)
    | some k =>
      cases hi : (h.device s.log.length).instsBytes with
      | none =>
        refine hfail _ ?_
        intro hc
        obtain ⟨n, hn, -⟩ := hc.insts
        simp [hi] at hn
      | some n =>
        by_cases h4 : n % 4 = 0
        · simp only [h4, ne_eq, not_true_eq_false, if_false, wp_bind, wp_logEvent, wp_pure]
          exact hok _ ⟨rfl, rfl, rfl⟩
        · simp only [ne_eq, h4, not_false_eq_true, if_true, wp_failWith]
          refine hfail _ ?_
          intro hc
          obtain ⟨m, hm, hm4⟩ := hc.insts
          rw [hi, Option.some.injEq] at hm
          exact h4 (hm ▸ hm4)

/-- An upload gives a buffer with the slab's cells, or throws on a device at fault. -/
theorem wp_upload {b : Buffer Int8} {Q : Buffer Int8 → Shim → Prop} {E : Exn → Shim → Prop}
    (hb : kKChunk * kNChunk ≤ b.size)
    (hok : Q ((Buffer.replicate (kKChunk * kNChunk) 0).write 0 (kKChunk * kNChunk) b.cell)
      { s with log := s.log ++ [.upload true] })
    (hfail : ∀ e, ¬(h.device s.log.length).Clean → E e { s with log := s.log ++ [.upload false] }) :
    wp U (upload h b) Q E s := by
  simp only [upload, wp_bind, wp_respond]
  cases ht : (h.device s.log.length).thrown with
  | some e => exact hfail e fun hc => by simp [hc.thrown] at ht
  | none =>
    have hcopy := Buffer.copy_eq (show 0 + kKChunk * kNChunk ≤ (Buffer.replicate (kKChunk * kNChunk) (0 : Int8)).size by simp)
      (show 0 + kKChunk * kNChunk ≤ b.size by omega)
    simp only [hcopy, Nat.zero_add, wp_bind, wp_ofOption_some, wp_logEvent, wp_pure]
    exact hok

/-- A flush copies the mapped activations to the device, or throws on a device at fault. -/
theorem wp_syncA {p : Program} {Q : Unit → Shim → Prop} {E : Exn → Shim → Prop}
    (hp : s.gPrograms.lookup stem = some p) (hok : Q () { s with
      gPrograms := s.gPrograms.insert stem { p with boADev := p.boA }
      log := s.log ++ [.syncA true] })
    (hfail : ∀ e bytes, ¬(h.device s.log.length).Clean → E e { s with
      gPrograms := s.gPrograms.insert stem { p with boADev := ⟨p.boADev.size, bytes⟩ }
      log := s.log ++ [.syncA false] }) : wp U (syncA h stem) Q E s := by
  simp only [syncA, wp_bind, wp_respond]
  cases ht : (h.device s.log.length).thrown with
  | some e =>
    rw [wp_bind, wp_modifyProgram_some hp]
    exact hfail e _ fun hc => by simp [hc.thrown] at ht
  | none =>
    rw [wp_bind, wp_modifyProgram_some hp]
    exact hok

/-- A dispatch leaves its result in the mapped buffer and is counted, or throws on a device at fault. -/
theorem wp_runMappedPresynced {p : Program} {w : Buffer Int8} {Q : Unit → Shim → Prop} {E : Exn → Shim → Prop}
    (hp : s.gPrograms.lookup stem = some p) (hok : Q () { s with
      gPrograms := s.gPrograms.insert stem { p with boC := p.boC.write 0 (kMTile * kNChunk) (dispatchResult p.boADev w) }
      gDispatches := s.gDispatches + 1
      log := s.log ++ [.dispatch true] })
    (hfail : ∀ e words, ¬(h.device s.log.length).Clean → E e { s with
      gPrograms := s.gPrograms.insert stem { p with boC := ⟨p.boC.size, words⟩ }
      log := s.log ++ [.dispatch false] }) : wp U (runMappedPresynced h stem w) Q E s := by
  simp only [runMappedPresynced, wp_bind, wp_respond]
  cases ht : (h.device s.log.length).thrown with
  | some e =>
    rw [wp_bind, wp_modifyProgram_some hp]
    exact hfail e _ fun hc => by simp [hc.thrown] at ht
  | none =>
    cases he : (h.device s.log.length).ertState with
    | other code =>
      rw [wp_bind, wp_modifyProgram_some hp]
      exact hfail _ _ fun hc => by simp [hc.ert] at he
    | completed =>
      rw [wp_bind, wp_modifyProgram_some hp]
      exact hok

/-- `program_for` leaves the program of the stem there, or throws on a device at fault before it was. -/
theorem wp_programFor {Q : Unit → Shim → Prop} {E : Exn → Shim → Prop} (hok : ∀ sp, ProgramReady stem s sp → Q () sp)
    (hfail : ∀ e, stem ∉ s.gPrograms → ¬(h.device s.log.length).Clean →
      E e { s with log := s.log ++ [.program false] }) : wp U (programFor h stem) Q E s := by
  simp only [programFor, wp_bind, wp_get]
  by_cases hm : stem ∈ s.gPrograms
  · rw [if_pos hm]
    exact hok s (.there hm)
  · rw [if_neg hm, wp_bind]
    refine wp_programNew (fun p hp => ?_) fun e hc => hfail e hm hc
    simp only [wp_modify, Table.emplace, if_neg hm]
    exact hok _ (.made hm p hp)

end Rules

end BitnetXdna
