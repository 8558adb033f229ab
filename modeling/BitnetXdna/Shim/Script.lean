import BitnetXdna.Shim.Histories
import BitnetXdna.Lib.Script
import BitnetXdna.Lib.Tables

/-!
# The operations of a call

What a call asks of the device, as a script: the program if there is none yet, the chunks of its tensor if it is not resident,
then for each token tile and K slice one flush and a dispatch for each N chunk. `bitnet_xdna_accumulate` performs its script
and stops at the first operation that fails (`wp_bitnetXdnaAccumulate_script`), and the counters of the shim count exactly the
operations of the log (`Counted`).
-/

namespace BitnetXdna

open Exec

/-- The same operation, failed. An entry of the chunk loop does not fail by itself. -/
def Event.failed : Event → Event
  | .program _ => .program false
  | .repack src0 => .repack src0
  | .upload _ => .upload false
  | .syncA _ => .syncA false
  | .dispatch _ => .dispatch false

/-- The device lets operation `n` through. -/
def Host.permits (h : Host) (n : Nat) : Event → Bool
  | .program _ =>
    (h.device n).thrown.isNone && ((h.device n).kernels.find? fun k => "MLIR_AIE".toList.isPrefixOf k.toList).isSome &&
      ((h.device n).instsBytes.any fun b => b % 4 == 0)
  | .repack _ => true
  | .upload _ | .syncA _ => (h.device n).thrown.isNone
  | .dispatch _ => (h.device n).thrown.isNone && (h.device n).ertState == .completed

/-- The per-shape counter of a shape. -/
def Shim.dispatchesOf (s : Shim) (key : Nat × Nat) : Nat := (s.gShapeStats.lookup key).getD 0

/-- The sum of the per-shape counters. -/
def Shim.shapeTotal (s : Shim) : Nat := s.gShapeStats.total id

/-- The state after the operations `es` of a call of one shape: the log has them, and the counters have counted them. -/
structure Counted (stem : String) (key : Nat × Nat) (es : List Event) (s s' : Shim) : Prop where
  log : s'.log = s.log ++ es
  gDispatches : s'.gDispatches = s.gDispatches + es.count (.dispatch true)
  dispatchesOf : ∀ k, s'.dispatchesOf k = s.dispatchesOf k + if k = key then es.count (.dispatch true) else 0
  shapeTotal : s'.shapeTotal = s.shapeTotal + es.count (.dispatch true)
  gResidentBytes : s'.gResidentBytes = s.gResidentBytes + kKChunk * kNChunk * es.count (.upload true)
  programs : ∀ stem ∈ s.gPrograms, stem ∈ s'.gPrograms
  made : .program true ∈ es → stem ∈ s'.gPrograms

/-- The device, driven by the calls of one shape. -/
def tracing (h : Host) (key : Nat × Nat) : Tracing Shim Event where
  permits := h.permits
  fail := Event.failed
  log := Shim.log
  After := Counted h.singleStem key
  after_nil s := ⟨by simp, rfl, by simp, rfl, rfl, fun _ hm => hm, nofun⟩
  after_append {es fs s s' s''} h h' := by
    refine ⟨?_, ?_, fun k => ?_, ?_, ?_, fun stem hm => h'.programs stem (h.programs stem hm), fun hm => ?_⟩
    · rw [h'.log, h.log, List.append_assoc]
    · rw [h'.gDispatches, h.gDispatches, List.count_append, Nat.add_assoc]
    · rw [h'.dispatchesOf, h.dispatchesOf, List.count_append]
      split
      · rw [Nat.add_assoc]
      · rfl
    · rw [h'.shapeTotal, h.shapeTotal, List.count_append, Nat.add_assoc]
    · rw [h'.gResidentBytes, h.gResidentBytes, List.count_append, Nat.mul_add, Nat.add_assoc]
    · rcases List.mem_append.mp hm with hm | hm
      · exact h'.programs _ (h.made hm)
      · exact h'.made hm
  after_log h := h.log

/-! ## The scripts -/

/-- `program_for`. -/
def programScript (h : Host) (s : Shim) : List Event := if h.singleStem ∈ s.gPrograms then [] else [.program true]

/-- The chunk loop of `get_resident`. -/
def buildScript (src0 : Ptr) (plan : ShapePlan) : List Event :=
  .repack src0 :: List.replicate (plan.nChunks * plan.kChunks) (.upload true)

/-- One K slice of a token tile. -/
def sliceScript (plan : ShapePlan) : List Event := .syncA true :: List.replicate plan.nChunks (.dispatch true)

/-- The loops of an accumulate. -/
def tilesScript (plan : ShapePlan) (T : Nat) : List Event :=
  (List.replicate (ceilDiv T kMTile) (List.replicate plan.kChunks (sliceScript plan)).flatten).flatten

/-- What becomes of a call before the device is asked: it is refused, its tensor is resident, or its tensor is built. -/
inductive Gate where
  | refused
  | hit (plan : ShapePlan)
  | build (plan : ShapePlan)
deriving DecidableEq

/-- The residency gate. -/
def Call.gate (c : Call) (s : Shim) : Gate :=
  if c.src0 ∈ s.gFailed then .refused
  else
    match s.gResident.lookup c.src0 with
    | some res => if res.K ≠ c.K ∨ res.N ≠ c.N then .refused else .hit res.plan
    | none =>
      match planFor c.K c.N with
      | none => .refused
      | some plan => .build plan

/-- A tensor that is built is in neither map. -/
theorem Call.of_gate_build {c : Call} {s : Shim} {plan : ShapePlan} (hgate : c.gate s = .build plan) :
    c.src0 ∉ s.gFailed ∧ s.gResident.lookup c.src0 = none ∧ planFor c.K c.N = some plan := by
  unfold Call.gate at hgate
  split at hgate
  · exact absurd hgate (by simp)
  · next hf =>
    cases hr : s.gResident.lookup c.src0 with
    | some res =>
      rw [hr] at hgate
      simp only at hgate
      split at hgate <;> exact absurd hgate (by simp)
    | none =>
      rw [hr] at hgate
      cases hp : planFor c.K c.N with
      | none =>
        rw [hp] at hgate
        exact absurd hgate (by simp)
      | some plan' =>
        rw [hp] at hgate
        exact ⟨hf, rfl, congrArg some (Gate.build.inj hgate)⟩

/-- A tensor that is found is resident with the shape of the call. -/
theorem Call.of_gate_hit {c : Call} {s : Shim} {plan : ShapePlan} (hgate : c.gate s = .hit plan) :
    c.src0 ∉ s.gFailed ∧ ∃ res, s.gResident.lookup c.src0 = some res ∧ res.K = c.K ∧ res.N = c.N ∧ res.plan = plan := by
  unfold Call.gate at hgate
  split at hgate
  · exact absurd hgate (by simp)
  · next hf =>
    cases hr : s.gResident.lookup c.src0 with
    | some res =>
      rw [hr] at hgate
      simp only at hgate
      split at hgate
      · exact absurd hgate (by simp)
      · next heq => exact ⟨hf, res, rfl, by omega, by omega, Gate.hit.inj hgate⟩
    | none =>
      rw [hr] at hgate
      cases hp : planFor c.K c.N with
      | none | some plan =>
        rw [hp] at hgate
        exact absurd hgate (by simp)

/-- What a call asks of the device. -/
def Call.script (h : Host) (c : Call) (s : Shim) : List Event :=
  match c.gate s with
  | .refused => []
  | .hit plan => programScript h s ++ tilesScript plan c.T
  | .build plan => programScript h s ++ buildScript c.src0 plan ++ tilesScript plan c.T

/-! ## What is in the scripts -/

section Scripts

variable {h : Host} {s : Shim} {plan : ShapePlan} {T : Nat} {e : Event}

theorem mem_programScript (he : e ∈ programScript h s) : e = .program true := by
  unfold programScript at he
  split at he
  · exact absurd he (by simp)
  · exact List.mem_singleton.mp he

theorem mem_buildScript {src0 : Ptr} (he : e ∈ buildScript src0 plan) : e = .repack src0 ∨ e = .upload true := by
  rcases List.mem_cons.mp he with he | he
  · exact Or.inl he
  · exact Or.inr (List.eq_of_mem_replicate he)

theorem mem_tilesScript (he : e ∈ tilesScript plan T) : e = .syncA true ∨ e = .dispatch true := by
  obtain ⟨tile, htile, he⟩ := List.mem_flatten.mp he
  rw [List.eq_of_mem_replicate htile] at he
  obtain ⟨slice, hslice, he⟩ := List.mem_flatten.mp he
  rw [List.eq_of_mem_replicate hslice] at he
  rcases List.mem_cons.mp he with he | he
  · exact Or.inl he
  · exact Or.inr (List.eq_of_mem_replicate he)

/-- The loops perform every operation of a slice in every slice of every tile. -/
theorem count_tilesScript (e : Event) :
    (tilesScript plan T).count e = ceilDiv T kMTile * (plan.kChunks * (sliceScript plan).count e) := by
  simp only [tilesScript, List.count_flatten, List.map_replicate, List.sum_replicate_nat]

end Scripts

/-! ## The operations -/

section Operations

variable {h : Host} {key : Nat × Nat} {stem : String} {s : Shim} {c : Call} {plan : ShapePlan}

/-- Logging an operation that is no completed upload or dispatch, whatever it did to the programs it found. -/
theorem counted_one {ev : Event} (t : Table String Program) (ht : ∀ stem ∈ s.gPrograms, stem ∈ t)
    (hd : ev ≠ .dispatch true) (hu : ev ≠ .upload true) (hp : ev = .program true → stem ∈ t) :
    Counted stem key [ev] s { s with gPrograms := t, log := s.log ++ [ev] } := by
  have hcount : [ev].count (.dispatch true) = 0 := List.count_eq_zero_of_not_mem (by simpa using hd.symm)
  have hcount' : [ev].count (.upload true) = 0 := List.count_eq_zero_of_not_mem (by simpa using hu.symm)
  refine ⟨rfl, ?_, fun k => ?_, ?_, ?_, ht, fun hm => hp (List.mem_singleton.mp hm).symm⟩
  · rw [hcount]
    rfl
  · rw [hcount, ite_self]
    rfl
  · rw [hcount]
    rfl
  · rw [hcount']
    rfl

/-- An operation that nothing counts. -/
def Event.uncounted : Event → Bool
  | .program ok | .upload ok | .dispatch ok => !ok
  | .repack _ | .syncA _ => true

theorem counted_uncounted {ev : Event} (t : Table String Program) (ht : ∀ stem ∈ s.gPrograms, stem ∈ t)
    (hev : ev.uncounted = true) : Counted stem key [ev] s { s with gPrograms := t, log := s.log ++ [ev] } := by
  refine counted_one t ht ?_ ?_ ?_
  · rintro rfl
    exact absurd hev (by decide)
  · rintro rfl
    exact absurd hev (by decide)
  · rintro rfl
    exact absurd hev (by decide)

/-- A change of what is neither logged nor counted. -/
theorem counted_none {s' : Shim} (hlog : s'.log = s.log) (hdispatches : s'.gDispatches = s.gDispatches)
    (hstats : s'.gShapeStats = s.gShapeStats) (hbytes : s'.gResidentBytes = s.gResidentBytes)
    (ht : ∀ stem ∈ s.gPrograms, stem ∈ s'.gPrograms) : Counted stem key [] s s' := by
  refine ⟨?_, hdispatches, fun k => ?_, ?_, hbytes, ht, nofun⟩
  · rw [hlog, List.append_nil]
  · rw [Shim.dispatchesOf, hstats, List.count_nil, ite_self]
    rfl
  · rw [Shim.shapeTotal, hstats]
    rfl

/-- A completed dispatch, counted by shape. -/
theorem counted_dispatch (t : Table String Program) (ht : ∀ stem ∈ s.gPrograms, stem ∈ t) :
    Counted stem key [.dispatch true] s (countDispatch key
      { s with gPrograms := t, gDispatches := s.gDispatches + 1, log := s.log ++ [.dispatch true] }) := by
  refine ⟨rfl, rfl, fun k => ?_, ?_, rfl, ht, nofun⟩
  · simp only [Shim.dispatchesOf, countDispatch, List.count_singleton_self]
    by_cases hk : k = key
    · subst hk
      rw [AList.lookup_insert, if_pos rfl, Option.getD_some]
    · rw [AList.lookup_insert_ne hk, if_neg hk]
      rfl
  · have hinsert := AList.total_insert id key ((s.gShapeStats.lookup key).getD 0 + 1) s.gShapeStats
    rw [Option.map_id, id, id] at hinsert
    simp only [Shim.shapeTotal, countDispatch, List.count_singleton_self]
    omega

/-- A completed upload, counted. -/
theorem counted_upload : Counted stem key [.upload true] s
    { s with gResidentBytes := s.gResidentBytes + kKChunk * kNChunk, log := s.log ++ [.upload true] } :=
  ⟨rfl, rfl, by simp [Shim.dispatchesOf], rfl, rfl, fun _ hm => hm, nofun⟩

/-- Replacing a program where there is one. -/
theorem wp_modifyProgram_any {f : Program → Option Program} {Q : Unit → Shim → Prop} {E : Exn → Shim → Prop}
    (hQ : ∀ t : Table String Program, (∀ stem ∈ s.gPrograms, stem ∈ t) → Q () { s with gPrograms := t }) :
    wp True (modifyProgram stem f) Q E s := by
  simp only [modifyProgram, wp_bind, wp_get]
  cases hp : s.gPrograms.lookup stem with
  | none => exact trivial
  | some p =>
    rw [wp_ofOption_some, wp_bind]
    cases hf : f p with
    | none => exact trivial
    | some p' =>
      rw [wp_ofOption_some, wp_modify]
      exact hQ _ fun stem' hm => (AList.mem_insert _).mpr (Or.inr hm)

/-- An entry of the chunk loop. -/
theorem follows_repack (src0 : Ptr) : Follows (tracing h key) [.repack src0] (logEvent (.repack src0)) s :=
  .single ⟨rfl, counted_uncounted s.gPrograms (fun _ hm => hm) rfl⟩

/-- Construction returns exactly when the device lets it through. -/
theorem wp_programNew_permits {U : Prop} {Q : Program → Shim → Prop} {E : Exn → Shim → Prop}
    (hok : h.permits s.log.length (.program true) = true → ∀ p, Q p { s with log := s.log ++ [.program true] })
    (hfail : h.permits s.log.length (.program true) = false → ∀ e, E e { s with log := s.log ++ [.program false] }) :
    wp U (programNew h stem) Q E s := by
  simp only [programNew, wp_bind, wp_respond]
  cases ht : (h.device s.log.length).thrown with
  | some e => exact hfail (by simp only [Host.permits, ht]; rfl) e
  | none =>
    cases hk : (h.device s.log.length).kernels.find? fun k => "MLIR_AIE".toList.isPrefixOf k.toList with
    | none => exact hfail (by simp only [Host.permits, ht, hk]; rfl) _
    | some k =>
      cases hi : (h.device s.log.length).instsBytes with
      | none => exact hfail (by simp only [Host.permits, ht, hk, hi]; rfl) _
      | some n =>
        by_cases h4 : n % 4 = 0
        · simp only [h4, ne_eq, not_true_eq_false, if_false, wp_bind, wp_logEvent, wp_pure]
          refine hok ?_ _
          rw [Host.permits, ht, hk, hi, Option.any_some, h4]
          rfl
        · simp only [ne_eq, h4, not_false_eq_true, if_true, wp_failWith]
          refine hfail ?_ _
          rw [Host.permits, ht, hk, hi, Option.any_some, beq_false_of_ne h4]
          rfl

/-- The program of the shim. -/
theorem follows_programFor : Follows (tracing h key) (programScript h s) (programFor h h.singleStem) s := by
  unfold programFor programScript
  by_cases hm : h.singleStem ∈ s.gPrograms
  · rw [if_pos hm]
    unfold Follows
    rw [wp_bind, wp_get, if_pos hm]
    exact ⟨rfl, (tracing h key).after_nil s⟩
  · rw [if_neg hm]
    apply Follows.single
    rw [wp_bind, wp_get, if_neg hm, wp_bind]
    refine wp_programNew_permits (fun hpermit p => ?_) fun hpermit e => ?_
    · simp only [wp_modify, Table.emplace, if_neg hm]
      refine ⟨hpermit, counted_one _ (fun _ hm => (AList.mem_insert _).mpr (Or.inr hm)) (by decide) (by decide) fun _ => ?_⟩
      exact (AList.mem_insert _).mpr (Or.inl rfl)
    · exact ⟨hpermit, counted_uncounted s.gPrograms (fun _ hm => hm) rfl⟩

/-- One round of the chunk loop: its slab is built, uploaded and counted. -/
theorem follows_uploadStep (src0 : Buffer UInt8) (K N nBegin kBegin : Nat) (slab : Buffer Int8)
    (chunks : List (Buffer Int8)) :
    Follows (tracing h key) [.upload true] (do
      let slab ← ofOption (buildBKn src0 K N nBegin kBegin slab)
      let w ← upload h slab
      modify fun s => { s with gResidentBytes := s.gResidentBytes + kKChunk * kNChunk }
      pure (slab, chunks ++ [w])) s := by
  refine Follows.bind_nil (.ofOption _) fun slab s' _ => .single ?_
  simp only [upload, wp_bind, wp_respond, tracing, Host.permits]
  cases ht : (h.device s'.log.length).thrown with
  | some e => exact ⟨rfl, counted_uncounted s'.gPrograms (fun _ hm => hm) rfl⟩
  | none =>
    rw [wp_bind]
    cases (Buffer.replicate (kKChunk * kNChunk) 0).copy 0 slab 0 (kKChunk * kNChunk) with
    | none => exact trivial
    | some bo => exact ⟨rfl, counted_upload⟩

/-- A flush. -/
theorem follows_syncA : Follows (tracing h key) [.syncA true] (syncA h stem) s := by
  apply Follows.single
  simp only [syncA, wp_bind, wp_respond, tracing, Host.permits]
  cases ht : (h.device s.log.length).thrown with
  | some e =>
    rw [wp_bind]
    refine wp_modifyProgram_any ?_
    intro t hmono
    exact ⟨rfl, counted_uncounted t hmono rfl⟩
  | none =>
    rw [wp_bind]
    refine wp_modifyProgram_any ?_
    intro t hmono
    exact ⟨rfl, counted_uncounted t hmono rfl⟩

/-- Taking the result of a dispatch asks nothing of the device. -/
theorem follows_takeResult (key : Nat × Nat) (c : Call) (res : Resident) (t0 rows nOff nKeep : Nat) (part : Buffer Int32) :
    Follows (tracing h key) [] ((do
      let s ← get
      let p ← ofOption (s.gPrograms.lookup h.singleStem)
      if res.plan.kChunks = 1 then do
        let gAcc ← ofOption (copyOut c.N t0 rows nOff nKeep p.boC s.gAcc)
        modify fun s => { s with gAcc := gAcc }
        pure part
      else ofOption (addPartial c.N rows nOff nKeep p.boC part)) : ShimM (Buffer Int32)) s := by
  refine Follows.getBind (.bind_nil (.ofOption _) fun p s' _ => ?_)
  split
  · refine .bind_nil (.ofOption _) fun gAcc s'' _ => .bind_nil (.modify ?_) fun _ _ _ => .pure part
    exact counted_none rfl rfl rfl rfl fun _ hm => hm
  · exact .ofOption _

/-- One round of the dispatch loop. -/
theorem follows_accumulateChunk (c : Call) (res : Resident) (t0 rows kc nc : Nat) (part : Buffer Int32) :
    Follows (tracing h (c.K, c.N)) [.dispatch true] (accumulateChunk h c res t0 rows kc nc part) s := by
  refine Follows.bind_nil (.ofOption _) fun w s' _ => .single ?_
  unfold runMappedPresynced
  rw [wp_bind, wp_bind, wp_respond]
  simp only [tracing, Host.permits]
  cases ht : (h.device s'.log.length).thrown with
  | some e =>
    rw [wp_bind]
    refine wp_modifyProgram_any ?_
    intro t hmono
    exact ⟨rfl, counted_uncounted t hmono rfl⟩
  | none =>
    cases he : (h.device s'.log.length).ertState with
    | other code =>
      rw [wp_bind]
      refine wp_modifyProgram_any ?_
      intro t hmono
      exact ⟨rfl, counted_uncounted t hmono rfl⟩
    | completed =>
      rw [wp_bind]
      refine wp_modifyProgram_any ?_
      intro t hmono
      rw [wp_bind, wp_modify, wp_logEvent, wp_bind, wp_modify]
      refine wp_mono (follows_takeResult (c.K, c.N) c res t0 rows (nc * kNChunk) (min kNChunk (c.N - nc * kNChunk)) part) ?_ ?_ id
      · rintro part' s'' ⟨-, hafter⟩
        exact ⟨rfl, (tracing h (c.K, c.N)).after_append (counted_dispatch t hmono) hafter⟩
      · rintro e s'' ⟨hstop, -⟩
        exact absurd hstop (by simp)

/-- One K slice of a token tile. -/
theorem follows_accumulateSlice (c : Call) (res : Resident) (t0 rows kc : Nat) (part : Buffer Int32) :
    Follows (tracing h (c.K, c.N)) (sliceScript res.plan) (accumulateSlice h c res t0 rows kc part) s := by
  have hloop : (List.replicate res.plan.nChunks [Event.dispatch true]).flatten =
      List.replicate res.plan.nChunks (.dispatch true) := by
    rw [List.flatten_replicate_singleton]
  refine Follows.bind_nil ?_ fun _ s' _ => ?_
  · refine wp_modifyProgram_any fun t hmono => ⟨rfl, ?_⟩
    exact counted_none rfl rfl rfl rfl hmono
  · rw [sliceScript, ← hloop]
    exact follows_syncA.bind fun _ _ _ => .forRange fun nc part _ => follows_accumulateChunk c res t0 rows kc nc part

/-- One token tile. -/
theorem follows_accumulateTile (c : Call) (res : Resident) (t0 : Nat) (part : Buffer Int32) :
    Follows (tracing h (c.K, c.N)) (List.replicate res.plan.kChunks (sliceScript res.plan)).flatten
      (accumulateTile h c res t0 part) s := by
  have hslices : ∀ part s, Follows (tracing h (c.K, c.N)) (List.replicate res.plan.kChunks (sliceScript res.plan)).flatten
      (forRange res.plan.kChunks part (accumulateSlice h c res t0 (min kMTile (c.T - t0)))) s :=
    fun part s => .forRange fun kc part _ => follows_accumulateSlice c res t0 _ kc part
  unfold accumulateTile
  split
  · refine Follows.bind_nil (.ofOption _) fun part s' _ => .bind_pure (hslices part s') ?_
    intro part s''
    refine Follows.getBind (.bind_nil (.ofOption _) fun gAcc _ _ => .bind_nil (.modify ?_) fun _ _ _ => .pure part)
    exact counted_none rfl rfl rfl rfl fun _ hm => hm
  · exact Follows.bind_nil (.pure _) fun part s' _ => .bind_pure (hslices part s') fun part s'' => .pure part

/-- All token tiles. -/
theorem follows_accumulateTiles (c : Call) (res : Resident) :
    Follows (tracing h (c.K, c.N)) (tilesScript res.plan c.T) (accumulateTiles h c res) s :=
  .bind_pure (.forRange fun _ part _ => follows_accumulateTile c res _ part) fun _ _ => .pure _

/-- The chunk loop of `get_resident`. -/
theorem follows_uploadChunks (src0 : Buffer UInt8) (K N : Nat) (plan : ShapePlan) :
    Follows (tracing h key) (List.replicate (plan.nChunks * plan.kChunks) (.upload true))
      (uploadChunks h src0 K N plan) s := by
  have hloop : List.replicate (plan.nChunks * plan.kChunks) (Event.upload true) =
      (List.replicate plan.nChunks (List.replicate plan.kChunks [Event.upload true]).flatten).flatten := by
    rw [List.flatten_replicate_singleton, List.flatten_replicate_replicate]
  rw [hloop]
  exact Follows.bind_pure (.forRange fun _ _ _ => .forRange fun _ _ _ => follows_uploadStep ..) fun _ _ => .pure _

/-- Building a tensor: it returns the entry that has been made, or throws where the script stops. -/
theorem wp_getResident_build (key : Nat × Nat) (hgate : c.gate s = .build plan) :
    Follows (tracing h key) (programScript h s ++ buildScript c.src0 plan) (getResident h c.src0 c.packed c.K c.N) s ∧
      wp True (getResident h c.src0 c.packed c.K c.N) (fun r _ => ∃ res, r = some res ∧ res.plan = plan)
        (fun _ _ => True) s := by
  obtain ⟨hf, hr, hp⟩ := Call.of_gate_build hgate
  unfold getResident
  constructor
  · apply Follows.getBind
    rw [if_neg hf, hr, hp]
    refine Follows.bind follows_programFor fun _ _ _ => (follows_repack _).bind fun _ _ _ =>
      .bind_pure (follows_uploadChunks ..) fun chunks _ => .bind_nil (.modify ?_) fun _ _ _ => .pure _
    exact counted_none rfl rfl rfl rfl fun _ hm => hm
  · rw [wp_bind, wp_get, if_neg hf, hr, hp]
    exact wp_last fun _ _ => wp_last fun _ _ => wp_last fun _ _ => wp_last fun _ _ => ⟨_, rfl, rfl⟩

/-- Building a tensor, with a failure recorded. -/
theorem wp_getResidentLogged_build (hgate : c.gate s = .build plan) :
    wp True (getResidentLogged h c.src0 c.packed c.K c.N)
      (fun r s' => (r = none ∨ ∃ res, r = some res ∧ res.plan = plan) ∧
        completes h.permits s.log.length (programScript h s ++ buildScript c.src0 plan) = r.isSome ∧
        Counted h.singleStem (c.K, c.N)
          (play h.permits Event.failed s.log.length (programScript h s ++ buildScript c.src0 plan)) s s')
      (fun _ _ => False) s := by
  obtain ⟨hf, -, -⟩ := Call.of_gate_build hgate
  obtain ⟨hfollows, hresult⟩ := wp_getResident_build (c.K, c.N) (h := h) hgate
  unfold getResidentLogged
  rw [wp_bind, wp_get, if_neg hf, wp_catchAll, wp_bind]
  refine wp_mono (wp_and hfollows.played hresult) ?_ ?_ fun _ => trivial
  · rintro r s' ⟨⟨hdone, hcounted⟩, res, rfl, hplan⟩
    exact ⟨Or.inr ⟨res, rfl, hplan⟩, hdone, hcounted⟩
  · rintro e s' ⟨⟨hstop, hcounted⟩, -⟩
    rw [wp_bind, wp_modify, wp_pure]
    refine ⟨Or.inl rfl, hstop, ?_⟩
    have hnone : Counted h.singleStem (c.K, c.N) [] s' { s' with gFailed := Table.emplace s'.gFailed c.src0 e.reason } :=
      counted_none rfl rfl rfl rfl fun _ hm => hm
    have hafter := (tracing h (c.K, c.N)).after_append hcounted hnone
    rwa [List.append_nil] at hafter

/-- A call that is refused before the device is asked is recorded against its tensor. -/
theorem wp_getResidentLogged_refused (hgate : c.gate s = .refused) :
    wp True (getResidentLogged h c.src0 c.packed c.K c.N)
      (fun r s' => r = none ∧ Counted h.singleStem (c.K, c.N) [] s s' ∧ c.src0 ∈ s'.gFailed) (fun _ _ => False) s := by
  unfold Call.gate at hgate
  unfold getResidentLogged
  rw [wp_bind, wp_get]
  by_cases hf : c.src0 ∈ s.gFailed
  · rw [if_pos hf, wp_pure]
    exact ⟨rfl, counted_none rfl rfl rfl rfl fun _ hm => hm, hf⟩
  · -- the refusal is recorded
    have hrecord : wp True (do
        modify fun s => { s with gFailed := Table.emplace s.gFailed c.src0 "plan/shape rejected" }
        pure none : ShimM (Option Resident))
        (fun r s' => r = none ∧ Counted h.singleStem (c.K, c.N) [] s s' ∧ c.src0 ∈ s'.gFailed) (fun _ _ => False) s := by
      rw [wp_bind, wp_modify, wp_pure, Table.emplace, if_neg hf]
      exact ⟨rfl, counted_none rfl rfl rfl rfl fun _ hm => hm, (AList.mem_insert _).mpr (Or.inl rfl)⟩
    rw [if_neg hf] at hgate ⊢
    rw [wp_catchAll, wp_bind, getResident, wp_bind, wp_get, if_neg hf]
    cases hr : s.gResident.lookup c.src0 with
    | some res =>
      rw [hr] at hgate
      simp only at hgate ⊢
      split at hgate
      · next hne =>
        rw [if_pos hne, wp_pure]
        exact wp_mono hrecord (fun _ _ h => h) (fun _ _ => False.elim) id
      · exact absurd hgate (by simp)
    | none =>
      rw [hr] at hgate
      cases hp : planFor c.K c.N with
      | none => exact wp_mono hrecord (fun _ _ h => h) (fun _ _ => False.elim) id
      | some plan =>
        rw [hp] at hgate
        exact absurd hgate (by simp)

/-- A tensor that is resident is found. -/
theorem wp_getResidentLogged_hit (hgate : c.gate s = .hit plan) :
    wp True (getResidentLogged h c.src0 c.packed c.K c.N)
      (fun r s' => (∃ res, r = some res ∧ res.plan = plan) ∧ s' = s) (fun _ _ => False) s := by
  obtain ⟨hf, res, hr, hK, hN, hplan⟩ := Call.of_gate_hit hgate
  have hsame : ¬(res.K ≠ c.K ∨ res.N ≠ c.N) := by omega
  unfold getResidentLogged getResident
  rw [wp_bind, wp_get, if_neg hf, wp_catchAll, wp_bind, wp_bind, wp_get, if_neg hf, hr]
  simp only [if_neg hsame]
  exact ⟨⟨res, rfl, hplan⟩, rfl⟩

/-! ## A whole call -/

/-- Serving a call from its resident entry. -/
theorem follows_serve (res : Resident) :
    Follows (tracing h (c.K, c.N)) (programScript h s ++ tilesScript res.plan c.T) (do
      programFor h h.singleStem
      modify (growAcc c)
      accumulateTiles h c res
      pure true) s := by
  refine Follows.bind follows_programFor fun _ s' _ => .bind_nil (.modify ?_) fun _ s'' _ =>
    .bind_pure (follows_accumulateTiles c res) fun _ _ => .pure true
  exact counted_none rfl rfl rfl rfl fun _ hm => hm

/-- How a call ends: it has performed its script up to the first operation that the device does not let through, and it
succeeds exactly when it is not refused and there is no such operation. -/
structure Scripted (h : Host) (c : Call) (s : Shim) (ret : Bool) (s' : Shim) : Prop where
  ret_eq : ret = (c.gate s != .refused && completes h.permits s.log.length (c.script h s))
  counted : Counted h.singleStem (c.K, c.N) (play h.permits Event.failed s.log.length (c.script h s)) s s'

/-- Serving a call after the operations `es`, which have gone through. -/
theorem wp_serve_scripted (es : List Event) (res : Resident) {s' : Shim} (hgate : c.gate s ≠ .refused)
    (hscript : c.script h s = es ++ (programScript h s' ++ tilesScript res.plan c.T))
    (hdone : completes h.permits s.log.length es = true) (hcounted : Counted h.singleStem (c.K, c.N) es s s') :
    wp True (do
      programFor h h.singleStem
      modify (growAcc c)
      accumulateTiles h c res
      pure true) (Scripted h c s) (fun _ s'' => Scripted h c s false s'') s' := by
  have hlen : s'.log.length = s.log.length + es.length := by rw [hcounted.log, List.length_append]
  have hret : wp True (do
      programFor h h.singleStem
      modify (growAcc c)
      accumulateTiles h c res
      pure true : ShimM Bool) (fun ret _ => ret = true) (fun _ _ => True) s' :=
    wp_last fun _ _ => wp_last fun _ _ => wp_last fun _ _ => rfl
  have hne : (c.gate s != .refused) = true := by simpa using hgate
  refine wp_mono (wp_and (follows_serve res).played hret) ?_ ?_ fun _ => trivial
  · rintro ret s'' ⟨⟨hgo, hserved⟩, rfl⟩
    constructor
    · rw [hscript, completes_append, hdone, ← hlen, hne]
      exact hgo.symm
    · rw [hscript, play_append hdone, ← hlen]
      exact (tracing h (c.K, c.N)).after_append hcounted hserved
  · rintro e s'' ⟨⟨hstop, hserved⟩, -⟩
    constructor
    · rw [hscript, completes_append, hdone, ← hlen, hne]
      exact hstop.symm
    · rw [hscript, play_append hdone, ← hlen]
      exact (tracing h (c.K, c.N)).after_append hcounted hserved

/-- Every call ends as its script says. -/
theorem wp_bitnetXdnaAccumulate_script :
    wp True (bitnetXdnaAccumulate h c) (Scripted h c s) (fun _ _ => False) s := by
  unfold bitnetXdnaAccumulate
  rw [wp_catchAll, wp_bind]
  cases hgate : c.gate s with
  | refused =>
    refine wp_mono (wp_getResidentLogged_refused hgate) ?_ (fun _ _ => False.elim) id
    rintro r s' ⟨rfl, hcounted, -⟩
    exact ⟨by rw [hgate]; rfl, by rw [Call.script, hgate]; exact hcounted⟩
  | hit plan =>
    refine wp_mono (wp_getResidentLogged_hit hgate) ?_ (fun _ _ => False.elim) id
    rintro r s' ⟨⟨res, rfl, rfl⟩, rfl⟩
    exact wp_serve_scripted [] res (by rw [hgate]; nofun) (by rw [Call.script, hgate]; rfl) rfl
      ((tracing h _).after_nil s')
  | build plan =>
    refine wp_mono (wp_getResidentLogged_build hgate) ?_ (fun _ _ => False.elim) id
    rintro r s' ⟨rfl | ⟨res, rfl, rfl⟩, hdone, hcounted⟩
    · rw [Option.isSome_none] at hdone
      constructor
      · rw [Call.script, hgate, completes_append, hdone, Bool.false_and, Bool.and_false]
      · rw [Call.script, hgate, play_append_of_not hdone]
        exact hcounted
    · rw [Option.isSome_some] at hdone
      rw [play_of_completes hdone] at hcounted
      -- the program is there by now
      have hprogram : programScript h s' = [] := by
        rw [programScript, if_pos]
        by_cases hm : h.singleStem ∈ s.gPrograms
        · exact hcounted.programs _ hm
        · refine hcounted.made (List.mem_append_left _ ?_)
          rw [programScript, if_neg hm]
          exact List.mem_singleton.mpr rfl
      refine wp_serve_scripted _ res (by rw [hgate]; nofun) ?_ hdone hcounted
      rw [Call.script, hgate, hprogram, List.nil_append]

/-- A call of a history ends as its script says. -/
theorem CallOf.scripted {cs : List Call} {r : Record Shim Call Bool} (hr : CallOf h cs r) :
    Scripted h r.input r.before r.output r.after := by
  have hwp := wp_bitnetXdnaAccumulate_script (h := h) (c := r.input) (s := r.before)
  have hrun := hr.run
  unfold accumulateStep at hrun
  unfold wp at hwp
  cases hout : bitnetXdnaAccumulate h r.input r.before with
  | ok ret s' =>
    rw [hout] at hrun hwp
    obtain ⟨rfl, rfl⟩ := Prod.mk.inj (Option.some.inj hrun)
    exact hwp
  | thrown e s' =>
    rw [hout] at hrun
    exact absurd hrun (by simp)
  | undefined =>
    rw [hout] at hrun
    exact absurd hrun (by simp)

end Operations

end BitnetXdna
