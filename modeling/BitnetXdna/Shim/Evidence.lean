import BitnetXdna.Shim.Uploads

/-!
# The evidence of the dispatch counters

The total and the per-shape counters of dispatches are advanced in different functions, on either side of a call that can
throw. Over every history of calls and counter resets they advance together, a call that succeeds counts the dispatches of its
shape and flushes the activations once for each K slice of each token tile, and a call that stops at a dispatch counts the
ones before it (`dispatch_evidence_exact`).
-/

namespace BitnetXdna

open Exec

/-- `bitnet_xdna_reset_counters`: the total is reset, the per-shape counters are not. -/
def bitnetXdnaResetCounters (s : Shim) : Shim := { s with gDispatches := 0 }

/-- A call of the shim, or a reset of its counters. -/
inductive Request where
  | accumulate (c : Call)
  | reset

/-- One request. -/
def requestStep (h : Host) (s : Shim) : Request → Option (Bool × Shim)
  | .accumulate c => accumulateStep h s c
  | .reset => some (true, bitnetXdnaResetCounters s)

/-- The accumulate calls among some requests. -/
def requestCalls (qs : List Request) : List Call :=
  qs.filterMap fun
    | .accumulate c => some c
    | .reset => none

/-- What a request of a history does: a call is one of a history of calls, and a reset resets. -/
inductive RequestOf (h : Host) (qs : List Request) : Record Shim Request Bool → Prop where
  | accumulate {c : Call} {s s' : Shim} {ret : Bool} (hr : CallOf h (requestCalls qs) ⟨s, c, ret, s'⟩) :
      RequestOf h qs ⟨s, .accumulate c, ret, s'⟩
  | reset (s : Shim) : RequestOf h qs ⟨s, .reset, true, bitnetXdnaResetCounters s⟩

/-- Every history of requests is defined. -/
theorem request_history (h : Host) (qs : List Request) (hvalid : ∀ c, .accumulate c ∈ qs → c.Valid) :
    ∃ rs, history (requestStep h) .init qs = some rs ∧ rs.map Record.input = qs ∧ ∀ r ∈ rs, RequestOf h qs r := by
  refine history_invariant _ _ (fun past => ShimInv (requestCalls past)) (RequestOf h qs) .init ?_
  intro past q rest s hall hI
  cases q with
  | reset =>
    refine ⟨true, bitnetXdnaResetCounters s, rfl, ?_, .reset s⟩
    have hcalls : requestCalls (past ++ [.reset]) = requestCalls past := by simp [requestCalls]
    rw [hcalls]
    exact ⟨hI.sized, hI.holds⟩
  | accumulate c =>
    have hv := hvalid c (by simp [hall])
    have hcalls : requestCalls (past ++ [.accumulate c]) = requestCalls past ++ [c] := by simp [requestCalls]
    have hmem : ∀ c' ∈ requestCalls past ++ [c], c' ∈ requestCalls qs := by
      intro c' hc'
      rw [hall, List.append_cons, requestCalls, List.filterMap_append, ← requestCalls, hcalls]
      exact List.mem_append_left _ hc'
    obtain ⟨ret, s', hrun, -, hI', -, -⟩ := accumulateStep_spec (h := h) hv hI
    rw [hcalls]
    exact ⟨ret, s', hrun, hI', .accumulate ⟨⟨_, hmem, hI⟩, hv, hrun⟩⟩

/-! ## What one call counts -/

/-- A dispatch, completed or not. -/
def Event.isDispatch : Event → Bool
  | .dispatch _ => true
  | _ => false

/-- A K slice dispatches every N chunk. -/
theorem count_dispatch_sliceScript (plan : ShapePlan) : (sliceScript plan).count (.dispatch true) = plan.nChunks := by
  have hne : Event.syncA true ≠ .dispatch true := nofun
  rw [sliceScript, List.count_cons_of_ne hne, List.count_replicate_self]

/-- And is flushed once. -/
theorem count_syncA_sliceScript (plan : ShapePlan) : (sliceScript plan).count (.syncA true) = 1 := by
  have hdispatches : (List.replicate plan.nChunks (Event.dispatch true)).count (.syncA true) = 0 :=
    List.count_eq_zero_of_not_mem fun hm => absurd (List.eq_of_mem_replicate hm) nofun
  rw [sliceScript, List.count_cons_self, hdispatches]

section Call

variable {h : Host} {cs : List Call} {r : Record Shim Call Bool} {plan : ShapePlan}

/-- A call that is let through is served with the plan of its own shape. -/
theorem CallOf.plan_eq (hr : CallOf h cs r)
    (hgate : r.input.gate r.before = .hit plan ∨ r.input.gate r.before = .build plan) :
    plan = ⟨ceilDiv r.input.N kNChunk, ceilDiv r.input.K kKChunk⟩ := by
  rcases hgate with hgate | hgate
  · obtain ⟨-, res, hres, hK, hN, rfl⟩ := Call.of_gate_hit hgate
    obtain ⟨past, -, hI⟩ := hr.inv
    obtain ⟨c, -, -, hK', hN', hserves⟩ := hI.holds _ res hres
    obtain ⟨-, -, hplan⟩ := planFor_eq_some hserves.plan
    rw [hplan, ← hK', ← hN', hK, hN]
  · obtain ⟨-, -, hplan⟩ := Call.of_gate_build hgate
    exact (planFor_eq_some hplan).2.2

/-- What the script of a call that is let through has of an operation of the loops. -/
theorem CallOf.count_script (hr : CallOf h cs r) (hgate : r.input.gate r.before ≠ .refused) {e : Event}
    (he : e = .syncA true ∨ e = .dispatch true) :
    (r.input.script h r.before).count e =
      ceilDiv r.input.T kMTile * (ceilDiv r.input.K kKChunk *
        (sliceScript ⟨ceilDiv r.input.N kNChunk, ceilDiv r.input.K kKChunk⟩).count e) := by
  have hprogram : (programScript h r.before).count e = 0 :=
    List.count_eq_zero_of_not_mem fun hm => by rcases he with rfl | rfl <;> exact absurd (mem_programScript hm) nofun
  have hbuild : ∀ plan, (buildScript r.input.src0 plan).count e = 0 := fun plan =>
    List.count_eq_zero_of_not_mem fun hm => by
      rcases mem_buildScript hm with rfl | rfl <;> rcases he with he | he <;> exact absurd he nofun
  unfold Call.script
  cases hg : r.input.gate r.before with
  | refused => exact absurd hg hgate
  | hit plan =>
    rw [← hr.plan_eq (Or.inl hg)]
    simp only [List.count_append, hprogram, count_tilesScript, Nat.zero_add]
    rw [hr.plan_eq (Or.inl hg)]
  | build plan =>
    rw [← hr.plan_eq (Or.inr hg)]
    simp only [List.count_append, hprogram, hbuild, count_tilesScript, Nat.zero_add]
    rw [hr.plan_eq (Or.inr hg)]

/-- No operation of a script is a failed dispatch. -/
theorem not_mem_script (h : Host) (c : Call) (s : Shim) : .dispatch false ∉ c.script h s := by
  intro hm
  unfold Call.script at hm
  have hparts : ∀ plan, .dispatch false ∉ programScript h s ∧ .dispatch false ∉ tilesScript plan c.T ∧
      .dispatch false ∉ buildScript c.src0 plan := by
    intro plan
    refine ⟨fun hm => absurd (mem_programScript hm) nofun, fun hm => ?_, fun hm => ?_⟩
    · rcases mem_tilesScript hm with h | h <;> exact absurd h nofun
    · rcases mem_buildScript hm with h | h <;> exact absurd h nofun
  cases hgate : c.gate s with
  | refused =>
    rw [hgate] at hm
    exact absurd hm (by simp)
  | hit plan =>
    rw [hgate] at hm
    obtain ⟨hprogram, htiles, -⟩ := hparts plan
    rcases List.mem_append.mp hm with hm | hm
    · exact hprogram hm
    · exact htiles hm
  | build plan =>
    rw [hgate] at hm
    obtain ⟨hprogram, htiles, hbuild⟩ := hparts plan
    rcases List.mem_append.mp hm with hm | hm
    · rcases List.mem_append.mp hm with hm | hm
      · exact hprogram hm
      · exact hbuild hm
    · exact htiles hm

/-- Where the failed dispatch of a log that ends there is dispatch `j`, counted from zero, `j` dispatches have completed. -/
theorem count_of_failed_dispatch {l : List Event} {x : Event} {j : Nat} (hl : .dispatch false ∉ l)
    (hj : ((l ++ [x]).filter Event.isDispatch)[j]? = some (.dispatch false)) : (l ++ [x]).count (.dispatch true) = j := by
  have hcompleted : (l.filter Event.isDispatch).length = l.count (.dispatch true) := by
    rw [List.count_eq_length_filter]
    refine congrArg List.length (List.filter_congr fun e he => ?_)
    cases e with
    | dispatch ok =>
      cases ok with
      | false => exact absurd he hl
      | true => rfl
    | program | repack | upload | syncA => rfl
  rw [List.filter_append, List.getElem?_append] at hj
  split at hj
  · -- the failed dispatch would be one of `l`
    exact absurd (List.mem_of_mem_filter (List.mem_of_getElem? hj)) hl
  · next hge =>
    have hmem := List.mem_of_getElem? hj
    obtain rfl := List.mem_singleton.mp (List.mem_of_mem_filter hmem)
    have hzero : j - (l.filter Event.isDispatch).length = 0 := by
      have hlt := (List.getElem?_eq_some_iff.mp hj).1
      have hone : ([Event.dispatch false].filter Event.isDispatch).length = 1 := rfl
      omega
    rw [List.count_append, ← hcompleted, List.count_singleton, if_neg (by decide)]
    omega

/-- A call that succeeds has performed its whole script. -/
theorem CallOf.events_of_success (hr : CallOf h cs r) (hret : r.output = true) :
    r.input.gate r.before ≠ .refused ∧ eventsBetween r.before r.after = r.input.script h r.before := by
  have hs := hr.scripted
  have heq := hs.ret_eq
  rw [hret, eq_comm, Bool.and_eq_true] at heq
  refine ⟨by simpa using heq.1, ?_⟩
  rw [hs.events, play_of_completes heq.2]

/-- A call that stops at a dispatch fails, and has completed the dispatches before it. -/
theorem CallOf.events_of_failure (hr : CallOf h cs r) {j : Nat}
    (hj : ((eventsBetween r.before r.after).filter Event.isDispatch)[j]? = some (.dispatch false)) :
    r.output = false ∧ (eventsBetween r.before r.after).count (.dispatch true) = j := by
  have hs := hr.scripted
  have hno := not_mem_script h r.input r.before
  rw [hs.events] at hj ⊢
  cases hdone : completes h.permits r.before.log.length (r.input.script h r.before) with
  | true =>
    rw [play_of_completes hdone] at hj
    exact absurd (List.mem_of_mem_filter (List.mem_of_getElem? hj)) hno
  | false =>
    obtain ⟨i, e, -, -, -, hplay⟩ := play_of_stops Event.failed hdone
    rw [hplay] at hj ⊢
    refine ⟨by rw [hs.ret_eq, hdone, Bool.and_false], ?_⟩
    exact count_of_failed_dispatch (fun hm => hno (List.mem_of_mem_take hm)) hj

end Call

/-- Over some calls the total and the per-shape counters advance together. -/
theorem counters_together {h : Host} {qs : List Request} {mid post : List (Record Shim Request Bool)} {s : Shim}
    {is : List Request} (hrun : history (requestStep h) s is = some (mid ++ post))
    (hmid : ∀ r ∈ mid, RequestOf h qs r ∧ r.input ≠ .reset) :
    (finish s mid).gDispatches + s.shapeTotal = s.gDispatches + (finish s mid).shapeTotal := by
  induction mid generalizing s is with
  | nil => rfl
  | cons r mid ih =>
    obtain ⟨rfl, -, is', hrun'⟩ := history_cons hrun
    have hrest := ih hrun' fun r hr => hmid r (List.mem_cons_of_mem _ hr)
    obtain ⟨hreq, hne⟩ := hmid r List.mem_cons_self
    cases hreq with
    | reset s => exact absurd rfl hne
    | accumulate hr =>
      have hdispatches := hr.scripted.counted.gDispatches
      have htotal := hr.scripted.counted.shapeTotal
      simp only [finish_cons] at hrest hdispatches htotal ⊢
      omega

/-- In every history of calls and counter resets, on every device: between two resets the total and the sum of the per-shape
counters increase by the same amount. A call that succeeds adds the dispatches of its own shape to its own counter and flushes
the activations once for each K slice of each token tile; and a call whose dispatch `j`, counted from zero, fails adds `j`. -/
theorem dispatch_evidence_exact (h : Host) (qs : List Request) (hvalid : ∀ c, .accumulate c ∈ qs → c.Valid) :
    ∃ rs, history (requestStep h) .init qs = some rs ∧ rs.map Record.input = qs ∧
      (∀ pre mid post, rs = pre ++ mid ++ post → (∀ r ∈ mid, r.input ≠ .reset) →
        (finish (finish .init pre) mid).gDispatches + (finish .init pre).shapeTotal =
          (finish .init pre).gDispatches + (finish (finish .init pre) mid).shapeTotal) ∧
      ∀ r ∈ rs, ∀ c, r.input = .accumulate c →
        (r.output = true →
          r.after.gDispatches = r.before.gDispatches +
            ceilDiv c.T kMTile * ceilDiv c.N kNChunk * ceilDiv c.K kKChunk ∧
          (∀ key, r.after.dispatchesOf key = r.before.dispatchesOf key +
            if key = (c.K, c.N) then ceilDiv c.T kMTile * ceilDiv c.N kNChunk * ceilDiv c.K kKChunk else 0) ∧
          (eventsBetween r.before r.after).count (.syncA true) = ceilDiv c.T kMTile * ceilDiv c.K kKChunk) ∧
        ∀ j, ((eventsBetween r.before r.after).filter Event.isDispatch)[j]? = some (.dispatch false) →
          r.output = false ∧ r.after.gDispatches = r.before.gDispatches + j ∧
          ∀ key, r.after.dispatchesOf key = r.before.dispatchesOf key + if key = (c.K, c.N) then j else 0 := by
  obtain ⟨rs, hrun, hinput, hreqs⟩ := request_history h qs hvalid
  refine ⟨rs, hrun, hinput, ?_, ?_⟩
  · intro pre mid post hrs hmid
    have hmem : ∀ r ∈ mid, r ∈ rs := by
      intro r hr
      rw [hrs]
      exact List.mem_append_left _ (List.mem_append_right _ hr)
    rw [hrs, List.append_assoc] at hrun
    obtain ⟨is, hafter⟩ := history_drop hrun
    exact counters_together hafter fun r hr => ⟨hreqs r (hmem r hr), hmid r hr⟩
  · intro r hr c hc
    have hreq := hreqs r hr
    cases hreq with
    | reset s => exact absurd hc nofun
    | accumulate hcall =>
      obtain rfl := Request.accumulate.inj hc
      have hcounted := hcall.scripted.counted
      rw [← hcall.scripted.events] at hcounted
      constructor
      · intro hret
        obtain ⟨hgate, hevents⟩ := hcall.events_of_success hret
        have hdispatch := hcall.count_script hgate (Or.inr rfl)
        have hsync := hcall.count_script hgate (Or.inl rfl)
        rw [← hevents, count_dispatch_sliceScript] at hdispatch
        rw [← hevents, count_syncA_sliceScript, Nat.mul_one] at hsync
        have hsame : ∀ t k n : Nat, t * (k * n) = t * n * k := fun t k n => by ring
        rw [hsame] at hdispatch
        exact ⟨by rw [hcounted.gDispatches, hdispatch], fun key => by rw [hcounted.dispatchesOf, hdispatch], hsync⟩
      · intro j hj
        obtain ⟨hret, hcount⟩ := hcall.events_of_failure hj
        exact ⟨hret, by rw [hcounted.gDispatches, hcount], fun key => by rw [hcounted.dispatchesOf, hcount]⟩

/-- A host whose device does not complete the command of its twelfth operation. -/
def Host.failsTwelfth : Host where
  artifacts := none
  device n := { Host.faultless.device n with ertState := if n = 11 then .other 5 else .completed }

/-- Two calls of three dispatches with a reset between them: the first counts all three, and the second fails at its second
dispatch and counts one. -/
theorem dispatch_evidence_exact_reset :
    ∃ rs, history (requestStep .failsTwelfth) .init
        [.accumulate (oneToken 0 2560 6912), .reset, .accumulate (oneToken 0 2560 6912)] = some rs ∧
      rs.map (fun r => (r.output, r.after.gDispatches, r.after.dispatchesOf (2560, 6912),
        (eventsBetween r.before r.after).count (.syncA true))) = [(true, 3, 3, 1), (true, 0, 3, 0), (false, 1, 4, 1)] := by
  have hv := oneToken_valid 0 2560 6912
  obtain ⟨rs, hrun, -, -, hcalls⟩ := dispatch_evidence_exact .failsTwelfth
    [.accumulate (oneToken 0 2560 6912), .reset, .accumulate (oneToken 0 2560 6912)] fun c hc => by
      simp only [List.mem_cons, List.not_mem_nil, or_false, Request.accumulate.injEq, reduceCtorEq, false_or, or_self] at hc
      exact hc ▸ hv
  -- the device lets the whole first call through
  obtain ⟨ret₁, s₁, hrun₁, hstep₁, hI₁, hexact₁, -⟩ := accumulateStep_spec (h := .failsTwelfth) hv ShimInv.init
  have hs₁ := scripted_of_run hv ShimInv.init hrun₁
  obtain rfl : ret₁ = true := hs₁.ret_eq.trans (by decide)
  -- the second finds its tensor resident and its program made
  have hI₂ : ShimInv [oneToken 0 2560 6912] (bitnetXdnaResetCounters s₁) := ⟨hI₁.sized, hI₁.holds⟩
  obtain ⟨ret₃, s₃, hrun₃, -⟩ := accumulateStep_spec (h := .failsTwelfth) hv hI₂
  have hs₃ := scripted_of_run hv hI₂ hrun₃
  have hserv : (oneToken 0 2560 6912).Servable s₁ :=
    hstep₁.servable ⟨by decide, by decide, fun _ hr => absurd hr (by simp [Shim.init])⟩ fun _ => ⟨rfl, rfl⟩
  have hgate : (oneToken 0 2560 6912).gate (bitnetXdnaResetCounters s₁) = .hit ⟨3, 1⟩ := by
    obtain ⟨res, hr, hK, hN, -⟩ := hexact₁ rfl
    obtain ⟨c, -, -, hK', hN', hserves⟩ := hI₁.holds _ res hr
    have hplan := hserves.plan
    rw [← hK', ← hN', hK, hN] at hplan
    calc (oneToken 0 2560 6912).gate (bitnetXdnaResetCounters s₁)
        = .hit res.plan := hserv.gate_of_resident hr
      _ = .hit ⟨3, 1⟩ := congrArg Gate.hit (Option.some.inj hplan).symm
  have hscript : (oneToken 0 2560 6912).script .failsTwelfth (bitnetXdnaResetCounters s₁) = tilesScript ⟨3, 1⟩ 1 := by
    have hmade : Host.failsTwelfth.singleStem ∈ (bitnetXdnaResetCounters s₁).gPrograms := hs₁.counted.made (by decide)
    rw [Call.script, hgate, programScript, if_pos hmade]
    rfl
  have hlog : (bitnetXdnaResetCounters s₁).log.length = 9 := by
    rw [show (bitnetXdnaResetCounters s₁).log = s₁.log from rfl, hs₁.counted.log]
    decide
  have hevents : eventsBetween (bitnetXdnaResetCounters s₁) s₃ = [.syncA true, .dispatch true, .dispatch false] := by
    rw [hs₃.events, hscript, hlog]
    decide
  have hq₁ : requestStep .failsTwelfth .init (.accumulate (oneToken 0 2560 6912)) = some (true, s₁) := hrun₁
  have hq₂ : requestStep .failsTwelfth s₁ .reset = some (true, bitnetXdnaResetCounters s₁) := rfl
  have hq₃ : requestStep .failsTwelfth (bitnetXdnaResetCounters s₁) (.accumulate (oneToken 0 2560 6912)) = some (ret₃, s₃) :=
    hrun₃
  have hnil : history (requestStep .failsTwelfth) s₃ [] = some [] := rfl
  have hall := history_of_step hq₁ (history_of_step hq₂ (history_of_step hq₃ hnil))
  rw [hrun, Option.some.injEq] at hall
  subst hall
  obtain ⟨htotal₁, hkey₁, hsync₁⟩ := (hcalls ⟨.init, .accumulate (oneToken 0 2560 6912), true, s₁⟩ (by simp) _ rfl).1 rfl
  obtain ⟨hret₃, htotal₃, hkey₃⟩ :=
    (hcalls ⟨bitnetXdnaResetCounters s₁, .accumulate (oneToken 0 2560 6912), ret₃, s₃⟩ (by simp) _ rfl).2 1
      (by rw [hevents]; rfl)
  have hcount : s₁.gDispatches = 3 ∧ s₁.dispatchesOf (2560, 6912) = 3 ∧
      (eventsBetween .init s₁).count (.syncA true) = 1 := ⟨htotal₁, hkey₁ (2560, 6912), hsync₁⟩
  have hsame : (bitnetXdnaResetCounters s₁).dispatchesOf (2560, 6912) = 3 := hcount.2.1
  have hquiet : eventsBetween s₁ (bitnetXdnaResetCounters s₁) = [] := List.drop_length
  have hlast : s₃.gDispatches = 1 ∧ s₃.dispatchesOf (2560, 6912) = 4 :=
    ⟨htotal₃, (hkey₃ (2560, 6912)).trans (by rw [hsame]; rfl)⟩
  refine ⟨_, hrun, ?_⟩
  obtain rfl : ret₃ = false := hret₃
  simp only [List.map_cons, List.map_nil, hcount, hsame, hlast, hquiet, hevents]
  rfl

end BitnetXdna
