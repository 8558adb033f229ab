import BitnetXdna.Ggml.PoolSteps

/-!
# All threads of the pool agree

The race of the first `bitnet_xdna_available` calls ends with one published answer (`Fresh.step`), and from then on the pool is
running. So the invariant holds in every interleaving, and with it what the patched block relies on (`pool_agrees`).
-/

namespace BitnetXdna
namespace Pool

variable {n : Nat} {Q : Type} [SplitArith Q]

/-! ## The first call -/

section Fresh

variable {env : Environ Q} {nodes : List Node} {av : Bool} {res : Nat → Bool} {s : State n Q} {i : Fin n}

/-- A thread outside the critical section goes on, while nothing is published. -/
theorem Fresh.moveOutside {p : Pc} (h : Fresh env s) (hmu : s.gMu ≠ some i) (hp : p = .enter ∨ p = .lock) :
    Fresh env (s.move i p []) := by
  refine ⟨h.fast, by simp [State.move, h.log], h.node, h.arrived, fun j hj => ?_, h.free, fun j hj => ?_⟩
  · by_cases hji : j = i
    · subst hji
      rw [show (s.move j p []).pc j = p from Function.update_self ..]
      exact hp
    · rw [show (s.move i p []).pc j = s.pc j from Function.update_of_ne hji ..]
      exact h.outside j hj
  · have hji : j ≠ i := by
      rintro rfl
      exact hmu hj
    rw [show (s.move i p []).pc j = s.pc j from Function.update_of_ne hji ..]
    exact h.inside j hj

/-- The thread that has the lock goes on in the critical section. -/
theorem Fresh.moveInside {p : Pc} {st : Option Bool} {c : Config Q} (h : Fresh env s) (hmu : s.gMu = some i)
    (hp : Initialising env { s with gState := st, config := c } p) :
    Fresh env ({ s with gState := st, config := c }.move i p []) := by
  refine ⟨h.fast, by simp [State.move, h.log], h.node, h.arrived, fun j hj => ?_, fun hfree => ?_, fun j hj => ?_⟩
  · have hji : j ≠ i := by
      rintro rfl
      exact hj hmu
    simp only [State.move, Function.update_of_ne hji]
    exact h.outside j hj
  · exact absurd (hmu.symm.trans hfree) (by simp)
  · obtain rfl : i = j := Option.some.inj (hmu.symm.trans hj)
    simp only [State.move, Function.update_self]
    cases p <;> exact hp

/-- A thread takes the lock. -/
theorem Fresh.take (h : Fresh env s) (hmu : s.gMu = none) : Fresh env ({ s with gMu := some i }.move i .critical []) := by
  refine ⟨h.fast, by simp [State.move, h.log], h.node, h.arrived, fun j hj => ?_, fun hfree => ?_, fun j hj => ?_⟩
  · have hji : j ≠ i := by
      rintro rfl
      exact hj rfl
    simp only [State.move, Function.update_of_ne hji]
    exact h.outside j (by simp [hmu])
  · exact absurd hfree (by simp [State.move])
  · obtain rfl : i = j := Option.some.inj hj
    simp only [State.move, Function.update_self]
    exact h.free hmu

/-- The answer is published: every other thread is still before the lock, and nothing has been done at any node. -/
theorem Fresh.publish (h : Fresh env s) (hlt : s.node i < nodes.length) (hmu : s.gMu = some i) (hpc : s.pc i = .publish av) :
    Running env nodes av res ({ s with gStateFast := some av }.move i (.unlock av) []) := by
  have hin := h.inside i hmu
  rw [hpc] at hin
  obtain ⟨hstate, hconfig⟩ : s.gState = some av ∧ (av = true → s.config = .resolved env) := hin
  have hpcs : ∀ j, j ≠ i → s.pc j = .enter ∨ s.pc j = .lock := fun j hj =>
    h.outside j fun hmu' => hj (Option.some.inj (hmu'.symm.trans hmu))
  have hlog : ({ s with gStateFast := some av }.move i (.unlock av) []).log = [] := by simp [State.move, h.log]
  have hbarriers : ∀ j, ({ s with gStateFast := some av }.move i (.unlock av) []).barriers j = [] := fun j =>
    congrArg (barriersOf j) hlog
  have hnode : ∀ j, ({ s with gStateFast := some av }.move i (.unlock av) []).node j = 0 := h.node
  have hplace : ∀ j, PcOk env nodes av res j (s.node j) (({ s with gStateFast := some av }.move i (.unlock av) []).pc j) ∧
      (({ s with gStateFast := some av }.move i (.unlock av) []).pc j).head = true := by
    intro j
    simp only [State.move]
    by_cases hj : j = i
    · subst hj
      rw [Function.update_self]
      exact ⟨rfl, rfl⟩
    · rw [Function.update_of_ne hj]
      rcases hpcs j hj with hp | hp <;> rw [hp] <;> exact ⟨trivial, rfl⟩
  refine ⟨rfl, hstate, hconfig, fun j => ?_, fun j => (hplace j).1, fun j => ?_, fun j => ?_, fun j j' => ?_,
    fun j _ _ hst => ?_, fun j e he => ?_, ?_⟩
  · rw [h.node i] at hlt
    exact Or.inl (by rwa [hnode])
  · rw [hbarriers, hnode, (Pc.of_head (hplace j).2).1]
    rfl
  · rw [hbarriers]
    exact h.arrived j
  · simp [State.move, h.arrived]
  · exact absurd hst (by rw [(Pc.of_head (hplace j).2).2.2]; simp)
  · rw [hlog] at he
    exact absurd he (by simp)
  · rw [hlog]
    exact List.Pairwise.nil

/-- Before the answer is published, a step keeps things so or publishes it. -/
theorem Fresh.step {s' : State n Q} {choice : Bool} (h : Fresh env s) (hstep : step env nodes s (i, choice) = some s') :
    Fresh env s' ∨ ∃ av res, Running env nodes av res s' := by
  simp only [Pool.step, Option.bind_eq_bind, Option.bind_eq_some_iff] at hstep
  obtain ⟨nd, hnd, hstep⟩ := hstep
  have hlt : s.node i < nodes.length := (List.getElem?_eq_some_iff.mp hnd).1
  by_cases hmu : s.gMu = some i
  · -- in the critical section
    have hin := h.inside i hmu
    cases hpc : s.pc i with
    | critical =>
      rw [hpc] at hin
      obtain ⟨hstate, hconfig⟩ := hin
      simp only [hpc, hstate] at hstep
      by_cases htruthy : env.bitnetXdna = true
      · rw [if_pos htruthy, Option.some.injEq] at hstep
        subst hstep
        exact Or.inl (h.moveInside hmu ⟨rfl, hconfig⟩)
      · rw [if_neg htruthy, Option.some.injEq] at hstep
        subst hstep
        exact Or.inl (h.moveInside hmu ⟨rfl, fun hf => absurd hf (by simp)⟩)
    | tiles | splitFrac | minTokens =>
      rw [hpc] at hin
      obtain ⟨hstate, hconfig⟩ := hin
      simp only [hpc, Option.some.injEq] at hstep
      subst hstep
      exact Or.inl (h.moveInside hmu ⟨hstate, by rw [hconfig]⟩)
    | clamp =>
      rw [hpc] at hin
      obtain ⟨hstate, hconfig⟩ := hin
      simp only [hpc, Option.some.injEq] at hstep
      subst hstep
      exact Or.inl (h.moveInside hmu ⟨hstate, by rw [hconfig, Config.resolved]⟩)
    | device =>
      rw [hpc] at hin
      obtain ⟨-, hconfig⟩ := hin
      simp only [hpc, Option.some.injEq] at hstep
      subst hstep
      exact Or.inl (h.moveInside hmu ⟨rfl, fun _ => hconfig⟩)
    | publish state =>
      simp only [hpc, Option.some.injEq] at hstep
      subst hstep
      exact Or.inr ⟨state, fun _ => false, h.publish hlt hmu hpc⟩
    | _ =>
      rw [hpc] at hin
      exact hin.elim
  · rcases h.outside i hmu with hpc | hpc
    · simp only [hpc, h.fast, Option.some.injEq] at hstep
      subst hstep
      exact Or.inl (h.moveOutside hmu (Or.inr rfl))
    · simp only [hpc, Option.ite_none_right_eq_some, Option.some.injEq] at hstep
      obtain ⟨hfree, rfl⟩ := hstep
      exact Or.inl (h.take hfree)

end Fresh

/-! ## Every interleaving -/

theorem Fresh.init (env : Environ Q) : Fresh env (.init : State n Q) :=
  ⟨rfl, rfl, fun _ => rfl, fun _ => rfl, fun _ _ => Or.inl rfl, fun _ => ⟨rfl, rfl⟩, nofun⟩

/-- After every schedule nothing is published, or the pool is running. -/
theorem run_inv (env : Environ Q) (nodes : List Node) (schedule : List (Fin n × Bool)) :
    Fresh env (run env nodes schedule) ∨ ∃ av res, Running env nodes av res (run env nodes schedule) := by
  refine interleave_invariant (I := fun s => Fresh env s ∨ ∃ av res, Running env nodes av res s) schedule
    (Or.inl (Fresh.init env)) ?_
  rintro s ⟨i, choice⟩ s' (h | ⟨av, res, h⟩) hstep
  · exact h.step hstep
  · obtain ⟨res', h'⟩ := h.step hstep
    exact Or.inr ⟨av, res', h'⟩

/-- The barriers of a thread are the first ones of the sequence. -/
theorem Running.barriers_initial {env : Environ Q} {nodes : List Node} {av : Bool} {res : Nat → Bool} {s : State n Q}
    (h : Running env nodes av res s) {i : Fin n} {k : Nat} (hk : s.node i < k) :
    s.barriers i <+: sites (npuAt env nodes n av) res k := by
  refine List.IsPrefix.trans ?_ (sites_initial (show s.node i + 1 ≤ k from hk))
  rw [h.barriers, sites_succ]
  exact (List.prefix_append_right_inj _).mpr (h.pc i).sites_initial

/-- In every interleaving of the threads of a pool over any nodes, whatever the device finds and whichever accumulates fail:
all threads come to the same decision and the same `t_npu` at a node; what a thread loads is what thread 0 stored for that
node; all threads leave a node the same way, by the epilogue when what they loaded is a success and by the CPU block
otherwise; all go through one sequence of barriers; and no row of a node is converted after thread 0 has begun the accumulate
of a later one. -/
theorem pool_agrees (env : Environ Q) (nodes : List Node) (schedule : List (Fin n × Bool)) :
    let s := run env nodes schedule
    (∀ i j k d d', (i, .decided k d) ∈ s.log → (j, .decided k d') ∈ s.log → d = d') ∧
    (∀ i k r, (i, .loaded k r) ∈ s.log → ∃ j, j.val = 0 ∧ (j, .stored k r) ∈ s.log ∧
      ∀ j' r', (j', .stored k r') ∈ s.log → r' = r) ∧
    (∀ i j k e e', (i, .left k e) ∈ s.log → (j, .left k e') ∈ s.log → e = e') ∧
    (∀ i j k r e, (i, .loaded k r) ∈ s.log → (j, .left k e) ∈ s.log → e = r) ∧
    (∀ i j, s.barriers i <+: s.barriers j ∨ s.barriers j <+: s.barriers i) ∧
    (∀ i j, s.Finished nodes i → s.Finished nodes j → s.barriers i = s.barriers j) ∧
    s.log.Pairwise InOrder := by
  intro s
  rcases run_inv env nodes schedule with h | ⟨av, res, h⟩
  · have hlog : s.log = [] := h.log
    simp [State.barriers, barriersOf, hlog]
  have hstored : ∀ j k r, (j, .stored k r) ∈ s.log → npuAt env nodes n av k = true ∧ r = res k := by
    intro j k r hm
    obtain ⟨-, hnpu, hr, -⟩ := h.log j _ hm
    exact ⟨hnpu, hr⟩
  have hloaded : ∀ i k r, (i, .loaded k r) ∈ s.log → ∃ j, (j, .stored k r) ∈ s.log := fun i k r hm => h.log i _ hm
  have hleft : ∀ i k e, (i, .left k e) ∈ s.log → e = (npuAt env nodes n av k && res k) := by
    intro i k e hm
    rcases h.log i _ hm with ⟨hnpu, rfl⟩ | ⟨hnpu, j, hj⟩
    · rw [hnpu, Bool.false_and]
    · rw [hnpu, Bool.true_and]
      exact (hstored j k e hj).2
  have hends : ∀ i, s.Finished nodes i → s.barriers i = sites (npuAt env nodes n av) res nodes.length := by
    intro i hi
    have hnode : s.node i = nodes.length := hi
    have hpc : s.pc i = .enter := by
      rcases h.range i with hlt | ⟨-, hpc⟩
      · exact absurd hnode (Nat.ne_of_lt hlt)
      · exact hpc
    have hbarriers := h.barriers i
    rw [hpc, hnode] at hbarriers
    exact hbarriers.trans (List.append_nil _)
  refine ⟨fun i j k d d' hi hj => ?_, fun i k r hi => ?_, fun i j k e e' hi hj => ?_, fun i j k r e hi hj => ?_,
    fun i j => ?_, fun i j hi hj => ?_, h.order⟩
  · obtain ⟨nd, hnd, rfl⟩ := h.log i _ hi
    obtain ⟨nd', hnd', rfl⟩ := h.log j _ hj
    rw [Option.some.inj (hnd.symm.trans hnd')]
  · obtain ⟨j, hj⟩ := hloaded i k r hi
    refine ⟨j, (h.log j _ hj).1, hj, fun j' r' hj' => ?_⟩
    rw [(hstored j' k r' hj').2, (hstored j k r hj).2]
  · rw [hleft i k e hi, hleft j k e' hj]
  · obtain ⟨j', hj'⟩ := hloaded i k r hi
    obtain ⟨hnpu, hr⟩ := hstored j' k r hj'
    rw [hleft j k e hj, hnpu, Bool.true_and, hr]
  · exact List.prefix_or_prefix_of_prefix (h.barriers_initial (Nat.lt_succ_of_le (Nat.le_max_left (s.node i) (s.node j))))
      (h.barriers_initial (Nat.lt_succ_of_le (Nat.le_max_right (s.node i) (s.node j))))
  · rw [hends i hi, hends j hj]

end Pool
end BitnetXdna
