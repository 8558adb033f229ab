import BitnetXdna.Ggml.PoolComputes
import Mathlib.Algebra.Order.BigOperators.Group.Finset
import Mathlib.Algebra.Order.BigOperators.Group.List

/-!
# The pool comes to its end

No interleaving of the threads gets stuck: a thread that waits for the lock waits for one that is in a critical section, and of
the threads in a barrier the one that has arrived at the fewest passes it (`Live.exists_step`). And every step brings its
thread nearer to the end (`Live.rank_lt`). So the threads get through any graph as long as each is scheduled again and again
(`pool_completes`).
-/

namespace BitnetXdna
namespace Pool

open Finset

variable {n : Nat} {Q : Type} [SplitArith Q]

/-- The pool before the answer is published or after it, with the lock in the hands of a thread in a critical section. -/
structure Live (env : Environ Q) (nodes : List Node) (s : State n Q) : Prop where
  phase : Fresh env s ∨ ∃ av res, Running env nodes av res s ∧ Traced env nodes av s
  held : ∀ i, s.gMu = some i → (s.pc i).locked = true

/-- All threads have run all nodes. -/
def State.Done (nodes : List Node) (s : State n Q) : Prop := ∀ i, s.Finished nodes i

section Progress

variable {env : Environ Q} {nodes : List Node} {av : Bool} {res : Nat → Bool} {s s' : State n Q} {i j : Fin n} {choice : Bool}
  {nd : Node}

theorem Live.init (env : Environ Q) (nodes : List Node) : Live env nodes (.init : State n Q) :=
  ⟨Or.inl (Fresh.init env), fun i hi => absurd hi (by simp [State.init])⟩

omit [SplitArith Q] in
/-- The thread that has the lock is in a critical section, after every step. -/
theorem Went.held {k : Nat} {p : Pc} {es : List Event} (hw : Went nodes s s' i choice nd k p es)
    (h : ∀ i, s.gMu = some i → (s.pc i).locked = true) (j : Fin n) (hj : s'.gMu = some j) : (s'.pc j).locked = true := by
  rw [hw.pc]
  rcases hw.lock with hnone | ⟨hmine, hp⟩ | ⟨hsame, hp⟩
  · exact absurd (hnone.symm.trans hj) (by simp)
  · obtain rfl : i = j := Option.some.inj (hmine.symm.trans hj)
    rwa [Function.update_self]
  · have hold := h j (hsame ▸ hj)
    by_cases hji : j = i
    · subst hji
      rwa [Function.update_self, hp]
    · rwa [Function.update_of_ne hji]

theorem Live.step (h : Live env nodes s) (hstep : Pool.step env nodes s (i, choice) = some s') : Live env nodes s' := by
  obtain ⟨nd, k, p, es, hw⟩ := step_went hstep
  refine ⟨?_, hw.held h.held⟩
  rcases h.phase with hf | ⟨av, res, hr, ht⟩
  · obtain ⟨-, hnode, hpc⟩ := hf.step_seeking hstep
    exact (hf.step hstep).imp id fun ⟨av, res, hr⟩ => ⟨av, res, hr, Traced.of_seeking hnode hpc⟩
  · obtain ⟨res', hr'⟩ := hr.step hstep
    exact Or.inr ⟨av, res', hr', ht.step hr' hstep⟩

/-! ## Some thread goes on -/

/-- A thread that does not wait goes on, whatever the schedule chooses. -/
theorem step_isSome (hnd : nodes[s.node i]? = some nd)
    (hlock : (s.pc i = .lock ∨ ∃ t, s.pc i = .wait t) → s.gMu = none) (hbarrier : (s.pc i).waiting = 1 → s.complete i)
    (choice : Bool) : (Pool.step env nodes s (i, choice)).isSome := by
  cases hpc : s.pc i with
  | lock => simp [Pool.step, hnd, hpc, hlock (Or.inl hpc)]
  | wait t => simp [Pool.step, hnd, hpc, hlock (Or.inr ⟨t, hpc⟩)]
  | inAccumulated | inConverted | inNode =>
    have hall := hbarrier (by rw [hpc]; rfl)
    simp [Pool.step, hnd, hpc, hall]
  | enter | critical | answered | rows =>
    simp only [Pool.step, hnd, hpc, Option.bind_eq_bind, Option.bind_some]
    repeat' split
    all_goals rfl
  | _ => simp [Pool.step, hnd, hpc]

/-- A thread in a critical section does not wait. -/
theorem step_isSome_of_locked (hnd : nodes[s.node i]? = some nd) (hpc : (s.pc i).locked = true) (choice : Bool) :
    (Pool.step env nodes s (i, choice)).isSome := by
  refine step_isSome hnd (fun hl => ?_) (fun hw => ?_) choice
  · rcases hl with hl | ⟨t, hl⟩ <;> rw [hl] at hpc <;> simp [Pc.locked] at hpc
  · cases hp : s.pc i <;> rw [hp] at hpc hw <;> simp [Pc.locked, Pc.waiting] at hpc hw

/-- Of the threads that have not run all nodes, the one that has arrived at the fewest barriers has arrived at no more than any
thread. -/
theorem Running.exists_complete (h : Running env nodes av res s) (hi : s.node i < nodes.length) :
    ∃ i, s.node i < nodes.length ∧ s.complete i := by
  obtain ⟨i₀, hmem, hmin⟩ := exists_min_image (univ.filter fun i => s.node i < nodes.length) s.arrived
    ⟨i, mem_filter.mpr ⟨mem_univ i, hi⟩⟩
  have hlt : s.node i₀ < nodes.length := (mem_filter.mp hmem).2
  refine ⟨i₀, hlt, fun j => ?_⟩
  rcases h.range j with hj | ⟨hj, hpc⟩
  · exact hmin j (mem_filter.mpr ⟨mem_univ j, hj⟩)
  · have hall := h.arrived j
    rw [h.barriers, hj, hpc, List.length_append] at hall
    have hupper := h.upper i₀
    have hle := length_sites_le (npuAt env nodes n av) res (show s.node i₀ + 1 ≤ nodes.length from hlt)
    omega

/-- Some thread goes on, unless all have run all nodes. -/
theorem Live.exists_step (h : Live env nodes s) (hnot : ¬s.Done nodes) :
    ∃ i, ∀ choice, (Pool.step env nodes s (i, choice)).isSome := by
  obtain ⟨i, hi⟩ := not_forall.mp hnot
  have hnode : ∀ {j}, s.node j < nodes.length → ∃ nd, nodes[s.node j]? = some nd := fun hj =>
    ⟨_, List.getElem?_eq_getElem hj⟩
  rcases h.phase with hf | ⟨av, res, hr, -⟩
  · have hlen : 0 < nodes.length := Nat.pos_of_ne_zero fun h0 => hi (by rw [State.Finished, hf.node i, h0])
    have hall : ∀ j, ∃ nd, nodes[s.node j]? = some nd := fun j => hnode (by rw [hf.node j]; exact hlen)
    cases hmu : s.gMu with
    | none =>
      obtain ⟨nd, hnd⟩ := hall i
      refine ⟨i, step_isSome hnd (fun _ => hmu) fun hw => ?_⟩
      rcases hf.outside i (by simp [hmu]) with hp | hp <;> rw [hp] at hw <;> exact absurd hw (by simp [Pc.waiting])
    | some j =>
      obtain ⟨nd, hnd⟩ := hall j
      exact ⟨j, step_isSome_of_locked hnd (h.held j hmu)⟩
  · have hlt : s.node i < nodes.length := by
      rcases hr.range i with hlt | ⟨heq, -⟩
      · exact hlt
      · exact absurd heq hi
    cases hmu : s.gMu with
    | some j =>
      -- the thread that has the lock
      have hlocked := h.held j hmu
      have hj : s.node j < nodes.length := by
        rcases hr.range j with hj | ⟨-, hpc⟩
        · exact hj
        · rw [hpc] at hlocked
          exact absurd hlocked (by simp [Pc.locked])
      obtain ⟨nd, hnd⟩ := hnode hj
      exact ⟨j, step_isSome_of_locked hnd hlocked⟩
    | none =>
      -- nobody waits for the lock; the thread that is last at the barriers goes on
      obtain ⟨j, hj, hall⟩ := hr.exists_complete hlt
      obtain ⟨nd, hnd⟩ := hnode hj
      exact ⟨j, step_isSome hnd (fun _ => hmu) fun _ => hall⟩

/-! ## Every step brings its thread nearer to the end -/

/-- No more than this many steps are left in the node, where `t_npu` is at most `M`. -/
def Pc.left (M : Nat) : Pc → Nat
  | .inNode => 1
  | .atNode => 2
  | .inConverted | .cpu => 3
  | .atConverted => 4
  | .rows r re => 5 + (re - r)
  | .load _ => 6 + M
  | .inAccumulated _ => 7 + M
  | .atAccumulated _ => 8 + M
  | .share _ | .store _ _ => 9 + M
  | .accumulating _ => 10 + M
  | .wait _ => 11 + M
  | .call _ => 12 + M
  | p => 25 + M - p.stage

/-- A bound on the tokens of the nodes. -/
def maxTokens (nodes : List Node) : Nat := (nodes.map Node.ne11).sum

/-- No more than this many steps are left to a thread. -/
def State.leftOf (nodes : List Node) (s : State n Q) (i : Fin n) : Nat :=
  (nodes.length - s.node i) * (maxTokens nodes + 26) + (s.pc i).left (maxTokens nodes)

/-- And to all threads together. -/
def State.rank (nodes : List Node) (s : State n Q) : Nat := ∑ i, s.leftOf nodes i

/-- The decision leaves fewer steps than seeking it. -/
theorem Pc.left_of_seeking {p : Pc} (M : Nat) (h : p.seeking = true) : p.left M = 25 + M - p.stage ∧ p.stage ≤ 12 := by
  cases p <;> first | exact ⟨rfl, by simp [Pc.stage]⟩ | exact absurd h (by simp [Pc.seeking])

/-- A step inside a node leaves fewer steps there. -/
theorem Goes.left_lt {M k : Nat} {result : Bool} {p p' : Pc} {es : List Event}
    (hgoes : Goes n i nd k result choice p k p' es) (hload : ∀ t, p = .load t → (i.val + 1) * t / n - i.val * t / n ≤ M) :
    p'.left M < p.left M := by
  cases hgoes with
  | seek hp hp' hlt =>
    obtain ⟨heq, -⟩ := Pc.left_of_seeking M hp
    obtain ⟨heq', hle'⟩ := Pc.left_of_seeking M hp'
    omega
  | decide d hp =>
    have hseek : p.seeking = true := by cases p <;> first | rfl | exact absurd hp (by simp [Pc.deciding])
    obtain ⟨heq, hle⟩ := Pc.left_of_seeking M hseek
    rw [heq, afterDecision_eq]
    split_ifs <;> simp only [Pc.left] <;> omega
  | load t =>
    have hM := hload t rfl
    split <;> simp only [Pc.left] <;> omega
  | row | rowsEnd => simp only [Pc.left]; omega
  | _ => simp only [Pc.left]; omega

/-- The rows of a thread are tokens of its node. -/
theorem Live.load_le (h : Live env nodes s) {t : Nat} (hpc : s.pc i = .load t) :
    (i.val + 1) * t / n - i.val * t / n ≤ maxTokens nodes := by
  rcases h.phase with hf | ⟨av, res, hr, ht⟩
  · have hseek := (hf.seeking i).1
    rw [hpc] at hseek
    exact absurd hseek (by simp [Pc.seeking])
  · have hnpu : npuAt env nodes n av (s.node i) = true := by
      have hok := hr.pc i
      rw [hpc] at hok
      exact hok
    have htok := ht.tokens i
    rw [hpc] at htok
    obtain rfl : t = tokensAt env nodes n av (s.node i) := htok
    have hend := Sharding.mul_div_le i.isLt (n := tokensAt env nodes n av (s.node i))
    have hle : tokensAt env nodes n av (s.node i) ≤ maxTokens nodes := by
      rw [npuAt] at hnpu
      rw [tokensAt]
      cases hnd : nodes[s.node i]? with
      | none => exact Nat.zero_le _
      | some nd =>
        rw [hnd] at hnpu
        exact Nat.le_trans (decisionOf_npu hnpu).2.1
          (List.single_le_sum (fun _ _ => Nat.zero_le _) _ (List.mem_map_of_mem (List.mem_of_getElem? hnd)))
    exact Nat.le_trans (Nat.sub_le _ _) (Nat.le_trans hend hle)

/-- A step leaves its thread fewer steps. -/
theorem Live.rank_lt (h : Live env nodes s) (hstep : Pool.step env nodes s (i, choice) = some s') :
    s'.rank nodes < s.rank nodes := by
  obtain ⟨nd, k, p, es, hw⟩ := step_went hstep
  have hlt : s.node i < nodes.length := (List.getElem?_eq_some_iff.mp hw.here).1
  have hother : ∀ j, j ≠ i → s'.leftOf nodes j = s.leftOf nodes j := fun j hj => by
    rw [State.leftOf, State.leftOf, hw.pc, hw.node, Function.update_of_ne hj, Function.update_of_ne hj]
  have hmine : s'.leftOf nodes i < s.leftOf nodes i := by
    rw [State.leftOf, State.leftOf, hw.pc, hw.node, Function.update_self, Function.update_self]
    rcases hw.goes.node with rfl | ⟨hfrom, rfl, rfl, -⟩
    · exact Nat.add_lt_add_left (hw.goes.left_lt fun t ht => h.load_le ht) _
    · -- a node less
      obtain ⟨d, hd⟩ : ∃ d, nodes.length - s.node i = d + 1 := ⟨nodes.length - s.node i - 1, by omega⟩
      rw [hfrom, hd, show nodes.length - (s.node i + 1) = d by omega, Nat.succ_mul]
      simp only [Pc.left, Pc.stage]
      omega
  refine sum_lt_sum (fun j _ => ?_) ⟨i, mem_univ i, hmine⟩
  by_cases hj : j = i
  · exact hj ▸ hmine.le
  · exact (hother j hj).le

theorem State.rank_init (nodes : List Node) :
    (State.init : State n Q).rank nodes ≤ n * ((nodes.length + 1) * (maxTokens nodes + 26)) := by
  have hone : ∀ i, (State.init : State n Q).leftOf nodes i ≤ (nodes.length + 1) * (maxTokens nodes + 26) := fun i => by
    simp only [State.leftOf, State.init, Pc.left, Pc.stage, Nat.sub_zero, Nat.succ_mul]
    omega
  calc (State.init : State n Q).rank nodes ≤ ∑ _i : Fin n, (nodes.length + 1) * (maxTokens nodes + 26) :=
        sum_le_sum fun i _ => hone i
    _ = n * ((nodes.length + 1) * (maxTokens nodes + 26)) := by simp

end Progress

/-! ## Every fair schedule -/

/-- A step of the memory is possible exactly when the thread goes on in the pool. -/
theorem Setup.step_isSome {u : Setup Q} {m : Memory n Q} {i : Fin n}
    (h : ∀ choice, (Pool.step u.env u.nodes m.pool (i, choice)).isSome) (choice : Bool) : (u.step m (i, choice)).isSome := by
  obtain ⟨s', hs'⟩ := Option.isSome_iff_exists.mp (h choice)
  obtain ⟨nd, k, p, es, hw⟩ := step_went hs'
  have hlt : m.pool.node i < u.graph.length := by
    have := (List.getElem?_eq_some_iff.mp hw.here).1
    rwa [Setup.nodes, List.length_map] at this
  have hg : u.graph[m.pool.node i]? = some u.graph[m.pool.node i] := List.getElem?_eq_getElem hlt
  have hsome : ∀ c (f : State n Q → Memory n Q),
      ((Pool.step u.env u.nodes m.pool (i, c)).bind fun pool => some (f pool)).isSome := fun c f => by
      obtain ⟨pool, hpool⟩ := Option.isSome_iff_exists.mp (h c)
      rw [hpool]
      rfl
  simp only [Setup.step, hg, Option.bind_eq_bind, Option.bind_some]
  split <;> exact hsome _ _

/-- The threads of a pool get through any graph, whatever the device finds and whichever accumulates fail: after every schedule
some thread goes on unless all have run all nodes, and a schedule in which every thread takes part often enough comes to
that end. -/
theorem pool_completes (u : Setup Q) (rounds : List (List (Fin n × Bool)))
    (hfair : ∀ r ∈ rounds, ∀ i, ∃ choice, (i, choice) ∈ r)
    (hmany : n * ((u.nodes.length + 1) * (maxTokens u.nodes + 26)) ≤ rounds.length) :
    (∀ schedule, (u.run schedule).pool.Done u.nodes ∨ ∃ i : Fin n, ∀ choice, (u.step (u.run schedule) (i, choice)).isSome) ∧
      (u.run rounds.flatten).pool.Done u.nodes := by
  have hstep : ∀ (m : Memory n Q) a m', Live u.env u.nodes m.pool → u.step m a = some m' →
      Live u.env u.nodes m'.pool ∧ m'.pool.rank u.nodes < m.pool.rank u.nodes := by
    rintro m ⟨i, choice⟩ m' h hm
    obtain ⟨g, choice', -, hpool, -⟩ := Setup.step_cases hm
    exact ⟨h.step hpool, h.rank_lt hpool⟩
  have hlive : ∀ m : Memory n Q, Live u.env u.nodes m.pool → ¬m.pool.Done u.nodes →
      ∃ i : Fin n, ∀ choice, (u.step m (i, choice)).isSome := fun m h hnot => by
    obtain ⟨i, hi⟩ := h.exists_step hnot
    exact ⟨i, Setup.step_isSome hi⟩
  refine ⟨fun schedule => ?_, ?_⟩
  · have h : Live u.env u.nodes (u.run schedule).pool :=
      interleave_invariant (I := fun m : Memory n Q => Live u.env u.nodes m.pool) schedule (Live.init ..)
        fun m a m' hm ha => (hstep m a m' hm ha).1
    by_cases hdone : (u.run schedule).pool.Done u.nodes
    · exact Or.inl hdone
    · exact Or.inr (hlive _ h hdone)
  · refine @interleave_completes (Memory n Q) _ _ (fun m => Live u.env u.nodes m.pool)
      (fun m => m.pool.Done u.nodes) (fun m => m.pool.rank u.nodes) _ hstep ?_ rounds ?_ ?_ (Live.init ..)
      (Nat.le_trans (State.rank_init u.nodes) hmany)
    · rintro m hdone ⟨i, choice⟩
      have hnone : u.graph[m.pool.node i]? = none := by
        rw [hdone i, Setup.nodes, List.length_map]
        exact List.getElem?_eq_none (Nat.le_refl _)
      simp [Setup.step, hnone]
    · intro r hr m h hnot
      obtain ⟨i, hi⟩ := hlive m h hnot
      obtain ⟨choice, hmem⟩ := hfair r hr i
      exact ⟨_, hmem, hi choice⟩
    · intro m h hnot
      obtain ⟨i, hi⟩ := hlive m h hnot
      exact ⟨(i, true), hi true⟩

/-- Three threads that take turns. -/
theorem pool_completes_three_threads :
    let round : List (Fin 3 × Bool) := [(0, true), (1, true), (2, true)]
    let rounds := List.replicate 61000 round
    (∀ schedule : List (Fin 3 × Bool), (plainSetup.run schedule).pool.Done plainSetup.nodes ∨
        ∃ i : Fin 3, ∀ choice, (plainSetup.step (plainSetup.run schedule) (i, choice)).isSome) ∧
      (plainSetup.run rounds.flatten).pool.Done plainSetup.nodes := by
  refine pool_completes plainSetup _ (fun r hr i => ⟨true, ?_⟩) ?_
  · obtain rfl := List.eq_of_mem_replicate hr
    revert i
    decide
  · rw [List.length_replicate]
    decide

end Pool
end BitnetXdna
