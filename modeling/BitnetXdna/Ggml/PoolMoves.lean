import BitnetXdna.Ggml.PoolAgrees
import BitnetXdna.Lib.Sharding

/-!
# How a thread of the pool goes on

`Goes` lists the ways a thread goes on, from place to place, with the node it is in then and what it does; every step of the
pool is one of them (`step_went`). From it: a thread carries the `t_npu` of its node from its decision to its rows, and
whoever is past the first barrier of a node where the NPU takes part is past a stored result (`Traced`).
-/

namespace BitnetXdna
namespace Pool

/-- Before the decision. -/
def Pc.seeking : Pc → Bool
  | .enter | .lock | .critical | .tiles | .splitFrac | .minTokens | .clamp | .device | .publish _ | .unlock _ | .answered _
  | .readTiles | .readFrac _ => true
  | _ => false

/-- Where a thread decides. -/
def Pc.deciding : Pc → Bool
  | .answered _ | .readFrac _ => true
  | _ => false

/-- How far a thread has come before its decision. -/
def Pc.stage : Pc → Nat
  | .lock => 1
  | .critical => 2
  | .tiles => 3
  | .splitFrac => 4
  | .minTokens => 5
  | .clamp => 6
  | .device => 7
  | .publish _ => 8
  | .unlock _ => 9
  | .answered _ => 10
  | .readTiles => 11
  | .readFrac _ => 12
  | _ => 0

/-- Inside a critical section of `g_mu`. -/
def Pc.locked : Pc → Bool
  | .critical | .tiles | .splitFrac | .minTokens | .clamp | .device | .publish _ | .unlock _ | .accumulating _ => true
  | _ => false

/-- Thread `i` goes on in node `k`: from where, to which node and where, and what it does. `result` is `xdna_result`, and
`choice` what the schedule says of an accumulate. -/
inductive Goes (n : Nat) (i : Fin n) (nd : Node) (k : Nat) (result choice : Bool) : Pc → Nat → Pc → List Event → Prop where
  | seek {p p' : Pc} (hp : p.seeking = true) (hp' : p'.seeking = true) (hlt : p.stage < p'.stage) :
      Goes n i nd k result choice p k p' []
  | decide {p : Pc} (d : Decision) (hp : p.deciding = true) :
      Goes n i nd k result choice p k (afterDecision i nd d) [.decided k d]
  | call (t : Nat) : Goes n i nd k result choice (.call t) k (.wait t) [.begun k]
  | lock (t : Nat) : Goes n i nd k result choice (.wait t) k (.accumulating t) []
  | accumulate (t : Nat) : Goes n i nd k result choice (.accumulating t) k (.store t choice) []
  | store (t : Nat) (r : Bool) : Goes n i nd k result choice (.store t r) k (.atAccumulated t) [.stored k r]
  | share (t : Nat) : Goes n i nd k result choice (.share t) k (.atAccumulated t) []
  | arriveAccumulated (t : Nat) :
      Goes n i nd k result choice (.atAccumulated t) k (.inAccumulated t) [.barrier (.accumulated k)]
  | passAccumulated (t : Nat) : Goes n i nd k result choice (.inAccumulated t) k (.load t) []
  | load (t : Nat) : Goes n i nd k result choice (.load t) k
      (if result then .rows (i.val * t / n) ((i.val + 1) * t / n) else .cpu) [.loaded k result]
  | row (r re : Nat) (hr : r < re) : Goes n i nd k result choice (.rows r re) k (.rows (r + 1) re) [.row k r]
  | rowsEnd (r re : Nat) (hr : ¬r < re) : Goes n i nd k result choice (.rows r re) k .atConverted []
  | arriveConverted : Goes n i nd k result choice .atConverted k .inConverted [.barrier (.converted k)]
  | passConverted : Goes n i nd k result choice .inConverted k .atNode [.left k true]
  | block : Goes n i nd k result choice .cpu k .atNode [.left k false]
  | arriveNode : Goes n i nd k result choice .atNode k .inNode [.barrier (.node k)]
  | nextNode : Goes n i nd k result choice .inNode (k + 1) .enter []

/-- The `t_npu` of a decision. -/
def Decision.tokens : Decision → Nat
  | .split tNpu => tNpu.toNat
  | _ => 0

/-- Where a decision takes a thread, in full. -/
theorem afterDecision_eq {n : Nat} (i : Fin n) (nd : Node) (d : Decision) :
    afterDecision i nd d =
      if d.npu then
        if i.val = 0 then .call d.tokens else if d.tokens < nd.ne11 then .share d.tokens else .atAccumulated d.tokens
      else .cpu := by
  cases d with
  | unavailable | declined => rfl
  | split t =>
    by_cases ht : t > 0
    · have hlt : t < nd.ne11 ↔ t.toNat < nd.ne11 := by omega
      simp only [afterDecision, Decision.npu, Decision.tokens, ht, decide_true, if_true]
      exact if_congr Iff.rfl rfl (if_congr hlt rfl rfl)
    · simp only [afterDecision, Decision.npu, ht, decide_false, if_false, Bool.false_eq_true]

/-- Thread `i` has gone on: the other threads stay where they are, and if it has the lock now it is in a critical section. -/
structure Went {n : Nat} {Q : Type} (nodes : List Node) (s s' : State n Q) (i : Fin n) (choice : Bool) (nd : Node) (k : Nat)
    (p : Pc) (es : List Event) : Prop where
  here : nodes[s.node i]? = some nd
  goes : Goes n i nd (s.node i) s.xdnaResult choice (s.pc i) k p es
  pc : s'.pc = Function.update s.pc i p
  node : s'.node = Function.update s.node i k
  log : s'.log = s.log ++ es.map (Prod.mk i)
  lock : s'.gMu = none ∨ s'.gMu = some i ∧ p.locked = true ∨ s'.gMu = s.gMu ∧ p.locked = (s.pc i).locked

theorem Went.grow {n : Nat} {Q : Type} {nodes : List Node} {s s' : State n Q} {i : Fin n} {choice : Bool} {nd : Node}
    {k : Nat} {p : Pc} {es : List Event} (hw : Went nodes s s' i choice nd k p es) : ∀ x ∈ s.log, x ∈ s'.log :=
  fun _ hx => hw.log ▸ List.mem_append_left _ hx

section Goes

variable {n : Nat} {Q : Type} [SplitArith Q] {env : Environ Q} {nodes : List Node} {s s' : State n Q} {i : Fin n}
  {choice : Bool}

/-- Every step of the pool is one of these. -/
theorem step_went (hstep : step env nodes s (i, choice) = some s') :
    ∃ nd k p es, Went nodes s s' i choice nd k p es := by
  simp only [step, Option.bind_eq_bind, Option.bind_eq_some_iff] at hstep
  obtain ⟨nd, hnd, hstep⟩ := hstep
  -- a move inside the node that leaves the lock alone, and one that takes or releases it
  have locking : ∀ {t : State n Q} {p : Pc} {es : List Event}, (t.pc, t.node, t.log) = (s.pc, s.node, s.log) →
      t.move i p es = s' → Goes n i nd (s.node i) s.xdnaResult choice (s.pc i) (s.node i) p es →
      (t.gMu = none ∨ t.gMu = some i ∧ p.locked = true ∨ t.gMu = s.gMu ∧ p.locked = (s.pc i).locked) →
      ∃ nd k p es, Went nodes s s' i choice nd k p es := by
    rintro t p es hsame rfl hgoes hlock
    simp only [Prod.mk.injEq] at hsame
    obtain ⟨hpc, hnode, hlog⟩ := hsame
    refine ⟨nd, _, p, es, hnd, hgoes, ?_, ?_, ?_, hlock⟩
    · rw [State.move, hpc]
    · rw [Function.update_eq_self]
      exact hnode
    · rw [State.move, hlog]
  have inside : ∀ {t : State n Q} {p : Pc} {es : List Event}, (t.pc, t.node, t.log, t.gMu) = (s.pc, s.node, s.log, s.gMu) →
      t.move i p es = s' → p.locked = (s.pc i).locked →
      Goes n i nd (s.node i) s.xdnaResult choice (s.pc i) (s.node i) p es → ∃ nd k p es, Went nodes s s' i choice nd k p es := by
    intro t p es hsame hmove hlocked hgoes
    simp only [Prod.mk.injEq] at hsame
    exact locking (by rw [hsame.1, hsame.2.1, hsame.2.2.1]) hmove hgoes (Or.inr (Or.inr ⟨hsame.2.2.2, hlocked⟩))
  have undecided : ∀ d, (afterDecision i nd d).locked = false := fun d => by
    rw [afterDecision_eq]
    split_ifs <;> rfl
  cases hpc : s.pc i with
  | enter =>
    simp only [hpc] at hstep
    split at hstep <;> exact inside rfl (Option.some.inj hstep) (by rw [hpc]; rfl) (hpc ▸ .seek rfl rfl (by simp [Pc.stage]))
  | lock =>
    simp only [hpc, Option.ite_none_right_eq_some, Option.some.injEq] at hstep
    exact locking (t := { s with gMu := some i }) rfl hstep.2 (hpc ▸ .seek rfl rfl (by simp [Pc.stage]))
      (Or.inr (Or.inl ⟨rfl, rfl⟩))
  | critical =>
    simp only [hpc] at hstep
    split at hstep
    · exact inside rfl (Option.some.inj hstep) (by rw [hpc]; rfl) (hpc ▸ .seek rfl rfl (by simp [Pc.stage]))
    · split at hstep
      · exact inside (t := { s with gState := some false }) rfl (Option.some.inj hstep) (by rw [hpc]; rfl)
          (hpc ▸ .seek rfl rfl (by simp [Pc.stage]))
      · exact inside (t := { s with gState := some false }) rfl (Option.some.inj hstep) (by rw [hpc]; rfl)
          (hpc ▸ .seek rfl rfl (by simp [Pc.stage]))
  | tiles =>
    simp only [hpc, Option.some.injEq] at hstep
    exact inside (t := { s with config := s.config.setTiles env }) rfl hstep (by rw [hpc]; rfl)
      (hpc ▸ .seek rfl rfl (by simp [Pc.stage]))
  | splitFrac =>
    simp only [hpc, Option.some.injEq] at hstep
    exact inside (t := { s with config := s.config.setSplit env }) rfl hstep (by rw [hpc]; rfl)
      (hpc ▸ .seek rfl rfl (by simp [Pc.stage]))
  | minTokens =>
    simp only [hpc, Option.some.injEq] at hstep
    exact inside (t := { s with config := s.config.setMinTokens env }) rfl hstep (by rw [hpc]; rfl)
      (hpc ▸ .seek rfl rfl (by simp [Pc.stage]))
  | clamp =>
    simp only [hpc, Option.some.injEq] at hstep
    exact inside (t := { s with config := s.config.clampMinTokens }) rfl hstep (by rw [hpc]; rfl)
      (hpc ▸ .seek rfl rfl (by simp [Pc.stage]))
  | device =>
    simp only [hpc, Option.some.injEq] at hstep
    exact inside (t := { s with gState := some choice }) rfl hstep (by rw [hpc]; rfl)
      (hpc ▸ .seek rfl rfl (by simp [Pc.stage]))
  | publish state =>
    simp only [hpc, Option.some.injEq] at hstep
    exact inside (t := { s with gStateFast := some state }) rfl hstep (by rw [hpc]; rfl)
      (hpc ▸ .seek rfl rfl (by simp [Pc.stage]))
  | unlock state =>
    simp only [hpc, Option.some.injEq] at hstep
    exact locking (t := { s with gMu := none }) rfl hstep (hpc ▸ .seek rfl rfl (by simp [Pc.stage])) (Or.inl rfl)
  | answered available =>
    simp only [hpc] at hstep
    split at hstep
    · split at hstep
      · exact inside rfl (Option.some.inj hstep) (by rw [hpc]; rfl) (hpc ▸ .seek rfl rfl (by simp [Pc.stage]))
      · exact inside rfl (Option.some.inj hstep) (by rw [hpc]; exact undecided _) (hpc ▸ .decide _ rfl)
    · exact inside rfl (Option.some.inj hstep) (by rw [hpc]; exact undecided _) (hpc ▸ .decide _ rfl)
  | readTiles =>
    simp only [hpc, Option.some.injEq] at hstep
    exact inside rfl hstep (by rw [hpc]; rfl) (hpc ▸ .seek rfl rfl (by simp [Pc.stage]))
  | readFrac tiles =>
    simp only [hpc, Option.some.injEq] at hstep
    exact inside rfl hstep (by rw [hpc]; exact undecided _) (hpc ▸ .decide _ rfl)
  | call t =>
    simp only [hpc, Option.some.injEq] at hstep
    exact inside rfl hstep (by rw [hpc]; rfl) (hpc ▸ .call t)
  | wait t =>
    simp only [hpc, Option.ite_none_right_eq_some, Option.some.injEq] at hstep
    exact locking (t := { s with gMu := some i }) rfl hstep.2 (hpc ▸ .lock t) (Or.inr (Or.inl ⟨rfl, rfl⟩))
  | accumulating t =>
    simp only [hpc, Option.some.injEq] at hstep
    exact locking (t := { s with gMu := none }) rfl hstep (hpc ▸ .accumulate t) (Or.inl rfl)
  | store t r =>
    simp only [hpc, Option.some.injEq] at hstep
    exact inside (t := { s with xdnaResult := r }) rfl hstep (by rw [hpc]; rfl) (hpc ▸ .store t r)
  | share t =>
    simp only [hpc, Option.some.injEq] at hstep
    exact inside rfl hstep (by rw [hpc]; rfl) (hpc ▸ .share t)
  | atAccumulated t =>
    simp only [hpc, Option.some.injEq] at hstep
    subst hstep
    exact ⟨nd, _, _, _, hnd, hpc ▸ .arriveAccumulated t, rfl, (Function.update_eq_self ..).symm, rfl,
      Or.inr (Or.inr ⟨rfl, by rw [hpc]; rfl⟩)⟩
  | inAccumulated t =>
    simp only [hpc, Option.ite_none_right_eq_some, Option.some.injEq] at hstep
    exact inside rfl hstep.2 (by rw [hpc]; rfl) (hpc ▸ .passAccumulated t)
  | load t =>
    simp only [hpc, Option.some.injEq] at hstep
    exact inside rfl hstep (by rw [hpc]; split <;> rfl) (hpc ▸ .load t)
  | rows r re =>
    simp only [hpc] at hstep
    split at hstep
    · next hr => exact inside rfl (Option.some.inj hstep) (by rw [hpc]; rfl) (hpc ▸ .row r re hr)
    · next hr => exact inside rfl (Option.some.inj hstep) (by rw [hpc]; rfl) (hpc ▸ .rowsEnd r re hr)
  | atConverted =>
    simp only [hpc, Option.some.injEq] at hstep
    subst hstep
    exact ⟨nd, _, _, _, hnd, hpc ▸ .arriveConverted, rfl, (Function.update_eq_self ..).symm, rfl,
      Or.inr (Or.inr ⟨rfl, by rw [hpc]; rfl⟩)⟩
  | inConverted =>
    simp only [hpc, Option.ite_none_right_eq_some, Option.some.injEq] at hstep
    exact inside rfl hstep.2 (by rw [hpc]; rfl) (hpc ▸ .passConverted)
  | cpu =>
    simp only [hpc, Option.some.injEq] at hstep
    exact inside rfl hstep (by rw [hpc]; rfl) (hpc ▸ .block)
  | atNode =>
    simp only [hpc, Option.some.injEq] at hstep
    subst hstep
    exact ⟨nd, _, _, _, hnd, hpc ▸ .arriveNode, rfl, (Function.update_eq_self ..).symm, rfl,
      Or.inr (Or.inr ⟨rfl, by rw [hpc]; rfl⟩)⟩
  | inNode =>
    simp only [hpc, Option.ite_none_right_eq_some, Option.some.injEq] at hstep
    obtain ⟨-, rfl⟩ := hstep
    exact ⟨nd, _, .enter, [], hnd, by rw [hpc]; exact .nextNode, rfl, rfl, by simp [State.move],
      Or.inr (Or.inr ⟨rfl, by rw [hpc]; rfl⟩)⟩

end Goes

/-! ## What a thread carries along -/

/-- A thread in a node with `t_npu = T` carries that number, and then its rows of the epilogue. -/
def PcTokens {n : Nat} (T : Nat) (i : Fin n) : Pc → Prop
  | .call t | .wait t | .accumulating t | .store t _ | .share t | .atAccumulated t | .inAccumulated t | .load t => t = T
  | .rows r re => i.val * T / n ≤ r ∧ r ≤ re ∧ re = (i.val + 1) * T / n
  | _ => True

/-- At or past the place where the result of the node has been loaded. -/
def Pc.settled : Pc → Bool
  | .load _ | .rows _ _ | .atConverted | .inConverted | .cpu | .atNode | .inNode => true
  | _ => false

theorem PcTokens.of_seeking {n T : Nat} {i : Fin n} {p : Pc} (h : p.seeking = true) : PcTokens T i p := by
  cases p <;> first | exact trivial | exact absurd h (by simp [Pc.seeking])

section Traced

variable {n : Nat} {Q : Type} [SplitArith Q]

/-- The `t_npu` of node `k`. -/
def tokensAt (env : Environ Q) (nodes : List Node) (nth : Nat) (available : Bool) (k : Nat) : Nat :=
  match nodes[k]? with
  | some nd => (decisionOf env nth available nd).tokens
  | none => 0

/-- Every thread carries the `t_npu` of its node, and every node that a thread has loaded the result of has one. -/
structure Traced (env : Environ Q) (nodes : List Node) (available : Bool) (s : State n Q) : Prop where
  tokens : ∀ i, PcTokens (tokensAt env nodes n available (s.node i)) i (s.pc i)
  settled : ∀ i k, npuAt env nodes n available k = true →
    k < s.node i ∨ k = s.node i ∧ (s.pc i).settled = true → ∃ j r, (j, .stored k r) ∈ s.log

variable {env : Environ Q} {nodes : List Node} {av : Bool} {res res' : Nat → Bool} {s s' : State n Q} {i : Fin n}
  {choice : Bool}

/-- While every thread is still seeking its decision at the first node, there is nothing to carry. -/
theorem Traced.of_seeking (hnode : ∀ i, s.node i = 0) (hpc : ∀ i, (s.pc i).seeking = true) : Traced env nodes av s := by
  refine ⟨fun i => PcTokens.of_seeking (hpc i), fun i k _ hk => ?_⟩
  rcases hk with hlt | ⟨-, hset⟩
  · rw [hnode i] at hlt
    exact absurd hlt (Nat.not_lt_zero k)
  · have hseek := hpc i
    cases hp : s.pc i <;> rw [hp] at hseek hset <;> simp [Pc.seeking, Pc.settled] at hseek hset

/-- The decision that a step makes is that of the node. -/
theorem Running.decided {nd : Node} {k : Nat} {d : Decision} (h : Running env nodes av res s) (hnd : nodes[k]? = some nd)
    (hd : (i, .decided k d) ∈ s.log) : d = decisionOf env n av nd := by
  obtain ⟨nd', hnd', rfl⟩ := h.log i _ hd
  rw [Option.some.inj (hnd.symm.trans hnd')]

/-- A thread goes on inside its node, or from the executor's barrier to the next one. -/
theorem Goes.node {nd : Node} {k k' : Nat} {result : Bool} {p p' : Pc} {es : List Event}
    (hgoes : Goes n i nd k result choice p k' p' es) :
    k' = k ∨ p = .inNode ∧ k' = k + 1 ∧ p' = .enter ∧ es = [] := by
  cases hgoes with
  | nextNode => exact Or.inr ⟨rfl, rfl, rfl, rfl⟩
  | _ => exact Or.inl rfl

/-- Past the load of the result a thread stays past it, until it enters the next node. -/
theorem Goes.settled {nd : Node} {k k' : Nat} {result : Bool} {p p' : Pc} {es : List Event}
    (hgoes : Goes n i nd k result choice p k' p' es) (hp' : p'.settled = true) : p'.past = true ∨ p.settled = true := by
  cases hgoes with
  | seek _ hp => cases p' <;> simp [Pc.seeking, Pc.settled] at hp hp'
  | decide d _ =>
    rw [afterDecision_eq] at hp' ⊢
    split_ifs at hp' ⊢ <;> simp_all [Pc.settled, Pc.past]
  | load =>
    left
    split <;> rfl
  | passConverted | block | arriveNode => exact Or.inr rfl
  | passAccumulated | row | rowsEnd | arriveConverted => exact Or.inl rfl
  | _ => exact absurd hp' (by simp [Pc.settled])

/-- Only an accumulate leads to a store. -/
theorem Goes.not_store {nd : Node} {k k' t : Nat} {r result : Bool} {p : Pc} {es : List Event}
    (hgoes : Goes n i nd k result choice p k' (.store t r) es) (hacc : ∀ t, p ≠ .accumulating t) : False := by
  generalize hq : Pc.store t r = q at hgoes
  cases hgoes with
  | seek _ hp' =>
    rw [← hq] at hp'
    exact absurd hp' (by simp [Pc.seeking])
  | decide d _ =>
    rw [afterDecision_eq] at hq
    split_ifs at hq
  | load => split at hq <;> simp at hq
  | accumulate t => exact hacc t rfl
  | _ => simp at hq

/-- A thread that is seeking its decision, and not about to decide, goes on seeking. -/
theorem Goes.of_seeking {nd : Node} {k k' : Nat} {result : Bool} {p p' : Pc} {es : List Event}
    (hgoes : Goes n i nd k result choice p k' p' es) (hp : p.seeking = true) (hnot : p.deciding = false) :
    k' = k ∧ p'.seeking = true ∧ es = [] := by
  cases hgoes with
  | seek _ hp' => exact ⟨rfl, hp', rfl⟩
  | decide _ hdec => exact absurd (hnot.symm.trans hdec) (by simp)
  | _ => exact absurd hp (by simp [Pc.seeking])

/-- An accumulate leads to the store of its result. -/
theorem Goes.of_accumulating {nd : Node} {k k' t : Nat} {result : Bool} {p' : Pc} {es : List Event}
    (hgoes : Goes n i nd k result choice (.accumulating t) k' p' es) : p' = .store t choice ∧ k' = k ∧ es = [] := by
  cases hgoes with
  | seek hp | decide _ hp => exact absurd hp (by simp [Pc.seeking, Pc.deciding])
  | accumulate => exact ⟨rfl, rfl, rfl⟩

/-- A result is stored at its place. -/
theorem Goes.stored_of_mem {nd : Node} {k k' m : Nat} {r result : Bool} {p p' : Pc} {es : List Event}
    (hgoes : Goes n i nd k result choice p k' p' es) (hmem : .stored m r ∈ es) : ∃ t, p = .store t r ∧ m = k := by
  cases hgoes with
  | store t r' =>
    obtain ⟨rfl, rfl⟩ := Event.stored.inj (List.mem_singleton.mp hmem)
    exact ⟨t, rfl, rfl⟩
  | _ => simp at hmem

/-- The place a thread goes to fits the `t_npu` of its node. -/
theorem Goes.tokens {nd : Node} {k k' T : Nat} {result : Bool} {p p' : Pc} {es : List Event}
    (hgoes : Goes n i nd k result choice p k' p' es) (hp : PcTokens T i p) (hk : k' = k)
    (hd : ∀ d, .decided k d ∈ es → d.tokens = T) : PcTokens T i p' := by
  cases hgoes with
  | seek _ hp' => exact PcTokens.of_seeking hp'
  | decide d _ =>
    have hT := hd d (by simp)
    rw [afterDecision_eq]
    split_ifs <;> first | exact hT | exact trivial
  | load t =>
    obtain rfl : t = T := hp
    split
    · exact ⟨Nat.le_refl _, Sharding.monotone_mul_div t n (Nat.le_add_right i.val 1), rfl⟩
    · exact trivial
  | row r re hr =>
    obtain ⟨hlow, -, hre⟩ := hp
    exact ⟨Nat.le_succ_of_le hlow, hr, hre⟩
  | nextNode => exact absurd hk (by omega)
  | _ => first | exact hp | exact trivial

/-- A step keeps what the threads carry. -/
theorem Traced.step (h : Traced env nodes av s) (hrun : Running env nodes av res' s')
    (hstep : Pool.step env nodes s (i, choice) = some s') : Traced env nodes av s' := by
  obtain ⟨nd, k, p, es, hnd, hgoes, hpc, hnode, hlog, -⟩ := step_went hstep
  have hgrow : ∀ x ∈ s.log, x ∈ s'.log := fun x hx => hlog ▸ List.mem_append_left _ hx
  have hpci : s'.pc i = p := by rw [hpc, Function.update_self]
  have hnodei : s'.node i = k := by rw [hnode, Function.update_self]
  constructor
  · intro j
    by_cases hj : j = i
    · subst hj
      rw [hpci, hnodei]
      rcases hgoes.node with rfl | ⟨-, -, rfl, -⟩
      · refine hgoes.tokens (h.tokens j) rfl fun d hd => ?_
        have hmem : (j, .decided (s.node j) d) ∈ s'.log :=
          hlog ▸ List.mem_append_right _ (List.mem_map_of_mem hd)
        rw [hrun.decided hnd hmem, tokensAt, hnd]
      · exact trivial
    · rw [hpc, hnode, Function.update_of_ne hj, Function.update_of_ne hj]
      exact h.tokens j
  · intro j m hnpu hm
    have old : m < s.node j ∨ m = s.node j ∧ (s.pc j).settled = true → ∃ j r, (j, .stored m r) ∈ s'.log := fun hold => by
      obtain ⟨j', r, hmem⟩ := h.settled j m hnpu hold
      exact ⟨j', r, hgrow _ hmem⟩
    by_cases hj : j = i
    · subst hj
      rw [hpci, hnodei] at hm
      rcases hgoes.node with rfl | ⟨hfrom, rfl, rfl, -⟩
      · rcases hm with hlt | ⟨rfl, hset⟩
        · exact old (Or.inl hlt)
        rcases hgoes.settled hset with hpast | hset
        · -- the thread is past the first barrier, so thread 0 has stored the result
          obtain ⟨-, j', hmem⟩ := hrun.result_of_past (i := j) (by rwa [hnodei]) (by rwa [hpci])
          exact ⟨j', _, hnodei ▸ hmem⟩
        · exact old (Or.inr ⟨rfl, hset⟩)
      · rcases hm with hlt | ⟨-, hset⟩
        · rcases Nat.lt_succ_iff_lt_or_eq.mp hlt with hlt | rfl
          · exact old (Or.inl hlt)
          · exact old (Or.inr ⟨rfl, by rw [hfrom]; rfl⟩)
        · exact absurd hset (by simp [Pc.settled])
    · rw [hpc, hnode, Function.update_of_ne hj, Function.update_of_ne hj] at hm
      exact old hm

/-- Thread `j` has come to a place of node `k` from which it does not go back, or to a later node. -/
def State.Beyond (s : State n Q) (k : Nat) (j : Fin n) : Prop := k < s.node j ∨ k = s.node j ∧ (s.pc j).stored = true

/-- A thread that goes on past the store of the node stays past it. -/
theorem Goes.stored {nd : Node} {k k' : Nat} {result : Bool} {p p' : Pc} {es : List Event}
    (hgoes : Goes n i nd k result choice p k' p' es) (hp : p.stored = true) : k < k' ∨ p'.stored = true := by
  cases hgoes with
  | seek hp' | decide _ hp' => cases p <;> simp [Pc.seeking, Pc.deciding, Pc.stored] at hp hp'
  | nextNode => exact Or.inl (Nat.lt_succ_self k)
  | load => exact Or.inr (by split <;> rfl)
  | _ => first | exact Or.inr rfl | exact absurd hp (by simp [Pc.stored])

/-- A thread that is past the store was so before, or it has stored the result, computed its CPU share, or decided that there
is none. -/
theorem Goes.of_stored {nd : Node} {k k' : Nat} {result : Bool} {p p' : Pc} {es : List Event}
    (hgoes : Goes n i nd k result choice p k' p' es) (hp' : p'.stored = true) :
    p.stored = true ∨ (∃ t r, p = .store t r) ∨ (∃ t, p = .share t) ∨ ∃ d, .decided k d ∈ es ∧ p' = afterDecision i nd d := by
  cases hgoes with
  | seek _ hp => cases p' <;> simp [Pc.seeking, Pc.stored] at hp hp'
  | decide d _ => exact Or.inr (Or.inr (Or.inr ⟨d, by simp, rfl⟩))
  | store t r => exact Or.inr (Or.inl ⟨t, r, rfl⟩)
  | share t => exact Or.inr (Or.inr (Or.inl ⟨t, rfl⟩))
  | call | lock | accumulate | nextNode => exact absurd hp' (by simp [Pc.stored])
  | _ => exact Or.inl rfl

omit [SplitArith Q] in
/-- No thread goes back. -/
theorem State.Beyond.went {nd : Node} {k k' : Nat} {p : Pc} {es : List Event} {j : Fin n} (h : s.Beyond k j)
    (hw : Went nodes s s' i choice nd k' p es) : s'.Beyond k j := by
  rw [Beyond, hw.pc, hw.node]
  by_cases hj : j = i
  · subst hj
    rw [Function.update_self, Function.update_self]
    have hle : s.node j ≤ k' := by
      rcases hw.goes.node with rfl | ⟨-, rfl, -⟩ <;> omega
    rcases h with hlt | ⟨rfl, hst⟩
    · exact Or.inl (by omega)
    · rcases hw.goes.stored hst with hlt | hst'
      · exact Or.inl hlt
      · rcases Nat.eq_or_lt_of_le hle with heq | hlt
        · exact Or.inr ⟨heq, hst'⟩
        · exact Or.inl hlt
  · rw [Function.update_of_ne hj, Function.update_of_ne hj]
    exact h

/-- A thread that has arrived at every barrier of its node is in the executor's. -/
theorem PcOk.inNode_of_length {k : Nat} {p : Pc} (h : PcOk env nodes av res i k p)
    (hall : (p.sites (npuAt env nodes n av k) (res k) k).length = (nodeSites (npuAt env nodes n av k) (res k) k).length) :
    p = .inNode := by
  rw [length_nodeSites] at hall
  cases p with
  | inNode => rfl
  | inAccumulated | load =>
    have hnpu : npuAt env nodes n av k = true := h
    simp only [Pc.sites, hnpu, if_true, List.length_singleton] at hall
    split_ifs at hall <;> omega
  | rows | atConverted | inConverted =>
    obtain ⟨hnpu, hres⟩ : npuAt env nodes n av k = true ∧ res k = true := h
    simp [Pc.sites, hnpu, hres] at hall
  | cpu | atNode =>
    simp only [Pc.sites, blockSites] at hall
    split_ifs at hall <;> simp at hall
  | _ =>
    have hnone : (0 : Nat) = 1 + if npuAt env nodes n av k then (if res k then 2 else 1) else 0 := hall
    omega

/-- Once a thread has gone on from node `k`, all threads have done all of their work there. -/
theorem Running.all_done {k : Nat} (h : Running env nodes av res s) (hk : k < s.node i) (j : Fin n) :
    k < s.node j ∨ k = s.node j ∧ s.pc j = .inNode := by
  have hi := h.lower i
  have hij := h.synced i j
  have hj := h.arrived j
  rw [h.barriers, List.length_append] at hj
  simp only [Function.comp_apply] at hij
  have hnext := length_sites_lt (npuAt env nodes n av) res hk
  rcases Nat.lt_trichotomy (s.node j) k with hlt | heq | hlt
  · have hle := length_sites_le (npuAt env nodes n av) res (show s.node j + 1 ≤ k from hlt)
    have hupper := h.upper j
    have hone := length_nodeSites (npuAt env nodes n av k) (res k) k
    omega
  · refine Or.inr ⟨heq.symm, ?_⟩
    rw [← heq] at hnext
    have hok := h.pc j
    have hlast : ((s.pc j).sites (npuAt env nodes n av (s.node j)) (res (s.node j)) (s.node j)).length =
        (nodeSites (npuAt env nodes n av (s.node j)) (res (s.node j)) (s.node j)).length := by
      have := hok.sites_initial.length_le
      omega
    exact hok.inNode_of_length hlast
  · exact Or.inl hlt

/-! ## Before the answer is published -/

/-- Before the answer is published every thread is seeking its decision, and none is about to decide. -/
theorem Fresh.seeking (h : Fresh env s) (i : Fin n) : (s.pc i).seeking = true ∧ (s.pc i).deciding = false := by
  by_cases hmu : s.gMu = some i
  · have hin := h.inside i hmu
    cases hpc : s.pc i <;> rw [hpc] at hin <;> first | exact ⟨rfl, rfl⟩ | exact hin.elim
  · rcases h.outside i hmu with hpc | hpc <;> rw [hpc] <;> exact ⟨rfl, rfl⟩

/-- After a step from there every thread is still seeking its decision at the first node, and has done nothing. -/
theorem Fresh.step_seeking (h : Fresh env s) (hstep : Pool.step env nodes s (i, choice) = some s') :
    s'.log = [] ∧ (∀ j, s'.node j = 0) ∧ ∀ j, (s'.pc j).seeking = true := by
  obtain ⟨nd, k', p, es, hw⟩ := step_went hstep
  obtain ⟨hseek, hnot⟩ := h.seeking i
  obtain ⟨rfl, hp, rfl⟩ : k' = s.node i ∧ p.seeking = true ∧ es = [] := hw.goes.of_seeking hseek hnot
  refine ⟨by rw [hw.log, h.log]; rfl, fun j => ?_, fun j => ?_⟩
  · rw [hw.node, Function.update_eq_self]
    exact h.node j
  · rw [hw.pc]
    by_cases hj : j = i
    · subst hj
      rwa [Function.update_self]
    · rw [Function.update_of_ne hj]
      exact (h.seeking j).1

end Traced

end Pool
end BitnetXdna
