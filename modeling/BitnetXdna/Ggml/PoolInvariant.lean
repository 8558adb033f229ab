import BitnetXdna.Ggml.Pool

/-!
# The invariant of the pool

Until the flag is published nobody has an answer, and one thread at most is in the critical section: it reads the environment
alone (`Fresh`). From then on the answer and the configuration never change, so the decision at a node is a function of the
node (`decisionOf`), and with the results of the accumulates so far (`res`) the barriers of every thread follow one sequence
(`sites`). The invariant of that phase is `Running`: each thread is at a place of that sequence, and the full barriers keep
the threads within one barrier of each other. So a thread that loads `xdna_result`, or converts a row, finds thread 0 at the
same node, past its store (`Running.result_of_past`). `Advances` says what a thread may do without breaking it.
-/

namespace BitnetXdna
namespace Pool

/-! ## The sequence of barriers -/

/-- The barriers of node `k` before the executor's: `npu` says whether the NPU takes part, `res` whether it succeeds. -/
def blockSites (npu res : Bool) (k : Nat) : List Site :=
  if npu then (if res then [.accumulated k, .converted k] else [.accumulated k]) else []

/-- The barriers of node `k`. -/
def nodeSites (npu res : Bool) (k : Nat) : List Site := blockSites npu res k ++ [.node k]

/-- The barriers of the nodes before node `k`. -/
def sites (npu res : Nat → Bool) (k : Nat) : List Site := (List.range k).flatMap fun m => nodeSites (npu m) (res m) m

/-- The barriers of node `k` that a thread has arrived at. -/
def Pc.sites (npu res : Bool) (k : Nat) : Pc → List Site
  | .inAccumulated _ | .load _ | .rows _ _ | .atConverted => [.accumulated k]
  | .inConverted => [.accumulated k, .converted k]
  | .cpu => if npu then [.accumulated k] else []
  | .atNode => blockSites npu res k
  | .inNode => nodeSites npu res k
  | _ => []

/-- A thread inside a barrier. -/
def Pc.waiting : Pc → Nat
  | .inAccumulated _ | .inConverted | .inNode => 1
  | _ => 0

/-- Where thread 0 is once it has stored the result of the node. -/
def Pc.stored : Pc → Bool
  | .atAccumulated _ | .inAccumulated _ | .load _ | .rows _ _ | .atConverted | .inConverted | .cpu | .atNode | .inNode =>
    true
  | _ => false

/-- Past the first barrier of a node where the NPU takes part, and not yet at the executor's. -/
def Pc.past : Pc → Bool
  | .load _ | .rows _ _ | .atConverted | .inConverted | .cpu => true
  | _ => false

section Sites

variable {npu res res' : Nat → Bool} {k k' : Nat}

theorem sites_succ (npu res : Nat → Bool) (k : Nat) :
    sites npu res (k + 1) = sites npu res k ++ nodeSites (npu k) (res k) k := by
  rw [sites, List.range_succ, List.flatMap_append, List.flatMap_singleton]
  rfl

theorem sites_initial (h : k ≤ k') : sites npu res k <+: sites npu res k' := by
  induction h with
  | refl => exact List.prefix_refl _
  | step _ ih =>
    rw [Nat.succ_eq_add_one, sites_succ]
    exact ih.trans (List.prefix_append ..)

theorem length_sites_le (npu res : Nat → Bool) (h : k ≤ k') : (sites npu res k).length ≤ (sites npu res k').length :=
  (sites_initial h).length_le

/-- A later node starts after the executor's barrier of this one. -/
theorem length_sites_lt (npu res : Nat → Bool) (h : k < k') :
    (sites npu res k).length + (nodeSites (npu k) (res k) k).length ≤ (sites npu res k').length := by
  have hle : (sites npu res (k + 1)).length ≤ (sites npu res k').length := length_sites_le npu res h
  rwa [sites_succ, List.length_append] at hle

/-- The sequence up to a node depends on the results of earlier nodes only. -/
theorem sites_congr (h : ∀ m < k, res m = res' m) : sites npu res k = sites npu res' k := by
  refine List.flatMap_congr ?_
  intro m hm
  rw [h m (List.mem_range.mp hm)]

end Sites

theorem length_nodeSites (npu res : Bool) (k : Nat) :
    (nodeSites npu res k).length = 1 + if npu then (if res then 2 else 1) else 0 := by
  cases npu <;> cases res <;> rfl

/-- A thread in a barrier has arrived at one. -/
theorem Pc.waiting_le (npu res : Bool) (k : Nat) (p : Pc) : p.waiting ≤ (p.sites npu res k).length := by
  cases p <;> simp [Pc.waiting, Pc.sites, length_nodeSites]

/-- A thread that has arrived at a barrier of the node is past the store. -/
theorem Pc.stored_of_sites {npu res : Bool} {k : Nat} {p : Pc} (h : p.sites npu res k ≠ []) : p.stored = true := by
  cases p <;> first | rfl | exact absurd rfl h

/-! ## The invariant -/

section Invariant

variable {n : Nat} {Q : Type} [SplitArith Q]

/-- The decision at a node, from the answer and the environment. -/
def decisionOf (env : Environ Q) (nth : Nat) (available : Bool) (nd : Node) : Decision :=
  let c : Config Q := .resolved env
  if available && (bitnetXdnaWorthIt c.gMinTokens nd.ne11 && bitnetXdnaSupports nd.ne00 nd.ne01) then
    .split (if nth > 1 then bitnetXdnaTokenSplit c.gForceTiles c.gSplitFrac nd.ne11 else nd.ne11)
  else if available then .declined else .unavailable

/-- Whether the NPU takes part in node `k`. -/
def npuAt (env : Environ Q) (nodes : List Node) (nth : Nat) (available : Bool) (k : Nat) : Bool :=
  match nodes[k]? with
  | some nd => (decisionOf env nth available nd).npu
  | none => false

/-- What holds of a thread at `p` in node `k`, once the answer is there. -/
def PcOk (env : Environ Q) (nodes : List Node) (available : Bool) (res : Nat → Bool) (i : Fin n) (k : Nat) : Pc → Prop
  | .enter | .lock | .critical | .atNode | .inNode => True
  | .tiles | .splitFrac | .minTokens | .clamp | .device => False
  | .publish state | .unlock state | .answered state => state = available
  | .readTiles => available = true ∧ ∃ nd, nodes[k]? = some nd ∧ decisionOf env n available nd =
      .split (bitnetXdnaTokenSplit (Config.resolved env).gForceTiles (Config.resolved env).gSplitFrac nd.ne11)
  | .readFrac tiles => available = true ∧ ∃ nd, nodes[k]? = some nd ∧ decisionOf env n available nd =
      .split (bitnetXdnaTokenSplit tiles (Config.resolved env).gSplitFrac nd.ne11)
  | .call _ | .wait _ | .accumulating _ | .store _ _ => i.val = 0 ∧ npuAt env nodes n available k = true
  | .share _ => i.val ≠ 0 ∧ npuAt env nodes n available k = true
  | .atAccumulated _ | .inAccumulated _ | .load _ => npuAt env nodes n available k = true
  | .rows _ _ | .atConverted | .inConverted => npuAt env nodes n available k = true ∧ res k = true
  | .cpu => npuAt env nodes n available k = true → res k = false

/-- What holds of an event of thread `i`: decisions are those of the node, results are stored by thread 0 and loaded as
stored, and a node is left by the epilogue exactly when its result is a success. -/
def EventOk (env : Environ Q) (nodes : List Node) (available : Bool) (res : Nat → Bool) (s : State n Q) (i : Fin n) :
    Event → Prop
  | .decided k d => ∃ nd, nodes[k]? = some nd ∧ d = decisionOf env n available nd
  | .begun k => i.val = 0 ∧ k ≤ s.node i
  | .stored k result => i.val = 0 ∧ npuAt env nodes n available k = true ∧ result = res k ∧
    (k < s.node i ∨ k = s.node i ∧ (s.pc i).stored = true)
  | .loaded k result => ∃ j, (j, .stored k result) ∈ s.log
  | .left k epilogue =>
    (npuAt env nodes n available k = false ∧ epilogue = false) ∨
      npuAt env nodes n available k = true ∧ ∃ j, (j, .stored k epilogue) ∈ s.log
  | .row _ _ | .barrier _ => True

/-- No row of a node comes after the beginning of an accumulate of a later node. -/
def InOrder (a b : Fin n × Event) : Prop := ∀ k k' t, a.2 = .begun k → b.2 = .row k' t → k ≤ k'

/-- The pool once the answer `available` is published, when `res` are the results of the accumulates. -/
structure Running (env : Environ Q) (nodes : List Node) (available : Bool) (res : Nat → Bool) (s : State n Q) : Prop where
  fast : s.gStateFast = some available
  state : s.gState = some available
  config : available = true → s.config = .resolved env
  range : ∀ i, s.node i < nodes.length ∨ s.node i = nodes.length ∧ s.pc i = .enter
  pc : ∀ i, PcOk env nodes available res i (s.node i) (s.pc i)
  barriers : ∀ i, s.barriers i = sites (npuAt env nodes n available) res (s.node i) ++
    (s.pc i).sites (npuAt env nodes n available (s.node i)) (res (s.node i)) (s.node i)
  arrived : ∀ i, s.arrived i = (s.barriers i).length
  synced : Synced s.arrived (Pc.waiting ∘ s.pc)
  result : ∀ i : Fin n, i.val = 0 → npuAt env nodes n available (s.node i) = true → (s.pc i).stored = true →
    s.xdnaResult = res (s.node i) ∧ (i, .stored (s.node i) (res (s.node i))) ∈ s.log
  log : ∀ i e, (i, e) ∈ s.log → EventOk env nodes available res s i e
  order : s.log.Pairwise InOrder

/-- The critical section of the first call, as far as the thread that is in it has come. -/
def Initialising (env : Environ Q) (s : State n Q) : Pc → Prop
  | .critical => s.gState = none ∧ s.config = .init
  | .tiles => s.gState = some false ∧ s.config = .init
  | .splitFrac => s.gState = some false ∧ s.config = Config.init.setTiles env
  | .minTokens => s.gState = some false ∧ s.config = (Config.init.setTiles env).setSplit env
  | .clamp => s.gState = some false ∧ s.config = ((Config.init.setTiles env).setSplit env).setMinTokens env
  | .device => s.gState = some false ∧ s.config = .resolved env
  | .publish state => s.gState = some state ∧ (state = true → s.config = .resolved env)
  | _ => False

/-- The pool before the answer is published: only the thread that has the lock has come past it. -/
structure Fresh (env : Environ Q) (s : State n Q) : Prop where
  fast : s.gStateFast = none
  log : s.log = []
  node : ∀ i, s.node i = 0
  arrived : ∀ i, s.arrived i = 0
  outside : ∀ i, s.gMu ≠ some i → s.pc i = .enter ∨ s.pc i = .lock
  free : s.gMu = none → s.gState = none ∧ s.config = .init
  inside : ∀ i, s.gMu = some i → Initialising env s (s.pc i)

/-! ## What the barriers give -/

section Running

variable {env : Environ Q} {nodes : List Node} {av : Bool} {res : Nat → Bool} {s : State n Q} {i j : Fin n}

/-- The barriers of a node that a thread has arrived at are the first ones of that node. -/
theorem PcOk.sites_initial {k : Nat} {p : Pc} (h : PcOk env nodes av res i k p) :
    p.sites (npuAt env nodes n av k) (res k) k <+: nodeSites (npuAt env nodes n av k) (res k) k := by
  cases p with
  | inAccumulated | load =>
    have hnpu : npuAt env nodes n av k = true := h
    rw [hnpu]
    cases res k <;> simp [Pc.sites, nodeSites, blockSites]
  | rows | atConverted | inConverted =>
    obtain ⟨hnpu, hres⟩ : npuAt env nodes n av k = true ∧ res k = true := h
    simp [Pc.sites, nodeSites, blockSites, hnpu, hres]
  | cpu =>
    cases hnpu : npuAt env nodes n av k with
    | false => simp [Pc.sites]
    | true => simp [Pc.sites, nodeSites, blockSites, h hnpu]
  | atNode => exact List.prefix_append ..
  | inNode => exact List.prefix_refl _
  | _ => exact List.nil_prefix

/-- A thread has arrived at the barriers of the nodes before its own, and at the one it is in. -/
theorem Running.lower (h : Running env nodes av res s) (i : Fin n) :
    (sites (npuAt env nodes n av) res (s.node i)).length + (s.pc i).waiting ≤ s.arrived i := by
  rw [h.arrived, h.barriers, List.length_append]
  exact Nat.add_le_add_left (Pc.waiting_le ..) _

/-- A thread has arrived at no barrier of a later node. -/
theorem Running.upper (h : Running env nodes av res s) (i : Fin n) :
    s.arrived i ≤ (sites (npuAt env nodes n av) res (s.node i + 1)).length := by
  rw [h.arrived, h.barriers, sites_succ, List.length_append, List.length_append]
  exact Nat.add_le_add_left (h.pc i).sites_initial.length_le _

/-- How far a thread past the first barrier has come. -/
theorem PcOk.length_of_past {k : Nat} {p : Pc} (h : PcOk env nodes av res i k p)
    (hpast : p.past = true) :
    p.waiting + 1 ≤ (p.sites true (res k) k).length ∧
      (p.sites true (res k) k).length < (nodeSites true (res k) k).length := by
  rw [length_nodeSites]
  cases p with
  | load | cpu => cases res k <;> simp [Pc.sites, Pc.waiting]
  | rows | atConverted | inConverted =>
    obtain ⟨-, hres⟩ : npuAt env nodes n av k = true ∧ res k = true := h
    simp [Pc.sites, Pc.waiting, hres]
  | _ => exact absurd hpast (by simp [Pc.past])

/-- While a thread is past the first barrier of a node where the NPU takes part, and not yet at the executor's, all threads
are in that node and have arrived at its first barrier. -/
theorem Running.all_here (h : Running env nodes av res s) (hnpu : npuAt env nodes n av (s.node i) = true)
    (hpast : (s.pc i).past = true) (j : Fin n) : s.node j = s.node i ∧ (s.pc j).stored = true := by
  obtain ⟨hfirst, hlast⟩ := (h.pc i).length_of_past hpast
  have hi := h.arrived i
  rw [h.barriers, List.length_append, hnpu] at hi
  have hij := h.synced i j
  have hji := h.synced j i
  simp only [Function.comp_apply] at hij hji
  have hlower := h.lower j
  have hupper := h.upper j
  have hnode : s.node j = s.node i := by
    rcases Nat.lt_trichotomy (s.node j) (s.node i) with hlt | heq | hlt
    · have hle := length_sites_le (npuAt env nodes n av) res (show s.node j + 1 ≤ s.node i from hlt)
      omega
    · exact heq
    · have hle := length_sites_lt (npuAt env nodes n av) res hlt
      rw [hnpu] at hle
      omega
  have hsome : (s.pc j).sites true (res (s.node i)) (s.node i) ≠ [] := by
    intro hnil
    have hj := h.arrived j
    rw [h.barriers, hnode, hnpu, hnil, List.append_nil] at hj
    omega
  exact ⟨hnode, Pc.stored_of_sites hsome⟩

/-- There, `xdna_result` is what thread 0 stored for the node. -/
theorem Running.result_of_past (h : Running env nodes av res s) (hnpu : npuAt env nodes n av (s.node i) = true)
    (hpast : (s.pc i).past = true) :
    s.xdnaResult = res (s.node i) ∧ ∃ j, (j, .stored (s.node i) (res (s.node i))) ∈ s.log := by
  have hpos : 0 < n := Nat.lt_of_le_of_lt (Nat.zero_le _) i.isLt
  obtain ⟨hnode, hstored⟩ := h.all_here hnpu hpast ⟨0, hpos⟩
  have hzero := h.result ⟨0, hpos⟩ rfl (by rwa [hnode]) hstored
  rw [hnode] at hzero
  exact ⟨hzero.1, _, hzero.2⟩

/-! ## What a step keeps -/

theorem barriersOf_append (i : Fin n) (l l' : List (Fin n × Event)) :
    barriersOf i (l ++ l') = barriersOf i l ++ barriersOf i l' := List.filterMap_append

/-- Events other than arrivals add no barrier. -/
theorem barriersOf_eq_nil {es : List Event} (h : ∀ e ∈ es, ∀ b, e ≠ .barrier b) :
    barriersOf j (es.map (Prod.mk i)) = [] := by
  refine List.filterMap_eq_nil_iff.mpr ?_
  intro x hx
  obtain ⟨e, he, rfl⟩ := List.mem_map.mp hx
  cases e with
  | barrier b => exact absurd rfl (h _ he b)
  | _ => rfl

/-- What holds of an event keeps holding while the threads go on. -/
theorem EventOk.mono {s' : State n Q} {e : Event} (h : EventOk env nodes av res s i e) (hlog : ∀ x ∈ s.log, x ∈ s'.log)
    (hnode : s.node i < s'.node i ∨
      s'.node i = s.node i ∧ ((s.pc i).stored = true → (s'.pc i).stored = true)) :
    EventOk env nodes av res s' i e := by
  cases e with
  | decided k d => exact h
  | begun k =>
    obtain ⟨hi, hk⟩ := h
    exact ⟨hi, by omega⟩
  | stored k result =>
    obtain ⟨hi, hnpu, hres, hk⟩ := h
    refine ⟨hi, hnpu, hres, ?_⟩
    rcases hnode with hlt | ⟨heq, hstored⟩
    · exact Or.inl (by omega)
    · rcases hk with hk | ⟨hk, hp⟩
      · exact Or.inl (by omega)
      · exact Or.inr ⟨by omega, hstored hp⟩
  | loaded k result =>
    obtain ⟨j, hj⟩ := h
    exact ⟨j, hlog _ hj⟩
  | left k epilogue =>
    rcases h with h | ⟨hnpu, j, hj⟩
    · exact Or.inl h
    · exact Or.inr ⟨hnpu, j, hlog _ hj⟩
  | row | barrier => exact trivial

/-- Thread `i` goes on at `p` in node `k`, having done `es`. -/
def State.advance (s : State n Q) (i : Fin n) (k : Nat) (p : Pc) (es : List Event) : State n Q :=
  { s.move i p es with
    node := Function.update s.node i k
    arrived := Function.update s.arrived i (s.arrived i + (barriersOf i (es.map (Prod.mk i))).length) }

omit [SplitArith Q] in
theorem State.move_eq_advance {p : Pc} {es : List Event} (h : ∀ e ∈ es, ∀ b, e ≠ .barrier b) :
    s.move i p es = s.advance i (s.node i) p es := by
  simp [advance, barriersOf_eq_nil h, State.move]

omit [SplitArith Q] in
theorem State.arrive_eq_advance (b : Site) (p : Pc) : s.arrive i b p = s.advance i (s.node i) p [.barrier b] := by
  simp [advance, State.arrive, barriersOf, State.move]

/-- What thread `i` may do: its new place fits its node, its barriers and its events. -/
structure Advances (env : Environ Q) (nodes : List Node) (av : Bool) (res : Nat → Bool) (s : State n Q) (i : Fin n) (k : Nat)
    (p : Pc) (es : List Event) : Prop where
  range : k < nodes.length ∨ k = nodes.length ∧ p = .enter
  pc : PcOk env nodes av res i k p
  node : s.node i < k ∨ k = s.node i ∧ ((s.pc i).stored = true → p.stored = true)
  barriers : sites (npuAt env nodes n av) res k ++ p.sites (npuAt env nodes n av k) (res k) k =
    s.barriers i ++ barriersOf i (es.map (Prod.mk i))
  synced : Synced (Function.update s.arrived i (s.arrived i + (barriersOf i (es.map (Prod.mk i))).length))
    (Function.update (Pc.waiting ∘ s.pc) i p.waiting)
  result : i.val = 0 → npuAt env nodes n av k = true → p.stored = true →
    k = s.node i ∧ (s.pc i).stored = true ∨ s.xdnaResult = res k ∧ .stored k (res k) ∈ es
  events : ∀ e ∈ es, EventOk env nodes av res (s.advance i k p es) i e
  order : (es.map (Prod.mk i)).Pairwise InOrder
  row : ∀ k' t, .row k' t ∈ es → ∀ j m, (j, .begun m) ∈ s.log → m ≤ k'

/-- A thread goes on. -/
theorem Running.advance {k : Nat} {p : Pc} {es : List Event} (h : Running env nodes av res s)
    (ha : Advances env nodes av res s i k p es) : Running env nodes av res (s.advance i k p es) := by
  have hpc : ∀ j, j ≠ i → (s.advance i k p es).pc j = s.pc j := fun j hj => Function.update_of_ne hj ..
  have hnode : ∀ j, j ≠ i → (s.advance i k p es).node j = s.node j := fun j hj => Function.update_of_ne hj ..
  have hpci : (s.advance i k p es).pc i = p := Function.update_self ..
  have hnodei : (s.advance i k p es).node i = k := Function.update_self ..
  have hbarriers : ∀ j, (s.advance i k p es).barriers j = s.barriers j ++ barriersOf j (es.map (Prod.mk i)) := fun j =>
    barriersOf_append ..
  have hother : ∀ j, j ≠ i → barriersOf j (es.map (Prod.mk i)) = [] := by
    intro j hj
    refine List.filterMap_eq_nil_iff.mpr ?_
    intro x hx
    obtain ⟨e, -, rfl⟩ := List.mem_map.mp hx
    cases e with
    | barrier b => exact if_neg (Ne.symm hj)
    | _ => rfl
  have hmono : ∀ j e, EventOk env nodes av res s j e → EventOk env nodes av res (s.advance i k p es) j e := by
    intro j e he
    refine he.mono (fun x hx => List.mem_append_left _ hx) ?_
    by_cases hj : j = i
    · subst hj
      rw [hpci, hnodei]
      exact ha.node
    · rw [hpc j hj, hnode j hj]
      exact Or.inr ⟨rfl, id⟩
  constructor
  case fast => exact h.fast
  case state => exact h.state
  case config => exact h.config
  case range =>
    intro j
    by_cases hj : j = i
    · subst hj
      rw [hpci, hnodei]
      exact ha.range
    · rw [hpc j hj, hnode j hj]
      exact h.range j
  case pc =>
    intro j
    by_cases hj : j = i
    · subst hj
      rw [hpci, hnodei]
      exact ha.pc
    · rw [hpc j hj, hnode j hj]
      exact h.pc j
  case barriers =>
    intro j
    rw [hbarriers]
    by_cases hj : j = i
    · subst hj
      rw [hpci, hnodei]
      exact ha.barriers.symm
    · rw [hpc j hj, hnode j hj, hother j hj, List.append_nil]
      exact h.barriers j
  case arrived =>
    intro j
    rw [hbarriers, List.length_append, ← h.arrived]
    by_cases hj : j = i
    · subst hj
      exact Function.update_self ..
    · rw [hother j hj]
      exact Function.update_of_ne hj ..
  case synced =>
    have hsynced := ha.synced
    rwa [← Function.comp_update] at hsynced
  case result =>
    intro j hj hnpu hstored
    by_cases hji : j = i
    · subst hji
      rw [hnodei] at hnpu ⊢
      rw [hpci] at hstored
      rcases ha.result hj hnpu hstored with ⟨rfl, hold⟩ | ⟨hval, hmem⟩
      · obtain ⟨hval, hmem⟩ := h.result j hj hnpu hold
        exact ⟨hval, List.mem_append_left _ hmem⟩
      · exact ⟨hval, List.mem_append_right _ (List.mem_map.mpr ⟨_, hmem, rfl⟩)⟩
    · rw [hnode j hji] at hnpu ⊢
      rw [hpc j hji] at hstored
      obtain ⟨hval, hmem⟩ := h.result j hj hnpu hstored
      exact ⟨hval, List.mem_append_left _ hmem⟩
  case log =>
    intro j e he
    rcases List.mem_append.mp he with hold | hnew
    · exact hmono j e (h.log j e hold)
    · obtain ⟨e', he', heq⟩ := List.mem_map.mp hnew
      obtain ⟨rfl, rfl⟩ := Prod.mk.inj heq
      exact ha.events _ he'
  case order =>
    refine List.pairwise_append.mpr ⟨h.order, ha.order, fun x hx y hy m k' t hxm hyk => ?_⟩
    obtain ⟨e', he', rfl⟩ := List.mem_map.mp hy
    obtain ⟨j, e⟩ := x
    dsimp only at hxm hyk
    subst hxm hyk
    exact ha.row k' t he' j m hx

end Running

end Invariant

end Pool
end BitnetXdna
