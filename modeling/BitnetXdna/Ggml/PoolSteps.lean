import BitnetXdna.Ggml.PoolInvariant

/-!
# The steps of the pool

Once the answer is there, every step of a thread keeps the invariant (`Running.step`). One lemma each for the ways a thread
goes on: inside its node without an event or with one, to a barrier, and past the executor's to the next node; and for the
steps with an argument of their own: deciding, storing and loading the result, converting a row, and leaving the node.
-/

namespace BitnetXdna
namespace Pool

section Steps

variable {n : Nat} {Q : Type} [SplitArith Q] {env : Environ Q} {nodes : List Node} {av : Bool} {res : Nat → Bool}
  {s : State n Q} {i j : Fin n}

/-- A thread goes on inside its node, to a place with the same barriers behind it. -/
theorem Running.move {p : Pc} {es : List Event} (h : Running env nodes av res s) (hlt : s.node i < nodes.length)
    (hp : PcOk env nodes av res i (s.node i) p)
    (hsites : p.sites (npuAt env nodes n av (s.node i)) (res (s.node i)) (s.node i) =
      (s.pc i).sites (npuAt env nodes n av (s.node i)) (res (s.node i)) (s.node i))
    (hwait : (s.pc i).waiting ≤ p.waiting ∨ s.complete i) (hstored : (s.pc i).stored = true → p.stored = true)
    (hresult : i.val = 0 → npuAt env nodes n av (s.node i) = true → p.stored = true →
      (s.pc i).stored = true ∨ s.xdnaResult = res (s.node i) ∧ .stored (s.node i) (res (s.node i)) ∈ es)
    (hno : ∀ e ∈ es, ∀ b, e ≠ .barrier b) (hes : ∀ e ∈ es, EventOk env nodes av res (s.move i p es) i e)
    (hone : (es.map (Prod.mk i)).Pairwise InOrder)
    (hrow : ∀ k t, .row k t ∈ es → ∀ j m, (j, .begun m) ∈ s.log → m ≤ k) :
    Running env nodes av res (s.move i p es) := by
  rw [State.move_eq_advance hno] at hes ⊢
  refine h.advance ⟨Or.inl hlt, hp, Or.inr ⟨rfl, hstored⟩, ?_, ?_, fun hi hnpu hst => ?_, hes, hone, hrow⟩
  · rw [barriersOf_eq_nil hno, List.append_nil, h.barriers, hsites]
  · rw [barriersOf_eq_nil hno, List.length_nil, Nat.add_zero, Function.update_eq_self]
    rcases hwait with hle | hall
    · exact h.synced.move hle
    · exact h.synced.pass hall _
  · exact (hresult hi hnpu hst).imp_left (And.intro rfl)

/-- A thread goes on without an event. -/
theorem Running.moveSilent {p : Pc} (h : Running env nodes av res s) (hlt : s.node i < nodes.length)
    (hp : PcOk env nodes av res i (s.node i) p)
    (hsites : p.sites (npuAt env nodes n av (s.node i)) (res (s.node i)) (s.node i) =
      (s.pc i).sites (npuAt env nodes n av (s.node i)) (res (s.node i)) (s.node i))
    (hwait : (s.pc i).waiting ≤ p.waiting ∨ s.complete i) (hstored : (s.pc i).stored = true → p.stored = true)
    (hresult : i.val = 0 → npuAt env nodes n av (s.node i) = true → p.stored = true → (s.pc i).stored = true) :
    Running env nodes av res (s.move i p []) :=
  h.move hlt hp hsites hwait hstored (fun hi hnpu hst => Or.inl (hresult hi hnpu hst)) (by simp) (by simp) (by simp) (by simp)

/-- A thread goes on with one event, which is neither an arrival nor a row. -/
theorem Running.moveEvent {p : Pc} {e : Event} (h : Running env nodes av res s) (hlt : s.node i < nodes.length)
    (hp : PcOk env nodes av res i (s.node i) p)
    (hsites : p.sites (npuAt env nodes n av (s.node i)) (res (s.node i)) (s.node i) =
      (s.pc i).sites (npuAt env nodes n av (s.node i)) (res (s.node i)) (s.node i))
    (hwait : (s.pc i).waiting ≤ p.waiting ∨ s.complete i) (hstored : (s.pc i).stored = true → p.stored = true)
    (hresult : i.val = 0 → npuAt env nodes n av (s.node i) = true → p.stored = true →
      (s.pc i).stored = true ∨ s.xdnaResult = res (s.node i) ∧ e = .stored (s.node i) (res (s.node i)))
    (hno : ∀ b, e ≠ .barrier b) (hrow : ∀ k t, e ≠ .row k t) (he : EventOk env nodes av res (s.move i p [e]) i e) :
    Running env nodes av res (s.move i p [e]) :=
  h.move hlt hp hsites hwait hstored
    (fun hi hnpu hst => (hresult hi hnpu hst).imp_right fun ⟨hval, heq⟩ => ⟨hval, by simp [heq]⟩)
    (by simpa using hno) (by simpa using he) (by simp) fun k t hmem => absurd (List.mem_singleton.mp hmem).symm (hrow k t)

/-- A thread arrives at the next barrier of its node. -/
theorem Running.arrive {p : Pc} {b : Site} (h : Running env nodes av res s) (hlt : s.node i < nodes.length)
    (hp : PcOk env nodes av res i (s.node i) p)
    (hsites : p.sites (npuAt env nodes n av (s.node i)) (res (s.node i)) (s.node i) =
      (s.pc i).sites (npuAt env nodes n av (s.node i)) (res (s.node i)) (s.node i) ++ [b])
    (hout : (s.pc i).waiting = 0) (hin : p.waiting = 1) (hst : (s.pc i).stored = true) (hst' : p.stored = true) :
    Running env nodes av res (s.arrive i b p) := by
  have hb : barriersOf i ([Event.barrier b].map (Prod.mk i)) = [b] := by simp [barriersOf]
  rw [State.arrive_eq_advance]
  refine h.advance ⟨Or.inl hlt, hp, Or.inr ⟨rfl, fun _ => hst'⟩, ?_, ?_, fun _ _ _ => Or.inl ⟨rfl, hst⟩, by simp [EventOk],
    by simp, by simp⟩
  · rw [hb, h.barriers, hsites, List.append_assoc]
  · rw [hb, hin]
    exact h.synced.arrive hout

/-- A thread that passes the executor's barrier enters the next node. -/
theorem Running.nextNode (h : Running env nodes av res s) (hlt : s.node i < nodes.length) (hpc : s.pc i = .inNode)
    (hall : s.complete i) :
    Running env nodes av res { s.move i .enter [] with node := Function.update s.node i (s.node i + 1) } := by
  have hadvance : { s.move i .enter [] with node := Function.update s.node i (s.node i + 1) } =
      s.advance i (s.node i + 1) .enter [] := by
    simp [State.advance, State.move, barriersOf]
  rw [hadvance]
  refine h.advance ⟨?_, trivial, Or.inl (Nat.lt_succ_self _), ?_, ?_, fun _ _ hst => absurd hst (by simp [Pc.stored]),
    by simp, by simp, by simp⟩
  · rcases Nat.lt_or_ge (s.node i + 1) nodes.length with hnext | hend
    · exact Or.inl hnext
    · exact Or.inr ⟨by omega, rfl⟩
  · rw [h.barriers, hpc, sites_succ]
    rfl
  · simp only [List.map_nil, barriersOf, List.filterMap_nil, List.length_nil, Nat.add_zero, Function.update_eq_self]
    exact h.synced.pass hall _

/-- When thread 0 is about to store the result of a node, no thread depends on it yet: every thread is in an earlier node, or
in this one before the first barrier. -/
theorem Running.before_store {t : Nat} {result : Bool} (h : Running env nodes av res s) (hpc : s.pc i = .store t result)
    (j : Fin n) : s.node j < s.node i ∨ s.node j = s.node i ∧
      ((s.pc j).sites true (res (s.node i)) (s.node i)).length ≤ (s.pc j).waiting := by
  have hok := h.pc i
  rw [hpc] at hok
  obtain ⟨-, hnpu⟩ : i.val = 0 ∧ npuAt env nodes n av (s.node i) = true := hok
  have hi := h.arrived i
  rw [h.barriers, hpc, List.length_append] at hi
  have hji := h.synced j i
  simp only [Function.comp_apply] at hji
  have hlower := h.lower j
  have hzero : ((Pc.store t result).sites (npuAt env nodes n av (s.node i)) (res (s.node i)) (s.node i)).length = 0 := rfl
  rcases Nat.lt_trichotomy (s.node j) (s.node i) with hlt | heq | hlt
  · exact Or.inl hlt
  · have hj := h.arrived j
    rw [h.barriers, heq, hnpu, List.length_append] at hj
    exact Or.inr ⟨heq, by omega⟩
  · have hle := length_sites_lt (npuAt env nodes n av) res hlt
    rw [length_nodeSites] at hle
    omega

/-- A place before the first barrier, or in it, does not depend on the result. -/
theorem PcOk.of_early {k : Nat} {p : Pc} (h : PcOk env nodes av res i k p)
    (hearly : (p.sites true (res k) k).length ≤ p.waiting) (res' : Nat → Bool) :
    PcOk env nodes av res' i k p ∧ p.sites true (res' k) k = p.sites true (res k) k := by
  cases p with
  | load | rows | atConverted | inConverted | cpu => exact absurd hearly (by simp [Pc.sites, Pc.waiting])
  | atNode => cases hr : res k <;> simp [Pc.sites, Pc.waiting, blockSites, hr] at hearly
  | inNode => cases hr : res k <;> simp [Pc.sites, Pc.waiting, nodeSites, blockSites, hr] at hearly
  | _ => exact ⟨h, rfl⟩

theorem PcOk.congr {k : Nat} {p : Pc} {res' : Nat → Bool} (h : PcOk env nodes av res i k p) (hres : res k = res' k) :
    PcOk env nodes av res' i k p := by
  cases p with
  | rows | atConverted | inConverted | cpu => simpa only [PcOk, hres] using h
  | _ => exact h

/-- Thread 0 stores the result of a node. -/
theorem Running.setResult {t : Nat} {result : Bool} (h : Running env nodes av res s) (hpc : s.pc i = .store t result) :
    Running env nodes av (Function.update res (s.node i) result) { s with xdnaResult := result } := by
  have hok := h.pc i
  rw [hpc] at hok
  obtain ⟨hi, hnpu⟩ : i.val = 0 ∧ npuAt env nodes n av (s.node i) = true := hok
  have hother : ∀ m, m ≠ s.node i → Function.update res (s.node i) result m = res m := fun m hm => Function.update_of_ne hm ..
  have hsites : ∀ j, sites (npuAt env nodes n av) (Function.update res (s.node i) result) (s.node j) =
      sites (npuAt env nodes n av) res (s.node j) := by
    intro j
    refine sites_congr fun m hm => hother m ?_
    rcases h.before_store hpc j with hlt | ⟨heq, -⟩ <;> omega
  have hplace : ∀ j, PcOk env nodes av (Function.update res (s.node i) result) j (s.node j) (s.pc j) ∧
      (s.pc j).sites (npuAt env nodes n av (s.node j)) (Function.update res (s.node i) result (s.node j)) (s.node j) =
        (s.pc j).sites (npuAt env nodes n av (s.node j)) (res (s.node j)) (s.node j) := by
    intro j
    rcases h.before_store hpc j with hlt | ⟨heq, hearly⟩
    · have hsame := hother (s.node j) (Nat.ne_of_lt hlt)
      exact ⟨(h.pc j).congr hsame.symm, by rw [hsame]⟩
    · have hpcj := h.pc j
      rw [heq] at hpcj ⊢
      rw [hnpu]
      exact hpcj.of_early hearly _
  refine ⟨h.fast, h.state, h.config, h.range, fun j => (hplace j).1, fun j => ?_, h.arrived, h.synced, fun j hj _ hst => ?_,
    fun j e he => ?_, h.order⟩
  · dsimp only
    rw [hsites, (hplace j).2]
    exact h.barriers j
  · obtain rfl : j = i := Fin.ext (hj.trans hi.symm)
    dsimp only at hst
    rw [hpc] at hst
    exact absurd hst (by simp [Pc.stored])
  · have hold := h.log j e he
    cases e with
    | stored k r =>
      obtain ⟨hj, hnpuk, hr, hk⟩ := hold
      obtain rfl : j = i := Fin.ext (hj.trans hi.symm)
      have hlt : k < s.node j := by
        rcases hk with hk | ⟨-, hst⟩
        · exact hk
        · rw [hpc] at hst
          exact absurd hst (by simp [Pc.stored])
      exact ⟨hj, hnpuk, hr.trans (hother k (Nat.ne_of_lt hlt)).symm, Or.inl hlt⟩
    | _ => exact hold

/-- Taking or releasing the lock, or publishing the answer again, changes nothing. -/
theorem Running.setMu (h : Running env nodes av res s) (mu : Option (Fin n)) : Running env nodes av res { s with gMu := mu } :=
  ⟨h.fast, h.state, h.config, h.range, h.pc, h.barriers, h.arrived, h.synced, h.result, h.log, h.order⟩

theorem Running.setFast (h : Running env nodes av res s) : Running env nodes av res { s with gStateFast := some av } :=
  ⟨rfl, h.state, h.config, h.range, h.pc, h.barriers, h.arrived, h.synced, h.result, h.log, h.order⟩

/-- Where a decision takes a thread: to the CPU block if the NPU takes no part; else thread 0 to its call, and another to
its share or to the barrier. -/
theorem afterDecision_cases (i : Fin n) (nd : Node) (d : Decision) :
    (d.npu = false ∧ afterDecision i nd d = .cpu) ∨
      d.npu = true ∧ ((i.val = 0 ∧ ∃ t, afterDecision i nd d = .call t) ∨
        i.val ≠ 0 ∧ ∃ t, afterDecision i nd d = .share t ∨ afterDecision i nd d = .atAccumulated t) := by
  cases d with
  | unavailable | declined => exact Or.inl ⟨rfl, rfl⟩
  | split t =>
    by_cases ht : t > 0
    · refine Or.inr ⟨decide_eq_true ht, ?_⟩
      simp only [afterDecision, if_pos ht]
      by_cases hi : i.val = 0
      · exact Or.inl ⟨hi, _, if_pos hi⟩
      · refine Or.inr ⟨hi, t.toNat, ?_⟩
        rw [if_neg hi]
        split
        · exact Or.inl rfl
        · exact Or.inr rfl
    · refine Or.inl ⟨decide_eq_false ht, ?_⟩
      simp only [afterDecision, if_neg ht]

/-- Before the first barrier of the node, and before the store. -/
def Pc.head : Pc → Bool
  | .enter | .lock | .critical | .tiles | .splitFrac | .minTokens | .clamp | .device | .publish _ | .unlock _ | .answered _
  | .readTiles | .readFrac _ | .call _ | .wait _ | .accumulating _ | .store _ _ | .share _ => true
  | _ => false

theorem Pc.of_head {p : Pc} (h : p.head = true) :
    (∀ npu res k, p.sites npu res k = []) ∧ p.waiting = 0 ∧ p.stored = false := by
  cases p <;> first | exact ⟨fun _ _ _ => rfl, rfl, rfl⟩ | exact absurd h (by simp [Pc.head])

/-- A step before the first barrier. -/
theorem Running.moveHead {p : Pc} (h : Running env nodes av res s) (hlt : s.node i < nodes.length)
    (hfrom : (s.pc i).head = true) (hto : p.head = true) (hp : PcOk env nodes av res i (s.node i) p) :
    Running env nodes av res (s.move i p []) := by
  obtain ⟨hsites, hwait, hst⟩ := Pc.of_head hfrom
  obtain ⟨hsites', hwait', hst'⟩ := Pc.of_head hto
  refine h.moveSilent hlt hp (by rw [hsites, hsites']) (Or.inl (by rw [hwait, hwait'])) (by simp [hst]) ?_
  simp [hst']

/-- A thread decides. -/
theorem Running.decide {nd : Node} (h : Running env nodes av res s) (hnd : nodes[s.node i]? = some nd)
    (hfrom : (s.pc i).head = true) : Running env nodes av res (s.decide i nd (decisionOf env n av nd)) := by
  obtain ⟨hsites, hwait, hst⟩ := Pc.of_head hfrom
  have hlt : s.node i < nodes.length := (List.getElem?_eq_some_iff.mp hnd).1
  have hnpu : npuAt env nodes n av (s.node i) = (decisionOf env n av nd).npu := by rw [npuAt, hnd]
  have hevent : EventOk env nodes av res
      (s.move i (afterDecision i nd (decisionOf env n av nd)) [.decided (s.node i) (decisionOf env n av nd)]) i
      (.decided (s.node i) (decisionOf env n av nd)) := ⟨nd, hnd, rfl⟩
  rw [State.decide]
  rcases afterDecision_cases i nd (decisionOf env n av nd) with ⟨hno, hp⟩ | ⟨hyes, hp⟩
  · rw [hp] at hevent ⊢
    rw [hno] at hnpu
    refine h.moveEvent hlt (by simp [PcOk, hnpu]) ?_ (Or.inl (by simp [hwait])) (by simp [hst]) (by simp [hnpu]) (by simp)
      (by simp) hevent
    rw [hsites, hnpu]
    rfl
  · rw [hyes] at hnpu
    rcases hp with ⟨hi, t, hp⟩ | ⟨hi, t, hp | hp⟩
    · rw [hp] at hevent ⊢
      refine h.moveEvent hlt ⟨hi, hnpu⟩ ?_ (Or.inl (by simp [hwait])) (by simp [hst]) (by simp [Pc.stored]) (by simp)
        (by simp) hevent
      rw [hsites]
      rfl
    · rw [hp] at hevent ⊢
      refine h.moveEvent hlt ⟨hi, hnpu⟩ ?_ (Or.inl (by simp [hwait])) (by simp [hst]) (fun hi0 => absurd hi0 hi) (by simp)
        (by simp) hevent
      rw [hsites]
      rfl
    · rw [hp] at hevent ⊢
      refine h.moveEvent hlt hnpu ?_ (Or.inl (by simp [hwait])) (by simp [hst]) (fun hi0 => absurd hi0 hi) (by simp)
        (by simp) hevent
      rw [hsites]
      rfl

/-- The decision, from a configuration that has been read. -/
theorem decisionOf_eq {c : Config Q} (nth : Nat) (nd : Node) (hc : av = true → c = .resolved env) :
    decisionOf env nth av nd =
      if av && (bitnetXdnaWorthIt c.gMinTokens nd.ne11 && bitnetXdnaSupports nd.ne00 nd.ne01) then
        .split (if nth > 1 then bitnetXdnaTokenSplit c.gForceTiles c.gSplitFrac nd.ne11 else nd.ne11)
      else if av then .declined else .unavailable := by
  cases av with
  | false => simp only [decisionOf, Bool.false_and, Bool.false_eq_true, if_false]
  | true => simp only [decisionOf, hc rfl]

/-- A thread with the answer decides, or reads the configuration for its share. -/
theorem Running.answered {s' : State n Q} {nd : Node} (h : Running env nodes av res s) (hnd : nodes[s.node i]? = some nd)
    (hpc : s.pc i = .answered av)
    (hstep : (if av && (bitnetXdnaWorthIt s.config.gMinTokens nd.ne11 && bitnetXdnaSupports nd.ne00 nd.ne01) then
      if n > 1 then some (s.move i .readTiles []) else some (s.decide i nd (.split nd.ne11))
      else some (s.decide i nd (if av then .declined else .unavailable))) = some s') :
    Running env nodes av res s' := by
  have hlt : s.node i < nodes.length := (List.getElem?_eq_some_iff.mp hnd).1
  have hhead : (s.pc i).head = true := by
    rw [hpc]
    rfl
  have hdecision := decisionOf_eq n nd h.config
  by_cases hyes : (av && (bitnetXdnaWorthIt s.config.gMinTokens nd.ne11 && bitnetXdnaSupports nd.ne00 nd.ne01)) = true
  · have hav : av = true := (Bool.and_eq_true_iff.mp hyes).1
    rw [if_pos hyes] at hstep hdecision
    by_cases hmany : n > 1
    · rw [if_pos hmany, Option.some.injEq] at hstep
      subst hstep
      rw [if_pos hmany, h.config hav] at hdecision
      exact h.moveHead hlt hhead rfl ⟨hav, nd, hnd, hdecision⟩
    · rw [if_neg hmany, Option.some.injEq] at hstep
      subst hstep
      rw [if_neg hmany] at hdecision
      rw [← hdecision]
      exact h.decide hnd hhead
  · rw [if_neg hyes, Option.some.injEq] at hstep
    subst hstep
    rw [if_neg hyes] at hdecision
    rw [← hdecision]
    exact h.decide hnd hhead

/-- A thread loads what thread 0 stored for the node. -/
theorem Running.load {t rb re : Nat} (h : Running env nodes av res s) (hlt : s.node i < nodes.length)
    (hpc : s.pc i = .load t) :
    Running env nodes av res (s.move i (if s.xdnaResult then .rows rb re else .cpu) [.loaded (s.node i) s.xdnaResult]) := by
  have hok := h.pc i
  rw [hpc] at hok
  have hnpu : npuAt env nodes n av (s.node i) = true := hok
  obtain ⟨hval, j, hstored⟩ := h.result_of_past hnpu (by rw [hpc]; rfl)
  have hloaded : ∀ p, EventOk env nodes av res (s.move i p [.loaded (s.node i) (res (s.node i))]) i
      (.loaded (s.node i) (res (s.node i))) := fun p => ⟨j, List.mem_append_left _ hstored⟩
  rw [hval]
  cases hres : res (s.node i) with
  | true =>
    rw [hres] at hloaded
    exact h.moveEvent hlt ⟨hnpu, hres⟩ (by simp [hpc, Pc.sites]) (Or.inl (by simp [hpc, Pc.waiting]))
      (by simp [Pc.stored]) (by simp [hpc, Pc.stored]) (by simp) (by simp) (hloaded _)
  | false =>
    rw [hres] at hloaded
    exact h.moveEvent hlt (fun _ => hres) (by simp [hpc, Pc.sites, hnpu]) (Or.inl (by simp [hpc, Pc.waiting]))
      (by simp [Pc.stored]) (by simp [hpc, Pc.stored]) (by simp) (by simp) (hloaded _)

/-- A thread converts a row: thread 0 is in the same node, so it has begun no accumulate of a later one. -/
theorem Running.convertRow {r re : Nat} (h : Running env nodes av res s) (hlt : s.node i < nodes.length)
    (hpc : s.pc i = .rows r re) : Running env nodes av res (s.move i (.rows (r + 1) re) [.row (s.node i) r]) := by
  have hok := h.pc i
  rw [hpc] at hok
  refine h.move hlt hok (by simp [hpc, Pc.sites]) (Or.inl (by simp [hpc, Pc.waiting])) (by simp [Pc.stored])
    (by simp [hpc, Pc.stored]) (by simp) (by simp [EventOk]) (by simp) ?_
  intro k t hk j m hm
  obtain ⟨rfl, -⟩ := Event.row.inj (List.mem_singleton.mp hk)
  obtain ⟨-, hle⟩ := h.log j _ hm
  rwa [(h.all_here hok.1 (by rw [hpc]; rfl) j).1] at hle

/-- A thread leaves the node by the CPU block: the NPU took no part, or it failed. -/
theorem Running.leaveCpu (h : Running env nodes av res s) (hlt : s.node i < nodes.length) (hpc : s.pc i = .cpu) :
    Running env nodes av res (s.move i .atNode [.left (s.node i) false]) := by
  have hok := h.pc i
  rw [hpc] at hok
  cases hnpu : npuAt env nodes n av (s.node i) with
  | false =>
    exact h.moveEvent hlt trivial (by simp [hpc, Pc.sites, blockSites, hnpu]) (Or.inl (by simp [hpc, Pc.waiting]))
      (by simp [Pc.stored]) (by simp [hpc, Pc.stored]) (by simp) (by simp) (Or.inl ⟨hnpu, rfl⟩)
  | true =>
    have hres : res (s.node i) = false := hok hnpu
    obtain ⟨-, j, hstored⟩ := h.result_of_past hnpu (by rw [hpc]; rfl)
    rw [hres] at hstored
    exact h.moveEvent hlt trivial (by simp [hpc, Pc.sites, blockSites, hnpu, hres])
      (Or.inl (by simp [hpc, Pc.waiting])) (by simp [Pc.stored]) (by simp [hpc, Pc.stored]) (by simp) (by simp)
      (Or.inr ⟨hnpu, j, List.mem_append_left _ hstored⟩)

/-- A thread leaves the node by the epilogue. -/
theorem Running.leaveEpilogue (h : Running env nodes av res s) (hlt : s.node i < nodes.length) (hpc : s.pc i = .inConverted)
    (hall : s.complete i) : Running env nodes av res (s.move i .atNode [.left (s.node i) true]) := by
  have hok := h.pc i
  rw [hpc] at hok
  obtain ⟨hnpu, hres⟩ : npuAt env nodes n av (s.node i) = true ∧ res (s.node i) = true := hok
  obtain ⟨-, j, hstored⟩ := h.result_of_past hnpu (by rw [hpc]; rfl)
  rw [hres] at hstored
  exact h.moveEvent hlt trivial (by simp [hpc, Pc.sites, blockSites, hnpu, hres]) (Or.inr hall) (by simp [Pc.stored])
    (by simp [hpc, Pc.stored]) (by simp) (by simp) (Or.inr ⟨hnpu, j, List.mem_append_left _ hstored⟩)

/-- Thread 0 stores the result of its accumulate. -/
theorem Running.store {t : Nat} {result : Bool} (h : Running env nodes av res s) (hlt : s.node i < nodes.length)
    (hpc : s.pc i = .store t result) :
    Running env nodes av (Function.update res (s.node i) result)
      ({ s with xdnaResult := result }.move i (.atAccumulated t) [.stored (s.node i) result]) := by
  have hok := h.pc i
  rw [hpc] at hok
  obtain ⟨hi, hnpu⟩ : i.val = 0 ∧ npuAt env nodes n av (s.node i) = true := hok
  refine (h.setResult hpc).moveEvent hlt hnpu (by simp [hpc, Pc.sites]) (Or.inl (by simp [hpc, Pc.waiting]))
    (by simp [hpc, Pc.stored]) (fun _ _ _ => Or.inr (by simp)) (by simp) (by simp) ⟨hi, hnpu, by simp, Or.inr ⟨rfl, ?_⟩⟩
  simp [State.move, Pc.stored]

/-- Every step keeps the invariant, with the result of the node added when thread 0 stores it. -/
theorem Running.step {s' : State n Q} {choice : Bool} (h : Running env nodes av res s)
    (hstep : step env nodes s (i, choice) = some s') : ∃ res', Running env nodes av res' s' := by
  simp only [Pool.step, Option.bind_eq_bind, Option.bind_eq_some_iff] at hstep
  obtain ⟨nd, hnd, hstep⟩ := hstep
  have hlt : s.node i < nodes.length := (List.getElem?_eq_some_iff.mp hnd).1
  have hok := h.pc i
  cases hpc : s.pc i with
  | enter =>
    simp only [hpc, h.fast, Option.some.injEq] at hstep
    subst hstep
    exact ⟨res, h.moveHead hlt (by rw [hpc]; rfl) rfl rfl⟩
  | lock =>
    simp only [hpc, Option.ite_none_right_eq_some, Option.some.injEq] at hstep
    obtain ⟨-, rfl⟩ := hstep
    exact ⟨res, (h.setMu _).moveHead hlt (by rw [hpc]; rfl) rfl trivial⟩
  | critical =>
    simp only [hpc, h.state, Option.some.injEq] at hstep
    subst hstep
    exact ⟨res, h.moveHead hlt (by rw [hpc]; rfl) rfl rfl⟩
  | tiles | splitFrac | minTokens | clamp | device =>
    rw [hpc] at hok
    exact hok.elim
  | publish state =>
    rw [hpc] at hok
    obtain rfl : state = av := hok
    simp only [hpc, Option.some.injEq] at hstep
    subst hstep
    exact ⟨res, h.setFast.moveHead hlt (by rw [hpc]; rfl) rfl rfl⟩
  | unlock state =>
    rw [hpc] at hok
    obtain rfl : state = av := hok
    simp only [hpc, Option.some.injEq] at hstep
    subst hstep
    exact ⟨res, (h.setMu none).moveHead hlt (by rw [hpc]; rfl) rfl rfl⟩
  | answered available =>
    rw [hpc] at hok
    obtain rfl : available = av := hok
    simp only [hpc] at hstep
    exact ⟨res, h.answered hnd hpc hstep⟩
  | readTiles =>
    rw [hpc] at hok
    obtain ⟨hav, nd', hnd', hd⟩ := hok
    simp only [hpc, h.config hav, Option.some.injEq] at hstep
    subst hstep
    exact ⟨res, h.moveHead hlt (by rw [hpc]; rfl) rfl ⟨hav, nd', hnd', hd⟩⟩
  | readFrac tiles =>
    rw [hpc] at hok
    obtain ⟨hav, nd', hnd', hd⟩ := hok
    obtain rfl := Option.some.inj (hnd.symm.trans hnd')
    simp only [hpc, h.config hav, ← hd, Option.some.injEq] at hstep
    subst hstep
    exact ⟨res, h.decide hnd (by rw [hpc]; rfl)⟩
  | call t =>
    rw [hpc] at hok
    obtain ⟨hi, hnpu⟩ : i.val = 0 ∧ npuAt env nodes n av (s.node i) = true := hok
    simp only [hpc, Option.some.injEq] at hstep
    subst hstep
    exact ⟨res, h.moveEvent hlt ⟨hi, hnpu⟩ (by simp [hpc, Pc.sites]) (Or.inl (by simp [hpc, Pc.waiting]))
      (by simp [hpc, Pc.stored]) (by simp [Pc.stored]) (by simp) (by simp) ⟨hi, Nat.le_refl _⟩⟩
  | wait t =>
    rw [hpc] at hok
    simp only [hpc, Option.ite_none_right_eq_some, Option.some.injEq] at hstep
    obtain ⟨-, rfl⟩ := hstep
    exact ⟨res, (h.setMu _).moveHead hlt (by rw [hpc]; rfl) rfl hok⟩
  | accumulating t =>
    rw [hpc] at hok
    simp only [hpc, Option.some.injEq] at hstep
    subst hstep
    exact ⟨res, (h.setMu none).moveHead hlt (by rw [hpc]; rfl) rfl hok⟩
  | store t result =>
    simp only [hpc, Option.some.injEq] at hstep
    subst hstep
    exact ⟨_, h.store hlt hpc⟩
  | share t =>
    rw [hpc] at hok
    obtain ⟨hi, hnpu⟩ : i.val ≠ 0 ∧ npuAt env nodes n av (s.node i) = true := hok
    simp only [hpc, Option.some.injEq] at hstep
    subst hstep
    exact ⟨res, h.moveSilent hlt hnpu (by simp [hpc, Pc.sites]) (Or.inl (by simp [hpc, Pc.waiting]))
      (by simp [hpc, Pc.stored]) fun hi0 => absurd hi0 hi⟩
  | atAccumulated t =>
    rw [hpc] at hok
    simp only [hpc, Option.some.injEq] at hstep
    subst hstep
    exact ⟨res, h.arrive hlt hok (by simp [hpc, Pc.sites]) (by rw [hpc]; rfl) rfl (by rw [hpc]; rfl) rfl⟩
  | inAccumulated t =>
    rw [hpc] at hok
    simp only [hpc, Option.ite_none_right_eq_some, Option.some.injEq] at hstep
    obtain ⟨hall, rfl⟩ := hstep
    exact ⟨res, h.moveSilent hlt hok (by simp [hpc, Pc.sites]) (Or.inr hall) (by simp [Pc.stored])
      (by simp [hpc, Pc.stored])⟩
  | load t =>
    simp only [hpc, Option.some.injEq] at hstep
    subst hstep
    exact ⟨res, h.load hlt hpc⟩
  | rows r re =>
    rw [hpc] at hok
    simp only [hpc] at hstep
    by_cases hr : r < re
    · rw [if_pos hr, Option.some.injEq] at hstep
      subst hstep
      exact ⟨res, h.convertRow hlt hpc⟩
    · rw [if_neg hr, Option.some.injEq] at hstep
      subst hstep
      exact ⟨res, h.moveSilent hlt hok (by simp [hpc, Pc.sites]) (Or.inl (by simp [hpc, Pc.waiting])) (by simp [Pc.stored])
        (by simp [hpc, Pc.stored])⟩
  | atConverted =>
    rw [hpc] at hok
    simp only [hpc, Option.some.injEq] at hstep
    subst hstep
    exact ⟨res, h.arrive hlt hok (by simp [hpc, Pc.sites]) (by rw [hpc]; rfl) rfl (by rw [hpc]; rfl) rfl⟩
  | inConverted =>
    simp only [hpc, Option.ite_none_right_eq_some, Option.some.injEq] at hstep
    obtain ⟨hall, rfl⟩ := hstep
    exact ⟨res, h.leaveEpilogue hlt hpc hall⟩
  | cpu =>
    simp only [hpc, Option.some.injEq] at hstep
    subst hstep
    exact ⟨res, h.leaveCpu hlt hpc⟩
  | atNode =>
    simp only [hpc, Option.some.injEq] at hstep
    subst hstep
    exact ⟨res, h.arrive hlt trivial (by simp [hpc, Pc.sites, nodeSites]) (by rw [hpc]; rfl) rfl (by rw [hpc]; rfl) rfl⟩
  | inNode =>
    simp only [hpc, Option.ite_none_right_eq_some, Option.some.injEq] at hstep
    obtain ⟨hall, rfl⟩ := hstep
    exact ⟨res, h.nextNode hlt hpc hall⟩

end Steps

end Pool
end BitnetXdna
