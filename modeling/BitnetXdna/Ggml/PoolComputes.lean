import BitnetXdna.Ggml.PoolPaints

/-!
# What the pool computes

The memory of the pool in every interleaving (`Good`, kept by every step), and what it is once the threads have gone on from a
node: the golden result where the accumulate succeeded, and the result of the CPU block everywhere else (`pool_computes`).
-/

namespace BitnetXdna
namespace Pool

variable {n : Nat} {Q : Type} [SplitArith Q]

/-- Thread `i` is about to store a success for its node, or has stored it. -/
def State.Holds (s : State n Q) (i : Fin n) : Prop := (∃ t, s.pc i = .store t true) ∨ (i, .stored (s.node i) true) ∈ s.log

/-- The memory is in order: the globals are those of the calls so far, the accumulator holds the product of a node that thread
0 is in and has a success for, and every `dst` is painted. -/
structure Setup.Good (u : Setup Q) (av : Bool) (m : Memory n Q) : Prop where
  shim : ∃ sh past, m.shim = some sh ∧ ShimInv past sh ∧
    (∀ c ∈ past, ∃ g ∈ u.graph, ∃ T ≤ g.ne11, c = g.call T) ∧
    ∀ (i : Fin n) g, i.val = 0 → u.graph[m.pool.node i]? = some g → m.pool.Holds i →
      (g.call (tokensAt u.env u.nodes n av (m.pool.node i))).Exact sh.gAcc
  painted : ∀ k g, u.graph[k]? = some g → ∃ early late,
    m.dst k = applyWrites g.nb1 (early ++ late) g.dst ∧ u.Painted av m.pool k g early late

section Step

variable {u : Setup Q} {av : Bool} {res res' : Nat → Bool} {s s' : State n Q} {m m' : Memory n Q} {i j : Fin n}
  {choice : Bool} {nd : Node} {k' : Nat} {p : Pc} {es : List Event}

/-- A step of the memory is a step of the pool: one where thread 0 runs the accumulate of its node, or one where a thread does
to the `dst` of its node what it does from its place. -/
theorem Setup.step_cases (hstep : u.step m (i, choice) = some m') :
    ∃ g choice', u.graph[m.pool.node i]? = some g ∧ Pool.step u.env u.nodes m.pool (i, choice') = some m'.pool ∧
      ((∃ t, m.pool.pc i = .accumulating t ∧ m'.dst = m.dst ∧
        m'.shim = (m.shim.bind fun s => accumulateStep u.host s (g.call t)).map Prod.snd ∧
        choice' = ((m.shim.bind fun s => accumulateStep u.host s (g.call t)).map Prod.fst).getD false) ∨
      (∀ t, m.pool.pc i ≠ .accumulating t) ∧ m'.shim = m.shim ∧
        m'.dst = Function.update m.dst (m.pool.node i)
          ((m.dst (m.pool.node i)).bind (u.effect n i m.shim g (m.pool.pc i)))) := by
  simp only [Setup.step, Option.bind_eq_bind, Option.bind_eq_some_iff] at hstep
  obtain ⟨g, hg, hstep⟩ := hstep
  by_cases hacc : ∃ t, m.pool.pc i = .accumulating t
  · obtain ⟨t, hpc⟩ := hacc
    simp only [hpc, Option.bind_eq_some_iff, Option.some.injEq] at hstep
    obtain ⟨pool, hpool, rfl⟩ := hstep
    exact ⟨g, _, hg, hpool, Or.inl ⟨t, hpc, rfl, rfl, rfl⟩⟩
  · have hne : ∀ t, m.pool.pc i ≠ .accumulating t := fun t ht => hacc ⟨t, ht⟩
    refine ⟨g, choice, hg, ?_⟩
    split at hstep
    · next t hpc => exact absurd hpc (hne t)
    · simp only [Option.bind_eq_some_iff, Option.some.injEq] at hstep
      obtain ⟨pool, hpool, rfl⟩ := hstep
      exact ⟨hpool, Or.inr ⟨hne, rfl, rfl⟩⟩

/-- A success that thread `j` has after a step other than an accumulate, it had before, in the same node. -/
theorem Went.holds (hw : Went u.nodes s s' i choice nd k' p es) (h : Running u.env u.nodes av res s)
    (hacc : ∀ t, s.pc i ≠ .accumulating t) (hholds : s'.Holds j) : s.Holds j ∧ s'.node j = s.node j := by
  by_cases hji : j = i
  · subst hji
    have hpcj : s'.pc j = p := by rw [hw.pc, Function.update_self]
    have hnodej : s'.node j = k' := by rw [hw.node, Function.update_self]
    have hgoes := hw.goes
    rw [State.Holds, hpcj, hnodej, hw.log, List.mem_append] at hholds
    have hlog := h.log j
    rcases hholds with ⟨t, rfl⟩ | hmem | hmem
    · exact (hgoes.not_store hacc).elim
    · obtain ⟨-, -, -, hk⟩ := hlog _ hmem
      have hle : s.node j ≤ k' := by rcases hgoes.node with rfl | ⟨-, rfl, -⟩ <;> omega
      obtain rfl : k' = s.node j := by omega
      exact ⟨Or.inr hmem, hnodej⟩
    · obtain ⟨e, he, heq⟩ := List.mem_map.mp hmem
      obtain rfl : e = .stored k' true := (Prod.mk.inj heq).2
      obtain ⟨t, hpc, hk⟩ := hgoes.stored_of_mem he
      exact ⟨Or.inl ⟨t, hpc⟩, hnodej.trans hk⟩
  · have hnode : s'.node j = s.node j := by rw [hw.node, Function.update_of_ne hji]
    refine ⟨?_, hnode⟩
    rw [State.Holds, hnode, hw.pc, Function.update_of_ne hji, hw.log, List.mem_append] at hholds
    rcases hholds with hpc | hmem | hmem
    · exact Or.inl hpc
    · exact Or.inr hmem
    · obtain ⟨e, -, heq⟩ := List.mem_map.mp hmem
      exact absurd (Prod.mk.inj heq).1 (Ne.symm hji)

omit [SplitArith Q] in
/-- A place from which a thread does nothing to a `dst`. -/
theorem Setup.effect_quiet {nth ith : Nat} {shim : Option Shim} {g : GraphNode} (hshare : ∀ t, p ≠ .share t)
    (hrow : ∀ r re, p = .rows r re → ¬r < re) (hcpu : p ≠ .cpu) : u.effect nth ith shim g p = some := by
  funext dst
  cases p with
  | share t => exact absurd rfl (hshare t)
  | rows r re => exact if_neg (hrow r re rfl)
  | cpu => exact absurd rfl hcpu
  | _ => rfl

/-- The accumulate of a node, run by thread 0. -/
theorem Setup.Good.accumulate {g : GraphNode} {t : Nat} {choice' : Bool} (hm : u.Good av m) (hu : u.Valid n)
    (h : Running u.env u.nodes av res m.pool) (ht : Traced u.env u.nodes av m.pool)
    (h' : Running u.env u.nodes av res' m'.pool) (hw : Went u.nodes m.pool m'.pool i choice' nd k' p es)
    (hg : u.graph[m.pool.node i]? = some g) (hpc : m.pool.pc i = .accumulating t) (hdst : m'.dst = m.dst)
    (hshim : m'.shim = (m.shim.bind fun s => accumulateStep u.host s (g.call t)).map Prod.snd)
    (hchoice : choice' = ((m.shim.bind fun s => accumulateStep u.host s (g.call t)).map Prod.fst).getD false) :
    u.Good av m' := by
  have hok := h.pc i
  have htok := ht.tokens i
  rw [hpc] at hok htok
  obtain ⟨hi, hnpu⟩ : i.val = 0 ∧ npuAt u.env u.nodes n av (m.pool.node i) = true := hok
  obtain rfl : t = tokensAt u.env u.nodes n av (m.pool.node i) := htok
  obtain ⟨-, hle, -⟩ := Setup.of_npu hg hnpu
  have hmem : g ∈ u.graph := List.mem_of_getElem? hg
  obtain ⟨sh, past, hsh, hI, hpast, -⟩ := hm.shim
  obtain ⟨ret, sh', hrun, -, hI', hexact, -⟩ := accumulateStep_spec (h := u.host) ((hu.fits g hmem).call hle) hI
  rw [hsh, Option.bind_some, hrun] at hshim hchoice
  obtain rfl : choice' = ret := hchoice
  have hpast' : ∀ c ∈ past ++ [g.call (tokensAt u.env u.nodes n av (m.pool.node i))],
      ∃ g ∈ u.graph, ∃ T ≤ g.ne11, c = g.call T := by
    intro c hc
    rcases List.mem_append.mp hc with hc | hc
    · exact hpast c hc
    · exact ⟨g, hmem, _, hle, List.mem_singleton.mp hc⟩
  have hgoes := hw.goes
  rw [hpc] at hgoes
  obtain ⟨rfl, rfl, rfl⟩ := hgoes.of_accumulating
  refine ⟨⟨sh', _, hshim, hI', hpast', fun j g' hj hg' hholds => ?_⟩, fun k g' hg' => ?_⟩
  · obtain rfl : j = i := Fin.ext (hj.trans hi.symm)
    have hnodej : m'.pool.node j = m.pool.node j := by rw [hw.node, Function.update_self]
    have hpcj : m'.pool.pc j = .store (tokensAt u.env u.nodes n av (m.pool.node j)) choice' := by
      rw [hw.pc, Function.update_self]
    rw [hnodej] at hg' ⊢
    obtain rfl := Option.some.inj (hg.symm.trans hg')
    have hret : choice' = true := by
      rcases hholds with ⟨t, hst⟩ | hst
      · exact (Pc.store.inj (hpcj.symm.trans hst)).2
      · obtain ⟨-, -, -, hlt | ⟨-, hpast⟩⟩ := h'.log j _ hst
        · exact absurd hlt (Nat.lt_irrefl _)
        · rw [hpcj] at hpast
          exact absurd hpast (by simp [Pc.stored])
    obtain ⟨entry, hentry, hK, hN, hserves⟩ := hexact hret
    refine hI'.exact (fun c hc hsrc hcK hcN => ?_) hentry hK hN hserves
    obtain ⟨g'', hg'', T, -, rfl⟩ := hpast' c hc
    exact hu.stable g hmem g'' hg'' hsrc hcK hcN
  · obtain ⟨early, late, hrun, hP⟩ := hm.painted k g' hg'
    refine ⟨early, late, by rw [hdst, hrun], hP.quiet h ht h' hw hg' fun _ => ?_⟩
    rw [hpc]
    exact ⟨by simp, by simp, by simp⟩

/-- What a thread does to the `dst` of its node. -/
theorem Setup.Good.paint {g : GraphNode} (hm : u.Good av m) (hu : u.Valid n)
    (h : Running u.env u.nodes av res m.pool) (ht : Traced u.env u.nodes av m.pool)
    (h' : Running u.env u.nodes av res' m'.pool) (hw : Went u.nodes m.pool m'.pool i choice nd k' p es)
    (hg : u.graph[m.pool.node i]? = some g) :
    ∃ early late, (m.dst (m.pool.node i)).bind (u.effect n i m.shim g (m.pool.pc i)) =
        applyWrites g.nb1 (early ++ late) g.dst ∧ u.Painted av m'.pool (m.pool.node i) g early late := by
  have hmem : g ∈ u.graph := List.mem_of_getElem? hg
  obtain ⟨early, late, hrun, hP⟩ := hm.painted _ g hg
  by_cases hshare : ∃ t, m.pool.pc i = .share t
  · obtain ⟨t, hpc⟩ := hshare
    obtain ⟨rfl, hP'⟩ := hP.share h ht h' hw hg hpc (hu.fits g hmem) (hu.kern g hmem)
    refine ⟨_, _, ?_, hP'⟩
    rw [hrun, hpc, List.append_nil, List.append_nil, applyWrites_append]
    rfl
  by_cases hrow : ∃ r re, m.pool.pc i = .rows r re ∧ r < re
  · obtain ⟨r, re, hpc, hr⟩ := hrow
    have hok := h.pc i
    have htok := ht.tokens i
    rw [hpc] at hok htok
    obtain ⟨hnpu, -⟩ : npuAt u.env u.nodes n av (m.pool.node i) = true ∧ res (m.pool.node i) = true := hok
    obtain ⟨-, -, rfl⟩ := htok
    obtain ⟨hs, hle, -⟩ := Setup.of_npu hg hnpu
    obtain ⟨-, -, hpos, -⟩ := GraphNode.shape_of_supports hs
    -- thread 0 is in the node too, and the accumulator holds the product
    have hpast : (m.pool.pc i).past = true := by rw [hpc]; rfl
    have hzero : 0 < n := Nat.lt_of_le_of_lt (Nat.zero_le _) i.isLt
    obtain ⟨hnode, hst⟩ := h.all_here hnpu hpast ⟨0, hzero⟩
    obtain ⟨j₀, hsucc⟩ := h.succeeded_of_rows (Or.inl ⟨r, _, hpc⟩)
    obtain rfl : j₀ = ⟨0, hzero⟩ := Fin.ext (h.log j₀ _ hsucc).1
    obtain ⟨sh, past, hsh, -, -, hexact⟩ := hm.shim
    have hacc := hexact ⟨0, hzero⟩ g rfl (by rwa [hnode]) (Or.inr (by rwa [hnode]))
    rw [hnode] at hacc
    have hT : r < tokensAt u.env u.nodes n av (m.pool.node i) := by
      have hend := Sharding.mul_div_le i.isLt (n := tokensAt u.env u.nodes n av (m.pool.node i))
      omega
    obtain ⟨ws, hws, hpaints, hhits⟩ := GraphNode.epilogueRow_paints (hu.fits g hmem) hpos hacc hle hT
    refine ⟨_, _, ?_, hP.row h ht h' hw hg hpc hpaints hhits⟩
    rw [hrun, hpc, hsh, ← List.append_assoc, applyWrites_append _ _ ws]
    refine Option.bind_congr fun dst _ => ?_
    rw [← hws dst]
    exact if_pos hr
  by_cases hcpu : m.pool.pc i = .cpu
  · refine ⟨_, _, ?_, hP.block h ht h' hw hg hcpu (hu.block g hmem)⟩
    rw [hrun, hcpu, ← List.append_assoc, applyWrites_append _ _ (u.block.writes g n i)]
    rfl
  · have hquiet : (∀ t, m.pool.pc i ≠ .share t) ∧ (∀ r re, m.pool.pc i = .rows r re → ¬r < re) ∧ m.pool.pc i ≠ .cpu :=
      ⟨fun t hp => hshare ⟨t, hp⟩, fun r re hp hr => hrow ⟨r, re, hp, hr⟩, hcpu⟩
    refine ⟨early, late, ?_, hP.quiet h ht h' hw hg fun _ => hquiet⟩
    rw [hrun, Setup.effect_quiet hquiet.1 hquiet.2.1 hquiet.2.2]
    cases applyWrites g.nb1 (early ++ late) g.dst <;> rfl

/-- A step keeps the memory in order. -/
theorem Setup.Good.step (hm : u.Good av m) (hu : u.Valid n) (h : Running u.env u.nodes av res m.pool)
    (ht : Traced u.env u.nodes av m.pool) (h' : Running u.env u.nodes av res' m'.pool)
    (hstep : u.step m (i, choice) = some m') : u.Good av m' := by
  obtain ⟨g, choice', hg, hpool, hmem⟩ := Setup.step_cases hstep
  obtain ⟨nd, k', p, es, hw⟩ := step_went hpool
  rcases hmem with ⟨t, hpc, hdst, hshim, hchoice⟩ | ⟨hacc, hshim, hdst⟩
  · exact hm.accumulate hu h ht h' hw hg hpc hdst hshim hchoice
  refine ⟨?_, fun k g' hg' => ?_⟩
  · obtain ⟨sh, past, hsh, hI, hpast, hexact⟩ := hm.shim
    refine ⟨sh, past, hshim.trans hsh, hI, hpast, fun j g' hj hg' hholds => ?_⟩
    obtain ⟨hold, hnode⟩ := hw.holds h hacc hholds
    rw [hnode] at hg' ⊢
    exact hexact j g' hj hg' hold
  · rw [hdst]
    by_cases hk : k = m.pool.node i
    · subst hk
      obtain rfl := Option.some.inj (hg.symm.trans hg')
      rw [Function.update_self]
      exact hm.paint hu h ht h' hw hg
    · obtain ⟨early, late, hrun, hP⟩ := hm.painted k g' hg'
      rw [Function.update_of_ne hk]
      exact ⟨early, late, hrun, hP.quiet h ht h' hw hg' fun heq => absurd heq hk⟩

end Step

/-! ## Every interleaving -/

section Run

variable {u : Setup Q} {av : Bool} {res : Nat → Bool} {m m' : Memory n Q} {i : Fin n} {choice : Bool} {g : GraphNode} {k : Nat}

omit [SplitArith Q] in
/-- A thread that is seeking its decision at the first node has done nothing yet. -/
theorem not_beyond_of_seeking {s : State n Q} {i : Fin n} (hnode : s.node i = 0) (hpc : (s.pc i).seeking = true) :
    ¬s.Beyond k i := by
  rintro (hlt | ⟨-, hst⟩)
  · omega
  · cases hp : s.pc i <;> rw [hp] at hpc hst <;> simp [Pc.seeking, Pc.stored] at hpc hst

/-- The memory at the start of the process, while every thread is seeking its decision at the first node. -/
theorem Setup.Good.of_seeking (hshim : m.shim = some .init) (hdst : m.dst = fun k => u.graph[k]?.map GraphNode.dst)
    (hlog : m.pool.log = []) (hnode : ∀ i, m.pool.node i = 0) (hpc : ∀ i, (m.pool.pc i).seeking = true) : u.Good av m := by
  refine ⟨⟨.init, [], hshim, .init, by simp, fun i g _ _ hholds => ?_⟩, fun k g hg => ⟨[], [], ?_, ?_⟩⟩
  · rcases hholds with ⟨t, hp⟩ | hmem
    · exact absurd (hpc i) (by rw [hp]; simp [Pc.seeking])
    · exact absurd hmem (by rw [hlog]; simp)
  · simp only [hdst, hg, Option.map_some, List.append_nil]
    rfl
  · refine ⟨by simp, by simp, fun i _ _ _ hb => absurd hb (not_beyond_of_seeking (hnode i) (hpc i)), fun i t c hconv => ?_,
      by simp⟩
    rcases hconv.settled with hlt | ⟨-, hset⟩
    · exact absurd hlt (by rw [hnode i]; exact Nat.not_lt_zero k)
    · have hseek := hpc i
      cases hp : m.pool.pc i <;> rw [hp] at hseek hset <;> simp [Pc.seeking, Pc.settled] at hseek hset

/-- A step while nothing is published leaves the memory alone. -/
theorem Setup.step_fresh (h : Fresh u.env m.pool) (hstep : u.step m (i, choice) = some m') :
    m'.shim = m.shim ∧ m'.dst = m.dst := by
  obtain ⟨g, choice', hg, hpool, hmem⟩ := Setup.step_cases hstep
  have hseek := (h.seeking i).1
  rcases hmem with ⟨t, hpc, -⟩ | ⟨-, hshim, hdst⟩
  · rw [hpc] at hseek
    exact absurd hseek (by simp [Pc.seeking])
  · have hquiet : u.effect n i m.shim g (m.pool.pc i) = some := by
      refine Setup.effect_quiet (fun t hp => ?_) (fun r re hp => ?_) fun hp => ?_ <;> rw [hp] at hseek <;>
        exact absurd hseek (by simp [Pc.seeking])
    have hsame : (m.dst (m.pool.node i)).bind some = m.dst (m.pool.node i) := by
      cases m.dst (m.pool.node i) <;> rfl
    refine ⟨hshim, ?_⟩
    rw [hdst, hquiet, hsame, Function.update_eq_self]

/-- After every schedule nothing is published and the memory is that of the start, or it is in order. -/
theorem Setup.run_good (hu : u.Valid n) (schedule : List (Fin n × Bool)) :
    (Fresh u.env (u.run schedule).pool ∧ (u.run schedule).shim = some .init ∧
        (u.run schedule).dst = fun k => u.graph[k]?.map GraphNode.dst) ∨
      ∃ av res, Running u.env u.nodes av res (u.run schedule).pool ∧ Traced u.env u.nodes av (u.run schedule).pool ∧
        u.Good av (u.run schedule) := by
  refine interleave_invariant (I := fun m : Memory n Q =>
    (Fresh u.env m.pool ∧ m.shim = some .init ∧ m.dst = fun k => u.graph[k]?.map GraphNode.dst) ∨
      ∃ av res, Running u.env u.nodes av res m.pool ∧ Traced u.env u.nodes av m.pool ∧ u.Good av m) schedule
    (Or.inl ⟨Fresh.init u.env, rfl, rfl⟩) ?_
  rintro m ⟨i, choice⟩ m' (⟨h, hshim, hdst⟩ | ⟨av, res, h, ht, hm⟩) hstep
  · obtain ⟨hshim', hdst'⟩ := Setup.step_fresh h hstep
    obtain ⟨g, choice', -, hpool, -⟩ := Setup.step_cases hstep
    obtain ⟨hlog, hnode, hpc⟩ := h.step_seeking hpool
    rcases h.step hpool with h' | ⟨av, res, h'⟩
    · exact Or.inl ⟨h', hshim'.trans hshim, hdst'.trans hdst⟩
    · exact Or.inr ⟨av, res, h', Traced.of_seeking hnode hpc,
        .of_seeking (hshim'.trans hshim) (hdst'.trans hdst) hlog hnode hpc⟩
  · obtain ⟨g, choice', -, hpool, -⟩ := Setup.step_cases hstep
    obtain ⟨res', h'⟩ := h.step hpool
    exact Or.inr ⟨av, res', h', ht.step h' hpool, hm.step hu h ht h' hstep⟩

/-! ## Behind a node -/

/-- The `dst` that the writes so far leave: a cell that a late write hits has the value of the late writes, one that only an
early write hits the golden value, and nothing is written outside the rows. -/
theorem Setup.Painted.applied {s : State n Q} {early late : List (Write Float32)} (hP : u.Painted av s k g early late)
    (hfits : g.Fits) :
    ∃ dst, applyWrites g.nb1 (early ++ late) g.dst = some dst ∧ dst.size = g.dst.size ∧
      (∀ t c, Hits late t c → (s.Succeeded k → dst.cell (t * g.nb1 / 4 + c) = g.value t c) ∧
        (¬s.Succeeded k → dst.cell (t * g.nb1 / 4 + c) = u.block.value g t c)) ∧
      (∀ t, ∀ c < g.ne01, ¬Hits late t c → Hits early t c → dst.cell (t * g.nb1 / 4 + c) = g.value t c) ∧
      ∀ x, (∀ t < g.ne11, ∀ c < g.ne01, t * g.nb1 / 4 + c ≠ x) → dst.cell x = g.dst.cell x := by
  obtain ⟨mid, hmid, hsize, hhits, hkeep⟩ := applyWrites_paints hfits.dst hP.first
  have hfit : RowsFit g.ne11 g.ne01 g.nb1 mid := ⟨hfits.dst.aligned, hfits.dst.apart, fun t ht => hsize ▸ hfits.dst.size t ht⟩
  have hlate : ∃ v, (∀ w ∈ late, w.Paints g.ne11 g.ne01 v) ∧ (s.Succeeded k → v = g.value) ∧
      (¬s.Succeeded k → v = u.block.value g) := by
    by_cases hs : s.Succeeded k
    · exact ⟨g.value, fun w hw => (hP.second w hw).1 hs, fun _ => rfl, fun hnot => absurd hs hnot⟩
    · exact ⟨u.block.value g, fun w hw => (hP.second w hw).2 hs, fun hyes => absurd hyes hs, fun _ => rfl⟩
  obtain ⟨v, hv, hyes, hno⟩ := hlate
  obtain ⟨dst, hdst, hsize', hhits', hkeep'⟩ := applyWrites_paints hfit hv
  refine ⟨dst, ?_, hsize'.trans hsize, fun t c hhit => ⟨fun hs => ?_, fun hs => ?_⟩, fun t c hc hnone hhit => ?_,
    fun x hx => ?_⟩
  · rw [applyWrites_append, hmid]
    exact hdst
  · rw [hhits' t c hhit, hyes hs]
  · rw [hhits' t c hhit, hno hs]
  · rw [hkeep' _ fun w hw heq => ?_, hhits t c hhit]
    obtain ⟨hrow, hcol⟩ := hfit.cell_inj (hv w hw).2.1 hc heq
    exact hnone ⟨w, hw, hrow, hcol⟩
  · rw [hkeep' x fun w hw => hx w.row (hv w hw).1 w.col (hv w hw).2.1,
      hkeep x fun w hw => hx w.row (hP.first w hw).1 w.col (hP.first w hw).2.1]

/-- Once a thread has gone on from a node, all writes of the node have been made. -/
theorem Setup.Painted.complete {s : State n Q} {early late : List (Write Float32)} (hP : u.Painted av s k g early late)
    (hu : u.Valid n) (h : Running u.env u.nodes av res s) (hg : u.graph[k]? = some g) (hk : k < s.node i) {t c : Nat}
    (ht : t < g.ne11) (hc : c < g.ne01) : Hits late t c ∨ s.Succeeded k ∧ Hits early t c := by
  have hmem : g ∈ u.graph := List.mem_of_getElem? hg
  have hall := h.all_done hk
  have hlast : ∀ (ith : Nat) (hith : ith < n), u.Last s k (tokensAt u.env u.nodes n av k) g ⟨ith, hith⟩ t c →
      Hits late t c := by
    intro ith hith hl
    refine hP.done ⟨ith, hith⟩ t c ?_
    rcases hall ⟨ith, hith⟩ with hlt | ⟨heq, hpc⟩
    · exact Or.inl ⟨hlt, hl⟩
    · exact Or.inr ⟨heq, by rw [hpc]; exact hl⟩
  by_cases hs : s.Succeeded k
  · have hnpu := h.npu_of_succeeded hs
    obtain ⟨hsup, hle, hone⟩ := Setup.of_npu hg hnpu
    have hn : 0 < n := Nat.lt_of_le_of_lt (Nat.zero_le _) i.isLt
    by_cases hlow : t < tokensAt u.env u.nodes n av k
    · -- a token of the NPU, converted by the thread that has it
      obtain ⟨ith, hith, hin⟩ := Sharding.exists_share hn hlow
      exact Or.inl (hlast ith hith (Or.inl ⟨hs, hin.1, hin.2, hc⟩))
    · -- a token of the CPU, in the share of the thread that has the row
      have hmany : 2 ≤ n := by
        by_contra hbad
        have := hone (by omega)
        omega
      obtain ⟨ith, hith, hpos, w, hw, hcell⟩ := exists_cpuShare_hits u.kern g.toMulMat hle hmany (Nat.not_lt.mp hlow) ht hc
      refine Or.inr ⟨hs, w, hP.shares ⟨ith, hith⟩ (Nat.ne_of_gt hpos) hnpu (by omega) ?_ w hw, hcell⟩
      rcases hall ⟨ith, hith⟩ with hlt | ⟨heq, hpc⟩
      · exact Or.inl hlt
      · exact Or.inr ⟨heq, by rw [hpc]; rfl⟩
  · obtain ⟨ith, hith, hhits⟩ := (hu.block g hmem).hits t ht c hc
    exact Or.inl (hlast ith hith (Or.inr ⟨hs, hhits⟩))

/-- The pool with its memory refines the pool: its runs are runs of the pool in which an accumulate succeeds when the shim's
does. -/
theorem Setup.run_refines (u : Setup Q) (schedule : List (Fin n × Bool)) :
    ∃ schedule', (u.run schedule).pool = Pool.run u.env u.nodes schedule' := by
  refine interleave_invariant (I := fun m : Memory n Q =>
    ∃ schedule', m.pool = Pool.run u.env u.nodes schedule') schedule ⟨[], rfl⟩ ?_
  rintro m ⟨i, choice⟩ m' ⟨schedule', hrun⟩ hstep
  obtain ⟨g, choice', -, hpool, -⟩ := Setup.step_cases hstep
  refine ⟨schedule' ++ [(i, choice')], ?_⟩
  rw [Pool.run, interleave, List.foldl_append]
  rw [hrun] at hpool
  exact (congrArg (fun o => Option.getD o _) hpool).symm

/-- In every interleaving of the threads of a pool over any graph, on every device, whatever fails: no access is undefined,
nothing is written outside the rows of a node, and once any thread has gone on from a node its `dst` is the golden result if
the accumulate succeeded, on the tokens of the NPU and of the CPU alike, and else what the CPU block computes. -/
theorem pool_computes (u : Setup Q) (hu : u.Valid n) (schedule : List (Fin n × Bool)) :
    let m := u.run schedule
    m.shim ≠ none ∧ ∀ k g, u.graph[k]? = some g → ∃ dst, m.dst k = some dst ∧ dst.size = g.dst.size ∧
      (∀ x, (∀ t < g.ne11, ∀ c < g.ne01, t * g.nb1 / 4 + c ≠ x) → dst.cell x = g.dst.cell x) ∧
      ∀ i, k < m.pool.node i →
        (m.pool.Succeeded k → ∃ golden, g.golden = some golden ∧
          ∀ t < g.ne11, ∀ c < g.ne01, dst.cell (t * g.nb1 / 4 + c) = golden.cell (t * g.ne01 + c)) ∧
        (¬m.pool.Succeeded k → ∀ t < g.ne11, ∀ c < g.ne01, dst.cell (t * g.nb1 / 4 + c) = u.block.value g t c) := by
  intro m
  rcases u.run_good hu schedule with ⟨h, hshim, hdst⟩ | ⟨av, res, h, -, hm⟩
  · have hnode : ∀ i, m.pool.node i = 0 := h.node
    refine ⟨by rw [show m.shim = _ from hshim]; simp, fun k g hg => ⟨g.dst, ?_, rfl, fun _ _ => rfl, fun i hk => ?_⟩⟩
    · simp only [show m.dst = _ from hdst, hg, Option.map_some]
    · rw [hnode i] at hk
      exact absurd hk (Nat.not_lt_zero k)
  · obtain ⟨sh, past, hsh, -⟩ := hm.shim
    refine ⟨by rw [show m.shim = _ from hsh]; simp, fun k g hg => ?_⟩
    have hmem : g ∈ u.graph := List.mem_of_getElem? hg
    obtain ⟨early, late, hrun, hP⟩ := hm.painted k g hg
    obtain ⟨dst, hdst, hsize, hlate, hearly, hkeep⟩ := hP.applied (hu.fits g hmem)
    refine ⟨dst, hrun.trans hdst, hsize, hkeep, fun i hk => ⟨fun hs => ?_, fun hs t ht c hc => ?_⟩⟩
    · obtain ⟨golden, hgolden, -, hcell⟩ :=
        GraphNode.golden_eq (hu.fits g hmem) (Setup.of_npu hg (h.npu_of_succeeded hs)).1
      refine ⟨golden, hgolden, fun t ht c hc => ?_⟩
      rw [hcell t ht c hc]
      by_cases hhit : Hits late t c
      · exact (hlate t c hhit).1 hs
      · rcases hP.complete hu h hg hk ht hc with hhit' | ⟨-, hhit'⟩
        · exact absurd hhit' hhit
        · exact hearly t c hc hhit hhit'
    · rcases hP.complete hu h hg hk ht hc with hhit | ⟨hyes, -⟩
      · exact (hlate t c hhit).2 hs
      · exact absurd hyes hs

end Run

/-- A CPU block that splits the rows of the weights evenly and leaves the golden values. -/
def rowBlock : CpuBlock where
  writes g nth ith :=
    let s0 := ith * g.ne01 / nth
    let s1 := (ith + 1) * g.ne01 / nth
    (List.range g.ne11).flatMap fun t => (List.range (s1 - s0)).map fun r => ⟨t, s0 + r, g.value t (s0 + r)⟩
  value := GraphNode.value

/-- The writes of a thread of it: the rows between its cuts. -/
theorem mem_rowBlock {g : GraphNode} {nth ith : Nat} {w : Write Float32} :
    w ∈ rowBlock.writes g nth ith ↔ w.row < g.ne11 ∧ (ith * g.ne01 / nth ≤ w.col ∧ w.col < (ith + 1) * g.ne01 / nth) ∧
      w.val = g.value w.row w.col := by
  simp only [rowBlock, List.mem_flatMap, List.mem_range, List.mem_map]
  constructor
  · rintro ⟨t, ht, r, hr, rfl⟩
    exact ⟨ht, by simp only; omega, rfl⟩
  · obtain ⟨row, col, val⟩ := w
    rintro ⟨ht, ⟨hlow, hhigh⟩, hval⟩
    simp only at ht hlow hhigh hval
    refine ⟨row, ht, col - ith * g.ne01 / nth, by omega, ?_⟩
    rw [Nat.add_sub_cancel' hlow, hval]

/-- The last cut is the last row. -/
theorem rowBlock_col_lt {g : GraphNode} {nth ith : Nat} {w : Write Float32} (hith : ith < nth)
    (hw : w ∈ rowBlock.writes g nth ith) : w.col < g.ne01 :=
  Nat.lt_of_lt_of_le (mem_rowBlock.mp hw).2.1.2 (Sharding.mul_div_le hith)

theorem rowBlock_computes (g : GraphNode) {nth : Nat} (hnth : 0 < nth) : rowBlock.Computes nth g where
  paints ith hith w hw := ⟨(mem_rowBlock.mp hw).1, rowBlock_col_lt hith hw, (mem_rowBlock.mp hw).2.2⟩
  hits t ht c hc := by
    obtain ⟨ith, hith, hin⟩ := Sharding.exists_share hnth hc
    exact ⟨ith, hith, ⟨t, c, g.value t c⟩, mem_rowBlock.mpr ⟨ht, hin, rfl⟩, rfl, rfl⟩

/-- Three prompts on one tensor, on a device that never fails: one for the NPU and the CPU together, one that is too short,
one for them again. -/
def plainSetup : Setup ℚ where
  host := .faultless
  kern := refKernels
  block := rowBlock
  env := ⟨true, none, some (1 / 2), none⟩
  graph := [plainNode 3000, plainNode 7, plainNode 2048]

theorem plainSetup_valid (nth : Nat) (hnth : 0 < nth) : plainSetup.Valid nth := by
  have hmem : ∀ g ∈ plainSetup.graph, ∃ tokens, g = plainNode tokens := by
    intro g hg
    simp only [plainSetup, List.mem_cons, List.not_mem_nil, or_false] at hg
    rcases hg with rfl | rfl | rfl <;> exact ⟨_, rfl⟩
  refine ⟨fun g hg => ?_, fun g hg _ => ?_, fun g _ => rowBlock_computes g hnth, fun g hg g' hg' _ _ _ i _ => ?_⟩
  · obtain ⟨tokens, rfl⟩ := hmem g hg
    exact plainNode_fits tokens
  · obtain ⟨tokens, rfl⟩ := hmem g hg
    exact refKernels_exact (show 4 ∣ 2560 by decide) rfl rfl
  · obtain ⟨tokens, rfl⟩ := hmem g hg
    obtain ⟨tokens', rfl⟩ := hmem g' hg'
    rfl

/-- Three threads that take turns. -/
theorem pool_computes_three_threads :
    let schedule : List (Fin 3 × Bool) := (List.range 4000).map fun x => (⟨x % 3, Nat.mod_lt x (by decide)⟩, true)
    let m := plainSetup.run schedule
    m.shim ≠ none ∧ ∀ k g, plainSetup.graph[k]? = some g → ∃ dst, m.dst k = some dst ∧ dst.size = g.dst.size ∧
      (∀ x, (∀ t < g.ne11, ∀ c < g.ne01, t * g.nb1 / 4 + c ≠ x) → dst.cell x = g.dst.cell x) ∧
      ∀ i, k < m.pool.node i →
        (m.pool.Succeeded k → ∃ golden, g.golden = some golden ∧
          ∀ t < g.ne11, ∀ c < g.ne01, dst.cell (t * g.nb1 / 4 + c) = golden.cell (t * g.ne01 + c)) ∧
        (¬m.pool.Succeeded k → ∀ t < g.ne11, ∀ c < g.ne01,
          dst.cell (t * g.nb1 / 4 + c) = plainSetup.block.value g t c) :=
  pool_computes plainSetup (plainSetup_valid 3 (by decide)) _

end Pool
end BitnetXdna
