import BitnetXdna.Ggml.PoolProgress

/-!
# No data race

What the threads of the pool access without an atomic operation: the configuration and `g_state` behind the double-checked
lock, the accumulator, and `dst`. An accumulate, a CPU share and a CPU block are long, and a thread is at work on one for as long
as it is at its place, so a place has the accesses of all of it. In no interleaving is a thread at a place that writes a
location while another is at one that reads or writes it (`pool_race_free`).

The cells of `dst` are those of any node: threads that write to a `dst` are in the same node.
-/

namespace BitnetXdna
namespace Pool

/-- What is shared: the configuration, `g_state`, a cell of the accumulator, and a cell of the `dst` of a thread's node. -/
inductive Loc where
  | config
  | state
  | acc (x : Nat)
  | dst (x : Nat)
deriving DecidableEq

/-- The CPU block computes each cell in one thread. -/
structure CpuBlock.Splits (b : CpuBlock) (nth : Nat) (g : GraphNode) : Prop where
  inside : ∀ ith < nth, ∀ w ∈ b.writes g nth ith, w.col < g.ne01
  apart : ∀ ith < nth, ∀ jth < nth, ith ≠ jth → ∀ w ∈ b.writes g nth ith, ∀ w' ∈ b.writes g nth jth,
    ¬(w.row = w'.row ∧ w.col = w'.col)

section Races

variable {n : Nat} {Q : Type} [SplitArith Q]

/-- What thread `i` writes in the step from `p`, at a node `g`. -/
def Setup.writesAt (u : Setup Q) (s : State n Q) (i : Fin n) (g : GraphNode) : Pc → Loc → Prop
  | .critical, .state => s.gState = none
  | .device, .state => True
  | .tiles, .config | .splitFrac, .config | .minTokens, .config | .clamp, .config => True
  | .accumulating _, .acc _ => True
  | .share tNpu, .dst x => ∃ w ∈ cpuShare u.kern g.toMulMat tNpu n i, x = w.row * g.nb1 / 4 + w.col
  | .rows r re, .dst x => r < re ∧ ∃ c < g.ne01, x = r * g.nb1 / 4 + c
  | .cpu, .dst x => ∃ w ∈ u.block.writes g n i, x = w.row * g.nb1 / 4 + w.col
  | _, _ => False

/-- What it reads there, of what may be written. -/
def Setup.readsAt (g : GraphNode) : Pc → Loc → Prop
  | .critical, .state | .publish _, .state | .unlock _, .state => True
  | .clamp, .config | .readTiles, .config | .readFrac _, .config => True
  | .answered available, .config => available = true
  | .rows r re, .acc x => r < re ∧ ∃ c < g.ne01, x = r * g.ne01 + c
  | _, _ => False

/-- Thread `i` is at a place that writes `x`. -/
def Setup.Writes (u : Setup Q) (s : State n Q) (i : Fin n) (x : Loc) : Prop :=
  ∃ g, u.graph[s.node i]? = some g ∧ u.writesAt s i g (s.pc i) x

/-- Thread `i` is at a place that reads `x`. -/
def Setup.Reads (u : Setup Q) (s : State n Q) (i : Fin n) (x : Loc) : Prop :=
  ∃ g, u.graph[s.node i]? = some g ∧ Setup.readsAt g (s.pc i) x

variable {u : Setup Q} {env : Environ Q} {nodes : List Node} {av : Bool} {res : Nat → Bool} {s s' : State n Q} {i j : Fin n}
  {m m' : Memory n Q} {choice : Bool} {g : GraphNode} {x : Loc}

/-! ## A step writes nowhere else -/

omit [SplitArith Q] in
theorem store_keeps {α : Type} {b b' : Buffer α} {y z : Nat} {v : α} (h : b.store y v = some b') (hz : y ≠ z) :
    b'.cell z = b.cell z := by
  unfold Buffer.store at h
  split at h
  · obtain rfl := Option.some.inj h
    exact Buffer.cell_write_of_not _ _ (by omega)
  · exact absurd h (by simp)

omit [SplitArith Q] in
theorem applyWrites_keeps {F : Type} {rowStride y : Nat} {ws : List (Write F)} {dst dst' : Buffer F}
    (h : applyWrites rowStride ws dst = some dst') (hy : ∀ w ∈ ws, y ≠ w.row * rowStride / 4 + w.col) :
    dst'.cell y = dst.cell y := by
  induction ws generalizing dst with
  | nil => exact Option.some.inj h ▸ rfl
  | cons w ws ih =>
    rw [applyWrites, List.foldlM_cons, Option.bind_eq_bind, Option.bind_eq_some_iff] at h
    obtain ⟨mid, hfirst, hrest⟩ := h
    rw [ih hrest fun w hw => hy w (List.mem_cons_of_mem _ hw)]
    split at hfirst
    · exact absurd hfirst (by simp)
    · exact store_keeps hfirst (hy w List.mem_cons_self).symm

omit [SplitArith Q] in
theorem epilogueRow_keeps {F : Type} [EpilogueArith F] {gAcc : Buffer Int32} {N t y : Nat} {e : EpilogueArgs F}
    {dst dst' : Buffer F} (h : epilogueRow gAcc N e t dst = some dst')
    (hy : ∀ c < N, y ≠ t * e.dstRowStride / 4 + c) : dst'.cell y = dst.cell y := by
  simp only [epilogueRow, Option.bind_eq_bind, Option.bind_eq_some_iff] at h
  obtain ⟨scale, -, h⟩ := h
  split at h
  · exact absurd h (by simp)
  -- the cells of the row before `c`
  have key : ∀ c ≤ N, ∀ mid, forRange c dst (fun j dst => do
      let acc ← gAcc.load (t * N + j)
      dst.store (t * e.dstRowStride / 4 + j) (EpilogueArith.ofInt32 acc * (e.ws / scale))) = some mid →
      mid.cell y = dst.cell y := by
    intro c
    induction c with
    | zero => exact fun _ mid hmid => Option.some.inj hmid ▸ rfl
    | succ c ih =>
      intro hc mid hmid
      simp only [forRange, Option.bind_eq_bind, Option.bind_eq_some_iff] at hmid ih
      obtain ⟨before, hbefore, acc, -, hstore⟩ := hmid
      rw [store_keeps hstore (hy c (by omega)).symm]
      exact ih (by omega) before hbefore
  exact key N (Nat.le_refl N) dst' h

omit [SplitArith Q] in
/-- A thread changes the cells of `dst` that it writes. -/
theorem Setup.effect_keeps {shim : Option Shim} {p : Pc} {dst dst' : Buffer Float32} {y : Nat}
    (h : u.effect n i shim g p dst = some dst') (hy : ¬u.writesAt s i g p (.dst y)) : dst'.cell y = dst.cell y := by
  cases p with
  | share T => exact applyWrites_keeps h fun w hw heq => hy ⟨w, hw, heq⟩
  | cpu => exact applyWrites_keeps h fun w hw heq => hy ⟨w, hw, heq⟩
  | rows r re =>
    simp only [Setup.effect] at h
    split at h
    · rename_i hr
      obtain ⟨sh, -, hrow⟩ := Option.bind_eq_some_iff.mp h
      exact epilogueRow_keeps hrow fun c hc heq => hy ⟨hr, c, hc, heq⟩
    · exact Option.some.inj h ▸ rfl
  | _ => exact Option.some.inj h ▸ rfl

/-- A thread changes the configuration and `g_state` where it writes them. -/
theorem step_settings (hstep : Pool.step env nodes s (i, choice) = some s') :
    (¬u.writesAt s i g (s.pc i) .config → s'.config = s.config) ∧
      (¬u.writesAt s i g (s.pc i) .state → s'.gState = s.gState) := by
  simp only [Pool.step, Option.bind_eq_bind, Option.bind_eq_some_iff] at hstep
  obtain ⟨nd, -, hstep⟩ := hstep
  cases hpc : s.pc i with
  | critical =>
    simp only [hpc] at hstep
    refine ⟨fun _ => ?_, fun hno => ?_⟩
    · repeat' split at hstep
      all_goals
        obtain rfl := Option.some.inj hstep
        rfl
    · split at hstep
      · obtain rfl := Option.some.inj hstep
        rfl
      · rename_i hnone
        exact absurd hnone hno
  | tiles | splitFrac | minTokens | clamp =>
    simp only [hpc, Option.some.injEq] at hstep
    subst hstep
    exact ⟨fun hno => absurd trivial hno, fun _ => rfl⟩
  | device =>
    simp only [hpc, Option.some.injEq] at hstep
    subst hstep
    exact ⟨fun _ => rfl, fun hno => absurd trivial hno⟩
  | _ =>
    simp only [hpc] at hstep
    repeat' split at hstep
    all_goals
      first
        | cases hstep
          exact ⟨fun _ => rfl, fun _ => rfl⟩
        | cases hstep

/-- What a step of the memory changes, its thread writes. -/
theorem Setup.step_writes (hstep : u.step m (i, choice) = some m') :
    (m'.pool.config ≠ m.pool.config → u.Writes m.pool i .config) ∧
      (m'.pool.gState ≠ m.pool.gState → u.Writes m.pool i .state) ∧
      (∀ y, m'.shim.map (fun sh => sh.gAcc.cell y) ≠ m.shim.map (fun sh => sh.gAcc.cell y) → u.Writes m.pool i (.acc y)) ∧
      ∀ k y dst dst', m.dst k = some dst → m'.dst k = some dst' → dst'.cell y ≠ dst.cell y →
        k = m.pool.node i ∧ u.Writes m.pool i (.dst y) := by
  obtain ⟨g, choice', hg, hpool, hmem⟩ := Setup.step_cases hstep
  refine ⟨fun hne => ⟨g, hg, ?_⟩, fun hne => ⟨g, hg, ?_⟩, fun y hne => ⟨g, hg, ?_⟩, fun k y dst dst' hk hk' hne => ?_⟩
  · by_contra hno
    exact hne ((step_settings hpool).1 hno)
  · by_contra hno
    exact hne ((step_settings hpool).2 hno)
  · rcases hmem with ⟨t, hpc, -⟩ | ⟨-, hshim, -⟩
    · rw [hpc]
      trivial
    · exact absurd (by rw [hshim]) hne
  · rcases hmem with ⟨t, -, hdst, -⟩ | ⟨-, -, hdst⟩
    · rw [hdst, hk] at hk'
      exact absurd (Option.some.inj hk' ▸ rfl) hne
    · rw [hdst] at hk'
      by_cases hhere : k = m.pool.node i
      · subst hhere
        rw [Function.update_self, hk] at hk'
        refine ⟨rfl, g, hg, ?_⟩
        by_contra hno
        exact hne (Setup.effect_keeps hk' hno)
      · rw [Function.update_of_ne hhere, hk] at hk'
        exact absurd (Option.some.inj hk' ▸ rfl) hne

/-! ## Who is where -/

/-- Before the answer is published only the thread in the critical section accesses anything. -/
theorem Fresh.holder (h : Fresh env s) (hx : u.Writes s i x ∨ u.Reads s i x) : s.gMu = some i := by
  by_contra hmu
  rcases h.outside i hmu with hpc | hpc
  · rcases hx with ⟨g, -, hx⟩ | ⟨g, -, hx⟩ <;> rw [hpc] at hx <;> exact hx.elim
  · rcases hx with ⟨g, -, hx⟩ | ⟨g, -, hx⟩ <;> rw [hpc] at hx <;> exact hx.elim

/-- At work on a `dst`. -/
def Pc.painting : Pc → Bool
  | .share _ | .rows _ _ | .cpu => true
  | _ => false

/-- A thread at work on a `dst` has not arrived at the executor's barrier of its node. -/
theorem PcOk.lt_of_painting {k : Nat} {p : Pc} (h : PcOk env nodes av res i k p) (hp : p.painting = true) :
    (p.sites (npuAt env nodes n av k) (res k) k).length < (nodeSites (npuAt env nodes n av k) (res k) k).length := by
  rw [length_nodeSites]
  cases p with
  | share => simp [Pc.sites]
  | rows =>
    obtain ⟨hnpu, hres⟩ : npuAt env nodes n av k = true ∧ res k = true := h
    simp [Pc.sites, hnpu, hres]
  | cpu => cases npuAt env nodes n av k <;> cases res k <;> simp [Pc.sites]
  | _ => exact absurd hp (by simp [Pc.painting])

/-- No thread is in a later node. -/
theorem Running.node_le (h : Running env nodes av res s) (hp : (s.pc i).painting = true) (j : Fin n) : s.node j ≤ s.node i := by
  by_contra hlt
  have hle := length_sites_lt (npuAt env nodes n av) res (Nat.not_le.mp hlt)
  have hi := h.arrived i
  rw [h.barriers, List.length_append] at hi
  have hless := (h.pc i).lt_of_painting hp
  have hlower := h.lower j
  have hji := h.synced j i
  simp only [Function.comp_apply] at hji
  omega

/-- While a thread is at its CPU share no other is past the first barrier of the node. -/
theorem Running.not_past_of_share (h : Running env nodes av res s) {T : Nat} (hpc : s.pc i = .share T)
    (hnode : s.node i = s.node j) : (s.pc j).past ≠ true := by
  intro hpast
  have hok := h.pc i
  rw [hpc] at hok
  obtain ⟨-, hnpu⟩ : i.val ≠ 0 ∧ npuAt env nodes n av (s.node i) = true := hok
  rw [hnode] at hnpu
  have hst := (h.all_here hnpu hpast i).2
  rw [hpc] at hst
  exact absurd hst (by simp [Pc.stored])

omit [SplitArith Q] in
/-- The place of a thread that writes to a `dst`. -/
theorem Setup.writesAt_dst {p : Pc} {y : Nat} (hx : u.writesAt s i g p (.dst y)) : p.painting = true := by
  cases p <;> first | rfl | exact hx.elim

omit [SplitArith Q] in
/-- The columns of a CPU share are those of its thread. -/
theorem cols_of_mem_cpuShare {kern : Kernels Float32} {nd : MulMat Float32} {T nth ith : Nat} {w : Write Float32}
    (hle : T ≤ nd.ne11) (h4 : 4 ∣ nd.ne01) (hone : ith ≠ 0) (hith : ith < nth) (hw : w ∈ cpuShare kern nd T nth ith) :
    (roundRow ((ith - 1) * nd.ne01 / (nth - 1)) ≤ w.col ∧ w.col < roundRow ((ith - 1 + 1) * nd.ne01 / (nth - 1))) ∧
      w.col < nd.ne01 := by
  have hcols := (of_mem_cpuShare hle hw).2
  exact ⟨hcols, Nat.lt_of_lt_of_le hcols.2 (cpuRows_le h4 (show ith - 1 < nth - 1 by omega))⟩

/-- Two threads do not write to the same cell of a `dst`. -/
theorem Running.dst_apart (h : Running u.env u.nodes av res s) (ht : Traced u.env u.nodes av s) (hfits : g.Fits)
    (hblock : u.block.Splits n g) (hij : i ≠ j) (hnode : s.node i = s.node j) (hg : u.graph[s.node i]? = some g) {y : Nat}
    (hi : u.writesAt s i g (s.pc i) (.dst y)) : ¬u.writesAt s j g (s.pc j) (.dst y) := by
  intro hj
  have hne : i.val ≠ j.val := fun heq => hij (Fin.ext heq)
  have hok := h.pc i
  have hok' := h.pc j
  have htok := ht.tokens i
  have htok' := ht.tokens j
  rw [← hnode] at hok' htok'
  cases hpi : s.pc i with
  | share T =>
    have hpast := h.not_past_of_share hpi hnode
    rw [hpi] at hi hok htok
    obtain ⟨hpos, hnpu⟩ : i.val ≠ 0 ∧ npuAt u.env u.nodes n av (s.node i) = true := hok
    obtain ⟨hs, hle, -⟩ := Setup.of_npu hg hnpu
    have h4 : 4 ∣ g.ne01 := Dvd.dvd.trans (by decide) (GraphNode.shape_of_supports hs).2.1
    cases hpj : s.pc j with
    | share T' =>
      rw [hpj] at hj hok' htok'
      obtain ⟨w, hw, hy⟩ := hi
      obtain ⟨w', hw', hy'⟩ := hj
      obtain ⟨hcols, hlt⟩ := cols_of_mem_cpuShare (htok ▸ hle) h4 hpos i.isLt hw
      obtain ⟨hcols', hlt'⟩ := cols_of_mem_cpuShare (htok' ▸ hle) h4 hok'.1 j.isLt hw'
      rw [(hfits.dst.cell_inj hlt hlt' (hy.symm.trans hy')).2] at hcols
      have heq := Sharding.shard_unique (monotone_cpuRows g.ne01 (n - 1)) hcols hcols'
      have hpos' : j.val ≠ 0 := hok'.1
      omega
    | rows | cpu => exact absurd (by rw [hpj]; rfl) hpast
    | _ =>
      rw [hpj] at hj
      exact hj.elim
  | rows r re =>
    rw [hpi] at hi hok htok
    obtain ⟨hnpu, hres⟩ : npuAt u.env u.nodes n av (s.node i) = true ∧ res (s.node i) = true := hok
    cases hpj : s.pc j with
    | share T' => exact absurd (by rw [hpi]; rfl) (h.not_past_of_share hpj hnode.symm)
    | rows r' re' =>
      rw [hpj] at hj htok'
      obtain ⟨hr, c, hc, hy⟩ := hi
      obtain ⟨hr', c', hc', hy'⟩ := hj
      obtain ⟨rfl, -⟩ := hfits.dst.cell_inj hc hc' (hy.symm.trans hy')
      obtain ⟨hlow, -, hhigh⟩ := htok
      obtain ⟨hlow', -, hhigh'⟩ := htok'
      exact hne (Sharding.shard_unique (Sharding.monotone_mul_div (tokensAt u.env u.nodes n av (s.node i)) n)
        ⟨hlow, hhigh ▸ hr⟩ ⟨hlow', hhigh' ▸ hr'⟩)
    | cpu =>
      rw [hpj] at hok'
      exact absurd hres (by rw [hok' hnpu]; decide)
    | _ =>
      rw [hpj] at hj
      exact hj.elim
  | cpu =>
    rw [hpi] at hi hok
    cases hpj : s.pc j with
    | share T' => exact absurd (by rw [hpi]; rfl) (h.not_past_of_share hpj hnode.symm)
    | rows r' re' =>
      rw [hpj] at hok'
      obtain ⟨hnpu, hres⟩ : npuAt u.env u.nodes n av (s.node i) = true ∧ res (s.node i) = true := hok'
      exact absurd hres (by rw [hok hnpu]; decide)
    | cpu =>
      rw [hpj] at hj
      obtain ⟨w, hw, hy⟩ := hi
      obtain ⟨w', hw', hy'⟩ := hj
      have hin := hblock.inside i i.isLt w hw
      have hin' := hblock.inside j j.isLt w' hw'
      exact hblock.apart i i.isLt j j.isLt hne w hw w' hw' (hfits.dst.cell_inj hin hin' (hy.symm.trans hy'))
    | _ =>
      rw [hpj] at hj
      exact hj.elim
  | _ =>
    rw [hpi] at hi
    exact hi.elim

/-- No thread converts a row while another thread is in an accumulate. -/
theorem Running.acc_apart (h : Running u.env u.nodes av res s) (hij : i ≠ j) {T : Nat} (hpi : s.pc i = .accumulating T) :
    (∀ T', s.pc j ≠ .accumulating T') ∧ ∀ r re, s.pc j ≠ .rows r re := by
  have hok := h.pc i
  rw [hpi] at hok
  obtain ⟨hzero, -⟩ : i.val = 0 ∧ npuAt u.env u.nodes n av (s.node i) = true := hok
  have hok' := h.pc j
  refine ⟨fun T' hpj => ?_, fun r re hpj => ?_⟩
  · rw [hpj] at hok'
    exact hij (Fin.ext (hzero.trans hok'.1.symm))
  · rw [hpj] at hok'
    have hst := (h.all_here hok'.1 (by rw [hpj]; rfl) i).2
    rw [hpi] at hst
    exact absurd hst (by simp [Pc.stored])

/-- Once the answer is published the configuration and `g_state` are not written. -/
theorem Running.settings_kept (h : Running u.env u.nodes av res s) (hx : x = .config ∨ x = .state) : ¬u.Writes s i x := by
  rintro ⟨g, -, hw⟩
  have hok := h.pc i
  have hstate := h.state
  rcases hx with rfl | rfl
  · cases hpc : s.pc i <;> rw [hpc] at hw hok <;> first | exact hok.elim | exact hw.elim
  · cases hpc : s.pc i <;> rw [hpc] at hw hok <;> first | exact hok.elim | exact hw.elim | skip
    exact absurd (hstate.symm.trans hw) (by simp)

/-- In every interleaving of the threads of a pool over any graph there is no data race: while a thread is at a place where it
writes to the configuration, to `g_state`, to a cell of the accumulator or to a cell of a `dst`, no other thread is at a place
where it writes to it or reads it. -/
theorem pool_race_free (u : Setup Q) (hfits : ∀ g ∈ u.graph, g.Fits) (hblock : ∀ g ∈ u.graph, u.block.Splits n g)
    (schedule : List (Fin n × Bool)) :
    let s := (u.run schedule).pool
    ∀ i j : Fin n, i ≠ j → ∀ x, u.Writes s i x → ¬u.Writes s j x ∧ ¬u.Reads s j x := by
  intro s i j hij x hi
  have hlive : Live u.env u.nodes s := by
    obtain ⟨schedule', hrun⟩ := u.run_refines schedule
    have hpool : Live u.env u.nodes (Pool.run u.env u.nodes schedule') :=
      interleave_invariant schedule' (Live.init ..) fun _ a _ h hstep => h.step hstep
    rwa [← hrun] at hpool
  rcases hlive.phase with h | ⟨av, res, h, ht⟩
  · have hme := h.holder (Or.inl hi)
    have hother : ∀ hj : u.Writes s j x ∨ u.Reads s j x, False := fun hj =>
      hij (Option.some.inj (hme.symm.trans (h.holder hj)))
    exact ⟨fun hj => hother (Or.inl hj), fun hj => hother (Or.inr hj)⟩
  cases x with
  | config => exact absurd hi (h.settings_kept (Or.inl rfl))
  | state => exact absurd hi (h.settings_kept (Or.inr rfl))
  | acc y =>
    obtain ⟨g, -, hw⟩ := hi
    obtain ⟨T, hpi⟩ : ∃ T, s.pc i = .accumulating T := by
      cases hpc : s.pc i <;> rw [hpc] at hw <;> first | exact ⟨_, rfl⟩ | exact hw.elim
    obtain ⟨hacc, hrows⟩ := h.acc_apart hij hpi
    constructor
    · rintro ⟨g', -, hw'⟩
      cases hpc : s.pc j <;> rw [hpc] at hw' <;> first | exact hacc _ hpc | exact hw'.elim
    · rintro ⟨g', -, hr'⟩
      cases hpc : s.pc j <;> rw [hpc] at hr' <;> first | exact hrows _ _ hpc | exact hr'.elim
  | dst y =>
    obtain ⟨g, hg, hw⟩ := hi
    constructor
    · rintro ⟨g', hg', hw'⟩
      have hnode : s.node i = s.node j :=
        Nat.le_antisymm (h.node_le (Setup.writesAt_dst hw') i) (h.node_le (Setup.writesAt_dst hw) j)
      obtain rfl : g = g' := by
        rw [← hnode] at hg'
        exact Option.some.inj (hg.symm.trans hg')
      have hmem : g ∈ u.graph := List.mem_of_getElem? hg
      exact h.dst_apart ht (hfits g hmem) (hblock g hmem) hij hnode hg hw hw'
    · rintro ⟨g', -, hr'⟩
      cases hpc : s.pc j <;> rw [hpc] at hr' <;> exact hr'.elim

/-- The threads of `rowBlock` have different rows. -/
theorem rowBlock_splits (g : GraphNode) (nth : Nat) : rowBlock.Splits nth g where
  inside _ hith _ hw := rowBlock_col_lt hith hw
  apart ith _ jth _ hne w hw w' hw' := by
    rintro ⟨-, hcol⟩
    have hin := (mem_rowBlock.mp hw).2.1
    rw [hcol] at hin
    exact hne (Sharding.shard_unique (Sharding.monotone_mul_div g.ne01 nth) hin (mem_rowBlock.mp hw').2.1)

/-- Three threads that take turns. -/
theorem pool_race_free_three_threads :
    let schedule : List (Fin 3 × Bool) := (List.range 4000).map fun x => (⟨x % 3, Nat.mod_lt x (by decide)⟩, true)
    let s := (plainSetup.run schedule).pool
    ∀ i j : Fin 3, i ≠ j → ∀ x, plainSetup.Writes s i x → ¬plainSetup.Writes s j x ∧ ¬plainSetup.Reads s j x := by
  have hvalid := plainSetup_valid 3 (by decide)
  exact pool_race_free plainSetup hvalid.fits (fun g _ => rowBlock_splits g 3) _

end Races

end Pool
end BitnetXdna
