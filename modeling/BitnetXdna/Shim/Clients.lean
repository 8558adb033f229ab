import BitnetXdna.Shim.Histories

/-!
# Several clients of one shim

Clients of the shim in one process, each running `bitnet_xdna_mul_mat` or the split form on its own rows of its own `dst`. An
accumulate is one step, since it holds the lock throughout; each row of an epilogue is a step of its own, since the epilogue
holds no lock. The steps of the clients interleave in any order. The accumulator belongs to the last accumulate that got past
the residency gate: a row is that of its client's own product as long as no other client's accumulate has come between
(`client_rows_own`), and not in general (`overtaken_row_wrong`).
-/

namespace BitnetXdna

open Exec

/-- What a client asks for: an accumulate, and the epilogue over its rows. -/
structure Job (F : Type) where
  call : Call
  args : EpilogueArgs F

/-- A step of a client: an accumulate, with the `dst` its rows go to, or one row of the epilogue of its last accumulate. -/
inductive Action (ι F : Type) where
  | accumulate (i : ι) (j : Job F) (dst : Buffer F)
  | row (i : ι) (t : Nat)

/-- The shim and its clients: the job that each client's last accumulate succeeded on, and each client's `dst`. -/
structure Clients (ι F : Type) where
  shim : Shim
  job : ι → Option (Job F)
  dst : ι → Buffer F

/-- A step of a run, with what it returned and the state on both sides. -/
abbrev ClientRecord (ι F : Type) := Record (Clients ι F) (Action ι F) Bool

/-- No call so far. -/
def Clients.init {ι F : Type} (dst : ι → Buffer F) : Clients ι F := ⟨.init, fun _ => none, dst⟩

section Clients

variable {ι F : Type} [DecidableEq ι] [EpilogueArith F]

/-- One step. A client whose accumulate did not succeed has no rows to convert. -/
def clientStep (h : Host) (s : Clients ι F) : Action ι F → Option (Bool × Clients ι F)
  | .accumulate i j dst => do
    let (ret, shim) ← accumulateStep h s.shim j.call
    pure (ret, ⟨shim, Function.update s.job i (if ret then some j else none), Function.update s.dst i dst⟩)
  | .row i t =>
    match s.job i with
    | none => some (false, s)
    | some j =>
      if t < j.call.T then do
        let dst ← epilogueRow s.shim.gAcc j.call.N j.args t (s.dst i)
        pure (true, { s with dst := Function.update s.dst i dst })
      else some (false, s)

/-- The accumulate calls among some steps. -/
def calls (as : List (Action ι F)) : List Call :=
  as.filterMap fun
    | .accumulate _ j _ => some j.call
    | .row _ _ => none

/-- The residency gate lets a call through: `get_resident_logged` returns an entry. -/
def Call.passes (h : Host) (c : Call) (s : Shim) : Bool :=
  match getResidentLogged h c.src0 c.packed c.K c.N s with
  | .ok (some _) _ => true
  | _ => false

/-- The memory of a job: that of its call, a scale for each token, and a `dst` of aligned rows that do not overlap. -/
structure Job.Fits (j : Job F) (dst : Buffer F) : Prop where
  call : j.call.Valid
  scales : j.call.T ≤ j.args.actScales.size
  aligned : 4 ∣ j.args.dstRowStride
  apart : 4 * j.call.N ≤ j.args.dstRowStride
  dst : ∀ t < j.call.T, t * j.args.dstRowStride / 4 + j.call.N ≤ dst.size

/-- Row `t` of `dst` is that of the job's own product, times its own `ws / act_scales[t]`. -/
def Job.HasRow (j : Job F) (t : Nat) (dst : Buffer F) : Prop :=
  ∀ n < j.call.N, dst.load (t * j.args.dstRowStride / 4 + n) =
    some (EpilogueArith.ofInt32 (Int32.ofInt (j.call.gemm t n)) * (j.args.ws / j.args.actScales.cell t))

/-! ## One row -/

/-- Row `t` of a job, converted from an accumulator. -/
def Job.writeRow (j : Job F) (gAcc : Buffer Int32) (t : Nat) (dst : Buffer F) : Buffer F :=
  dst.write (t * j.args.dstRowStride / 4) j.call.N fun n =>
    EpilogueArith.ofInt32 (gAcc.cell (t * j.call.N + n)) * (j.args.ws / j.args.actScales.cell t)

section Row

variable {j : Job F} {gAcc : Buffer Int32} {t t' : Nat} {dst : Buffer F}

/-- One row of the epilogue is one write. -/
theorem epilogueRow_eq (hj : j.Fits dst) (hacc : j.call.T * j.call.N ≤ gAcc.size) (ht : t < j.call.T) :
    epilogueRow gAcc j.call.N j.args t dst = some (j.writeRow gAcc t dst) := by
  have hscale : t < j.args.actScales.size := Nat.lt_of_lt_of_le ht hj.scales
  have hzero : t * j.args.dstRowStride % 4 = 0 := Nat.mod_eq_zero_of_dvd (hj.aligned.mul_left t)
  have hdst := hj.dst t ht
  rw [epilogueRow, Buffer.load_eq hscale, Option.bind_eq_bind, Option.bind_some, if_neg (not_not_intro hzero)]
  refine Buffer.forRange_store _ ?_
  intro n hn b hb
  rw [Buffer.load_eq (Nat.lt_of_lt_of_le (row_add_lt ht hn) hacc), Option.bind_eq_bind, Option.bind_some]
  exact Buffer.store_eq _ (by omega)

/-- Converting a row keeps the memory of a job. -/
theorem Job.Fits.writeRow (hj : j.Fits dst) : j.Fits (j.writeRow gAcc t dst) :=
  ⟨hj.call, hj.scales, hj.aligned, hj.apart, hj.dst⟩

/-- A row converted from an exact accumulator is the job's own. -/
theorem Job.hasRow_writeRow (hj : j.Fits dst) (hexact : j.call.Exact gAcc) (ht : t < j.call.T) :
    j.HasRow t (j.writeRow gAcc t dst) := by
  intro n hn
  obtain ⟨x, hload, hx⟩ := hexact t ht n hn
  have hcell : gAcc.cell (t * j.call.N + n) = x := by
    simp only [Buffer.load, Option.ite_none_right_eq_some, Option.some.injEq] at hload
    exact hload.2
  have hsize := hj.dst t ht
  rw [writeRow, Buffer.load_eq (by rw [Buffer.size_write]; omega), Buffer.cell_write_add _ _ hn, hcell, ← hx,
    Int32.ofInt_toInt]

/-- Converting another row leaves a row alone. -/
theorem Job.hasRow_writeRow_of_ne (hj : j.Fits dst) (hne : t ≠ t') (hrow : j.HasRow t dst) :
    j.HasRow t (j.writeRow gAcc t' dst) := by
  intro n hn
  obtain ⟨m, hm⟩ := hj.aligned
  have hN : j.call.N ≤ m := by
    have := hj.apart
    omega
  have hstart : ∀ t, t * j.args.dstRowStride / 4 = t * m := by
    intro t
    rw [hm, Nat.mul_left_comm, Nat.mul_div_cancel_left _ (by decide)]
  have happart : t * m + n < t' * m ∨ t' * m + j.call.N ≤ t * m + n := by
    rcases Nat.lt_or_gt_of_ne hne with hlt | hlt
    · exact Or.inl (row_add_lt hlt (Nat.lt_of_lt_of_le hn hN))
    · exact Or.inr (Nat.le_trans (row_add_le hlt hN) (Nat.le_add_right ..))
  have hkept := hrow n hn
  rw [hstart] at hkept
  rw [writeRow, hstart, hstart, Buffer.load, Buffer.size_write, Buffer.cell_write_of_not _ _ happart]
  exact hkept

/-- The epilogue over some rows of a job is defined wherever the accumulator is large enough, and from an exact accumulator
each of these rows is the job's own. -/
theorem bitnetXdnaEpilogue_rows (rb : Nat) {re : Nat} (hj : j.Fits dst) (hacc : j.call.T * j.call.N ≤ gAcc.size)
    (hre : re ≤ j.call.T) :
    ∃ dst', bitnetXdnaEpilogue gAcc j.call.N rb re j.args dst = some dst' ∧
      (j.call.Exact gAcc → ∀ t, rb ≤ t → t < re → j.HasRow t dst') := by
  have key := forRange_option (n := re - rb) (fun i dst => epilogueRow gAcc j.call.N j.args (rb + i) dst) dst
    (fun i dst' => j.Fits dst' ∧ (j.call.Exact gAcc → ∀ t, rb ≤ t → t < rb + i → j.HasRow t dst')) ?_ ?_
  · obtain ⟨dst', hrun, -, hrows⟩ := key
    exact ⟨dst', hrun, fun hexact t hlow hhigh => hrows hexact t hlow (by omega)⟩
  · exact ⟨hj, fun _ t hlow hhigh => absurd hhigh (by omega)⟩
  · rintro i hi dst' ⟨hfits, hrows⟩
    refine ⟨_, epilogueRow_eq hfits hacc (by omega), hfits.writeRow, fun hexact t hlow hhigh => ?_⟩
    by_cases heq : t = rb + i
    · subst heq
      exact Job.hasRow_writeRow hfits hexact (by omega)
    · exact Job.hasRow_writeRow_of_ne hfits heq (hrows hexact t hlow (by omega))

end Row

/-! ## What a step does -/

/-- The residency gate is defined. A tensor that it refuses is known to fail from then on, and nothing else changes but the
log and the bytes of uploads that were thrown away; a tensor that it lets through is resident. -/
theorem getResidentLogged_returns (h : Host) {c : Call} (s : Shim) (hv : c.Valid) :
    ∃ r s', getResidentLogged h c.src0 c.packed c.K c.N s = .ok r s' ∧ c.passes h s = r.isSome ∧
      (r = none → c.src0 ∈ s'.gFailed ∧ s'.gResident = s.gResident ∧ s'.gAcc = s.gAcc) ∧
      (r ≠ none → c.src0 ∈ s'.gResident) := by
  have hgate : wp False (getResidentLogged h c.src0 c.packed c.K c.N) (fun r s' =>
      (r = none → c.src0 ∈ s'.gFailed ∧ s'.gResident = s.gResident ∧ s'.gAcc = s.gAcc) ∧
        (r ≠ none → c.src0 ∈ s'.gResident)) (fun _ _ => False) s := by
    refine wp_getResidentLogged hv.packed (fun hf => ?_) (fun res _ hr _ _ => ?_) (fun res _ _ _ => ?_) (fun _ _ _ => ?_)
      (fun plan sp _ _ _ _ => ?_) fun plan e s' _ _ _ _ hs' => ?_
    · exact ⟨fun _ => ⟨hf, rfl, rfl⟩, fun h => absurd rfl h⟩
    · exact ⟨nofun, fun _ => AList.lookup_isSome.mp (by rw [hr]; rfl)⟩
    · exact ⟨fun _ => ⟨(AList.mem_insert _).mpr (Or.inl rfl), rfl, rfl⟩, fun h => absurd rfl h⟩
    · exact ⟨fun _ => ⟨(AList.mem_insert _).mpr (Or.inl rfl), rfl, rfl⟩, fun h => absurd rfl h⟩
    · exact ⟨nofun, fun _ => (AList.mem_insert _).mpr (Or.inl rfl)⟩
    · exact ⟨fun _ => ⟨(AList.mem_insert _).mpr (Or.inl rfl), hs'.gResident, hs'.gAcc⟩, fun h => absurd rfl h⟩
  obtain ⟨r, s', hrun, hnone, hsome⟩ := wp_returns hgate
  refine ⟨r, s', hrun, ?_, hnone, hsome⟩
  unfold Call.passes
  rw [hrun]
  cases r <;> rfl

/-- A call that the residency gate refuses fails; its tensor is known to fail, and the accumulator and the resident tensors
are as they were. -/
theorem accumulate_of_not_passes {h : Host} {c : Call} {s s' : Shim} {ret : Bool} (hv : c.Valid)
    (hpass : c.passes h s = false) (hrun : accumulateStep h s c = some (ret, s')) :
    ret = false ∧ c.src0 ∈ s'.gFailed ∧ s'.gResident = s.gResident ∧ s'.gAcc = s.gAcc := by
  obtain ⟨r, s₁, hres, hsome, hnone, -⟩ := getResidentLogged_returns h s hv
  obtain rfl : r = none := by rwa [hpass, eq_comm, Option.isSome_eq_false_iff, Option.isNone_iff_eq_none] at hsome
  have hcall : bitnetXdnaAccumulate h c s = .ok false s₁ := by
    simp only [bitnetXdnaAccumulate, catchAll, Bind.bind, hres, Pure.pure]
  rw [accumulateStep, hcall] at hrun
  obtain ⟨rfl, rfl⟩ := Prod.mk.inj (Option.some.inj hrun)
  exact ⟨rfl, hnone rfl⟩

/-- The accumulator never shrinks. -/
theorem AccumulateStep.accSize {h : Host} {c : Call} {s s' : Shim} {ret : Bool} (hstep : AccumulateStep h c s ret s') :
    s.gAcc.size ≤ s'.gAcc.size := by
  cases hstep with
  | refused | shape | plan => exact Nat.le_refl _
  | threw plan e s' hf hr hp hs' => exact Nat.le_of_eq (congrArg Buffer.size hs'.gAcc.symm)
  | hit res ret s' hf hr hK hN hs' => exact hs'.accSize
  | built plan sp ret s' hf hr hp hsp hs' => exact Nat.le_trans hsp.frame.accSize hs'.accSize

/-- What a step does. An accumulate changes the shim, and the job and the `dst` of its client; a row changes its client's
`dst`, or nothing if there is no such row. -/
inductive Effect (h : Host) (s : Clients ι F) : Action ι F → Bool → Clients ι F → Prop where
  | accumulated (i : ι) (j : Job F) (dst : Buffer F) (ret : Bool) (shim : Shim) (hfits : j.Fits dst)
      (hquiet : j.call.passes h s.shim = false → shim.gAcc = s.shim.gAcc) (hexact : ret = true → j.call.Exact shim.gAcc) :
      Effect h s (.accumulate i j dst) ret
        ⟨shim, Function.update s.job i (if ret then some j else none), Function.update s.dst i dst⟩
  | converted (i : ι) (t : Nat) (j : Job F) (hj : s.job i = some j) (ht : t < j.call.T) (hfits : j.Fits (s.dst i)) :
      Effect h s (.row i t) true { s with dst := Function.update s.dst i (j.writeRow s.shim.gAcc t (s.dst i)) }
  | idle (i : ι) (t : Nat) (hidle : ∀ j, s.job i = some j → j.call.T ≤ t) : Effect h s (.row i t) false s

/-- The shim and its clients after the steps `past`. -/
structure ClientsInv (past : List (Action ι F)) (s : Clients ι F) : Prop where
  shim : ShimInv (calls past) s.shim
  job : ∀ i j, s.job i = some j → j.Fits (s.dst i) ∧ j.call.T * j.call.N ≤ s.shim.gAcc.size

/-- An accumulate of a client. -/
theorem clientStep_accumulate {h : Host} {s : Clients ι F} {i : ι} {j : Job F} {dst : Buffer F} {ret : Bool} {shim : Shim}
    (hrun : accumulateStep h s.shim j.call = some (ret, shim)) :
    clientStep h s (.accumulate i j dst) =
      some (ret, ⟨shim, Function.update s.job i (if ret then some j else none), Function.update s.dst i dst⟩) := by
  rw [clientStep, hrun]
  rfl

/-- A row of a client's job. -/
theorem clientStep_row {h : Host} {s : Clients ι F} {i : ι} {j : Job F} {t : Nat} {dst : Buffer F} (hj : s.job i = some j)
    (ht : t < j.call.T) (hrow : epilogueRow s.shim.gAcc j.call.N j.args t (s.dst i) = some dst) :
    clientStep h s (.row i t) = some (true, { s with dst := Function.update s.dst i dst }) := by
  simp only [clientStep, hj, if_pos ht, hrow]
  rfl

/-- A step of a run is defined, and does what `Effect` says. -/
theorem clientStep_spec {h : Host} {past : List (Action ι F)} {a : Action ι F} {s : Clients ι F}
    (hfits : ∀ i j d, a = .accumulate i j d → j.Fits d) (hstable : Stable (calls (past ++ [a])))
    (hI : ClientsInv past s) :
    ∃ ret s', clientStep h s a = some (ret, s') ∧ Effect h s a ret s' ∧ ClientsInv (past ++ [a]) s' := by
  cases a with
  | accumulate i j dst =>
    have hj := hfits i j dst rfl
    have hcalls : calls (past ++ [.accumulate i j dst]) = calls past ++ [j.call] := by simp [calls]
    obtain ⟨ret, shim, hrun, hstep, hshim, hexact, -⟩ := accumulateStep_spec (h := h) hj.call hI.shim
    have hown : ret = true → j.call.Exact shim.gAcc := by
      intro hret
      obtain ⟨res, hr, hK, hN, hres⟩ := hexact hret
      rw [hcalls] at hstable
      exact hshim.exact (fun c' hc' => hstable _ (by simp) c' hc') hr hK hN hres
    refine ⟨ret, _, clientStep_accumulate hrun, .accumulated i j dst ret shim hj
      (fun hpass => (accumulate_of_not_passes hj.call hpass hrun).2.2.2) hown, hcalls ▸ hshim, ?_⟩
    intro i' j' hj'
    by_cases hi : i' = i
    · subst hi
      simp only [Function.update_self] at hj' ⊢
      cases ret with
      | false => exact absurd hj' (by simp)
      | true =>
        obtain rfl := Option.some.inj hj'
        exact ⟨hj, (hown rfl).size_le⟩
    · simp only [Function.update_of_ne hi] at hj' ⊢
      obtain ⟨hfits', hsize⟩ := hI.job i' j' hj'
      exact ⟨hfits', Nat.le_trans hsize hstep.accSize⟩
  | row i t =>
    have hcalls : calls (past ++ [.row i t]) = calls past := by simp [calls]
    cases hj : s.job i with
    | none =>
      exact ⟨false, s, by simp only [clientStep, hj], .idle i t fun j hj' => by simp [hj] at hj', hcalls ▸ hI.shim, hI.job⟩
    | some j =>
      obtain ⟨hfits', hsize⟩ := hI.job i j hj
      by_cases ht : t < j.call.T
      · refine ⟨true, _, clientStep_row hj ht (epilogueRow_eq hfits' hsize ht), .converted i t j hj ht hfits',
          hcalls ▸ hI.shim, ?_⟩
        intro i' j' hj'
        obtain ⟨hfits'', hsize'⟩ := hI.job i' j' hj'
        refine ⟨?_, hsize'⟩
        dsimp only
        by_cases hi : i' = i
        · subst hi
          obtain rfl := Option.some.inj (hj.symm.trans hj')
          rw [Function.update_self]
          exact hfits''.writeRow
        · rw [Function.update_of_ne hi]
          exact hfits''
      · refine ⟨false, s, by simp only [clientStep, hj, if_neg ht], .idle i t fun j' hj' => ?_, hcalls ▸ hI.shim, hI.job⟩
        obtain rfl := Option.some.inj (hj.symm.trans hj')
        exact Nat.le_of_not_lt ht

/-! ## From an accumulate to the end of a job -/

/-- An accumulate that gets past the residency gate. -/
def Overtakes (h : Host) (r : ClientRecord ι F) : Prop :=
  ∃ i j d, r.input = .accumulate i j d ∧ j.call.passes h r.before.shim = true

section Effect

variable {h : Host} {i : ι} {j : Job F} {t : Nat} {s s' : Clients ι F} {a : Action ι F} {ret : Bool}

/-- Until its next accumulate a client keeps its job. -/
theorem Effect.job (heff : Effect h s a ret s') (hother : ∀ j d, a ≠ .accumulate i j d) : s'.job i = s.job i := by
  cases heff with
  | accumulated i' j' dst ret shim =>
    have hi : i ≠ i' := by
      rintro rfl
      exact hother j' dst rfl
    exact Function.update_of_ne hi ..
  | converted | idle => rfl

/-- A step that does not get past the residency gate leaves the accumulator alone. -/
theorem Effect.gAcc (heff : Effect h s a ret s')
    (hquiet : ∀ i j d, a = .accumulate i j d → j.call.passes h s.shim = false) : s'.shim.gAcc = s.shim.gAcc := by
  cases heff with
  | accumulated i' j' dst ret shim hfits hgate => exact hgate (hquiet i' j' dst rfl)
  | converted | idle => rfl

/-- A step other than its own conversion leaves a row of a client alone. -/
theorem Effect.hasRow (heff : Effect h s a ret s') (hother : ∀ j d, a ≠ .accumulate i j d) (hj : s.job i = some j)
    (hrow : j.HasRow t (s.dst i)) (hne : a ≠ .row i t) : j.HasRow t (s'.dst i) := by
  cases heff with
  | accumulated i' j' dst ret shim =>
    have hi : i ≠ i' := by
      rintro rfl
      exact hother j' dst rfl
    dsimp only
    rw [Function.update_of_ne hi]
    exact hrow
  | converted i' t' j' hj' ht' hfits =>
    dsimp only
    by_cases hi : i = i'
    · subst hi
      obtain rfl := Option.some.inj (hj.symm.trans hj')
      rw [Function.update_self]
      refine Job.hasRow_writeRow_of_ne hfits ?_ hrow
      rintro rfl
      exact hne rfl
    · rw [Function.update_of_ne hi]
      exact hrow
  | idle => exact hrow

/-- Its own conversion, from its own product, gives the row. -/
theorem Effect.hasRow_row (heff : Effect h s (.row i t) ret s') (hj : s.job i = some j) (hexact : j.call.Exact s.shim.gAcc)
    (ht : t < j.call.T) : j.HasRow t (s'.dst i) := by
  cases heff with
  | converted _ _ j' hj' ht' hfits =>
    obtain rfl := Option.some.inj (hj.symm.trans hj')
    dsimp only
    rw [Function.update_self]
    exact Job.hasRow_writeRow hfits hexact ht
  | idle _ _ hidle => exact absurd ht (Nat.not_lt.mpr (hidle j hj))

/-- After an accumulate that succeeded its client has the job, and the accumulator holds the product. -/
theorem Effect.of_accumulate {dst : Buffer F} (heff : Effect h s (.accumulate i j dst) true s') :
    s'.job i = some j ∧ j.call.Exact s'.shim.gAcc := by
  cases heff with
  | accumulated _ _ _ _ shim hfits hgate hexact => exact ⟨Function.update_self .., hexact rfl⟩

end Effect

/-- A step of a run, with no accumulate of client `i`. -/
def Step (h : Host) (i : ι) (r : ClientRecord ι F) : Prop :=
  Effect h r.before r.input r.output r.after ∧ ∀ j d, r.input ≠ .accumulate i j d

section Run

variable {h : Host} {i : ι} {j : Job F} {t : Nat} {is : List (Action ι F)} {s : Clients ι F}
  {mid post : List (ClientRecord ι F)}

/-- A row that is not converted again stays. -/
theorem hasRow_finish (hrun : history (clientStep h) s is = some (mid ++ post)) (hsteps : ∀ q ∈ mid, Step h i q)
    (hj : s.job i = some j) (hrow : j.HasRow t (s.dst i)) (hnone : ∀ q ∈ mid, q.input ≠ .row i t) :
    j.HasRow t ((finish s mid).dst i) := by
  induction mid generalizing s is with
  | nil => exact hrow
  | cons q mid ih =>
    obtain ⟨rfl, -, is', hrun'⟩ := history_cons hrun
    obtain ⟨heff, hother⟩ := hsteps q (List.mem_cons_self ..)
    refine ih hrun' (fun q' hq' => hsteps q' (List.mem_cons_of_mem _ hq')) ((heff.job hother).trans hj) ?_
      fun q' hq' => hnone q' (List.mem_cons_of_mem _ hq')
    exact heff.hasRow hother hj hrow (hnone q (List.mem_cons_self ..))

/-- A row that is there or is converted, and only ever converted before an accumulate overtakes, is there at the end. -/
theorem hasRow_of_undisturbed (hrun : history (clientStep h) s is = some (mid ++ post)) (hsteps : ∀ q ∈ mid, Step h i q)
    (hj : s.job i = some j) (hexact : j.call.Exact s.shim.gAcc) (ht : t < j.call.T)
    (hrow : j.HasRow t (s.dst i) ∨ ∃ q ∈ mid, q.input = .row i t)
    (hcalm : ∀ m₁ q m₂, mid = m₁ ++ q :: m₂ → q.input = .row i t → ∀ o ∈ m₁, ¬Overtakes h o) :
    j.HasRow t ((finish s mid).dst i) := by
  induction mid generalizing s is with
  | nil => exact hrow.elim id fun ⟨q, hq, _⟩ => absurd hq (by simp)
  | cons q mid ih =>
    obtain ⟨rfl, -, is', hrun'⟩ := history_cons hrun
    obtain ⟨heff, hother⟩ := hsteps q (List.mem_cons_self ..)
    have hj' : q.after.job i = some j := (heff.job hother).trans hj
    have hsteps' : ∀ q' ∈ mid, Step h i q' := fun q' hq' => hsteps q' (List.mem_cons_of_mem _ hq')
    by_cases hover : Overtakes h q
    · -- no conversion of the row comes after an overtaking accumulate
      have hnone : ∀ q' ∈ mid, q'.input ≠ .row i t := by
        intro q' hq' hin
        obtain ⟨m₁, m₂, rfl⟩ := List.append_of_mem hq'
        exact hcalm (q :: m₁) q' m₂ rfl hin q (List.mem_cons_self ..) hover
      have hne : q.input ≠ .row i t := by
        obtain ⟨i', j', d, hin, -⟩ := hover
        rw [hin]
        nofun
      have hthere : j.HasRow t (q.before.dst i) := by
        rcases hrow with hrow | ⟨q', hq', hin⟩
        · exact hrow
        · rcases List.mem_cons.mp hq' with rfl | hq'
          · exact absurd hin hne
          · exact absurd hin (hnone q' hq')
      rw [finish_cons]
      exact hasRow_finish hrun' hsteps' hj' (heff.hasRow hother hj hthere hne) hnone
    · have hquiet : ∀ i' j' d, q.input = .accumulate i' j' d → j'.call.passes h q.before.shim = false := by
        intro i' j' d hin
        by_contra hpass
        exact hover ⟨i', j', d, hin, eq_true_of_ne_false hpass⟩
      have hexact' : j.call.Exact q.after.shim.gAcc := by rwa [heff.gAcc hquiet]
      have hcalm' : ∀ m₁ q' m₂, mid = m₁ ++ q' :: m₂ → q'.input = .row i t → ∀ o ∈ m₁, ¬Overtakes h o := by
        intro m₁ q' m₂ hmid hin o ho
        exact hcalm (q :: m₁) q' m₂ (congrArg (q :: ·) hmid) hin o (List.mem_cons_of_mem _ ho)
      refine ih hrun' hsteps' hj' hexact' ?_ hcalm'
      by_cases hin : q.input = .row i t
      · rw [hin] at heff
        exact Or.inl (heff.hasRow_row hj hexact ht)
      · rcases hrow with hrow | ⟨q', hq', hin'⟩
        · exact Or.inl (heff.hasRow hother hj hrow hin)
        · rcases List.mem_cons.mp hq' with rfl | hq'
          · exact absurd hin' hin
          · exact Or.inr ⟨q', hq', hin'⟩

end Run

/-- In every interleaving of the steps of any clients, every step is defined, and a row that a client converts before any
other accumulate gets past the residency gate is that of its own product, from then on until the client's next accumulate. -/
theorem client_rows_own (h : Host) (dst : ι → Buffer F) (as : List (Action ι F))
    (hfits : ∀ i j d, .accumulate i j d ∈ as → j.Fits d) (hstable : Stable (calls as)) :
    ∃ rs, history (clientStep h) (.init dst) as = some rs ∧ rs.map Record.input = as ∧
      ∀ (pre : List (ClientRecord ι F)) (r : ClientRecord ι F) (mid post : List (ClientRecord ι F)) i j d,
        rs = pre ++ r :: (mid ++ post) → r.input = .accumulate i j d → r.output = true →
        (∀ q ∈ mid, ∀ j' d', q.input ≠ .accumulate i j' d') →
        ∀ t < j.call.T, (∃ q ∈ mid, q.input = .row i t) →
          (∀ m₁ q m₂, mid = m₁ ++ q :: m₂ → q.input = .row i t → ∀ o ∈ m₁, ¬Overtakes h o) →
          j.HasRow t ((finish r.after mid).dst i) := by
  obtain ⟨rs, hrun, hinput, heffects⟩ := history_invariant (clientStep h) as (s := .init dst) ClientsInv
    (fun r => Effect h r.before r.input r.output r.after) ⟨ShimInv.init, nofun⟩ fun past a rest s hall hI => by
      have hpast : calls as = calls (past ++ [a]) ++ calls rest := by
        rw [hall, List.append_cons, calls, List.filterMap_append]
        rfl
      have hstable' : Stable (calls (past ++ [a])) := fun c hc c' hc' =>
        hstable c (hpast ▸ List.mem_append_left _ hc) c' (hpast ▸ List.mem_append_left _ hc')
      obtain ⟨ret, s', hrun, heff, hI'⟩ := clientStep_spec (h := h)
        (fun i j d ha => hfits i j d (by simp [hall, ha])) hstable' hI
      exact ⟨ret, s', hrun, hI', heff⟩
  refine ⟨rs, hrun, hinput, fun pre r mid post i j d hrs hin hout hother t ht hrow hcalm => ?_⟩
  subst hrs
  obtain ⟨is, hr⟩ := history_drop hrun
  obtain ⟨-, -, is', hmid⟩ := history_cons hr
  have heff := heffects r (by simp)
  have hsteps : ∀ q ∈ mid, Step h i q := fun q hq => ⟨heffects q (by simp [hq]), hother q hq⟩
  rw [hin, hout] at heff
  obtain ⟨hj, hexact⟩ := heff.of_accumulate
  exact hasRow_of_undisturbed hmid hsteps hj hexact ht (Or.inr hrow) hcalm

end Clients

/-! ## Two clients of one tensor -/

/-- A job of one token on tensor 0, with all activations equal. -/
def oneRow (a : Int8) : Job Float32 where
  call := { oneToken 0 2560 2560 with aQ := .replicate 2560 a }
  args := ⟨.replicate 1 1, 1, 4 * 2560⟩

/-- A `dst` of one row. -/
def oneRowDst : Buffer Float32 := .replicate 2560 0

theorem oneRow_fits (a : Int8) : (oneRow a).Fits oneRowDst :=
  ⟨⟨(oneToken_valid 0 2560 2560).packed, (oneToken_valid 0 2560 2560).aQ⟩, Nat.le_refl 1, ⟨2560, rfl⟩, Nat.le_refl _,
    fun t ht => by
      obtain rfl : t = 0 := Nat.lt_one_iff.mp ht
      simp [oneRow, oneToken, oneRowDst]⟩

/-- Every weight of tensor 0 is -1. -/
theorem gemm_oneRow (a : Int8) (n : Nat) : (oneRow a).call.gemm 0 n = 2560 * -a.toInt := by
  have hterm : ∀ k ∈ Finset.range 2560, (oneRow a).call.weight n k * (oneRow a).call.act 0 k = -a.toInt := by
    intro k _
    have hcode : i2sCode (oneRow a).call.packed (n * (2560 / 4)) k = 0 := by
      rw [i2sCode]
      simp [oneRow, oneToken]
    have hweight : (oneRow a).call.weight n k = -1 := by
      rw [Call.weight, i2sWeight]
      exact (congrArg (fun c : UInt8 => (c.toNat : Int) - 1) hcode).trans (by decide)
    rw [hweight]
    simp [oneRow, Call.act]
  calc (oneRow a).call.gemm 0 n = ∑ k ∈ Finset.range 2560, -a.toInt := Finset.sum_congr rfl hterm
    _ = 2560 * -a.toInt := by rw [Finset.sum_const, Finset.card_range, nsmul_eq_mul]; rfl

theorem oneRow_stable {a b : Int8} {cs : List Call} (hcs : ∀ c ∈ cs, c = (oneRow a).call ∨ c = (oneRow b).call) :
    Stable cs := by
  intro c hc c' hc' _ _ _ i _
  rcases hcs c hc with rfl | rfl <;> rcases hcs c' hc' with rfl | rfl <;> rfl

/-- Two clients, one after the other. -/
theorem client_rows_own_in_turn :
    let as : List (Action (Fin 2) Float32) :=
      [.accumulate 0 (oneRow 1) oneRowDst, .row 0 0, .accumulate 1 (oneRow 0) oneRowDst, .row 1 0]
    ∃ rs, history (clientStep .faultless) (.init fun _ => oneRowDst) as = some rs ∧ rs.map Record.input = as ∧
      ∀ (pre : List (ClientRecord (Fin 2) Float32)) (r : ClientRecord (Fin 2) Float32)
        (mid post : List (ClientRecord (Fin 2) Float32)) i j d,
        rs = pre ++ r :: (mid ++ post) → r.input = .accumulate i j d → r.output = true →
        (∀ q ∈ mid, ∀ j' d', q.input ≠ .accumulate i j' d') →
        ∀ t < j.call.T, (∃ q ∈ mid, q.input = .row i t) →
          (∀ m₁ q m₂, mid = m₁ ++ q :: m₂ → q.input = .row i t → ∀ o ∈ m₁, ¬Overtakes .faultless o) →
          j.HasRow t ((finish r.after mid).dst i) := by
  refine client_rows_own .faultless _ _ (fun i j d hmem => ?_) (oneRow_stable (a := 1) (b := 0) fun c hc => ?_)
  · simp only [List.mem_cons, List.not_mem_nil, or_false, Action.accumulate.injEq, reduceCtorEq, false_or] at hmem
    rcases hmem with ⟨-, rfl, rfl⟩ | ⟨-, rfl, rfl⟩ <;> exact oneRow_fits _
  · simpa [calls] using hc

/-- Two clients of one tensor, on a device that never fails: both accumulates succeed before either row is converted, and the
first client gets the second one's row. -/
theorem overtaken_row_wrong :
    let as : List (Action (Fin 2) Float32) :=
      [.accumulate 0 (oneRow 1) oneRowDst, .accumulate 1 (oneRow 0) oneRowDst, .row 0 0, .row 1 0]
    (∀ i j d, .accumulate i j d ∈ as → j.Fits d) ∧ Stable (calls as) ∧
      ∃ rs, history (clientStep .faultless) (.init fun _ => oneRowDst) as = some rs ∧ (∀ r ∈ rs, r.output = true) ∧
        ¬(oneRow 1).HasRow 0 ((finish (.init fun _ => oneRowDst) rs).dst 0) := by
  refine ⟨fun i j d hmem => ?_, oneRow_stable (a := 1) (b := 0) fun c hc => by simpa [calls] using hc, ?_⟩
  · simp only [List.mem_cons, List.not_mem_nil, or_false, Action.accumulate.injEq, reduceCtorEq] at hmem
    rcases hmem with ⟨-, rfl, rfl⟩ | ⟨-, rfl, rfl⟩ <;> exact oneRow_fits _
  -- the first client's accumulate makes the tensor resident
  have hinit : (oneRow 1).call.Servable .init := ⟨by decide, by decide, by simp [Shim.init]⟩
  obtain ⟨ret₁, s₁, hrun₁, hstep₁, hI₁, hexact₁, hlive₁⟩ :=
    accumulateStep_spec (h := .faultless) (oneRow_fits 1).call ShimInv.init
  obtain rfl : ret₁ = true := hlive₁ Host.faultless_clean hinit
  obtain ⟨res, hr₁, hK₁, hN₁, -⟩ := hexact₁ rfl
  have hdisj₁ : s₁.KeysDisjoint := by
    apply hstep₁.keysDisjoint
    · rintro ⟨_, hr, _⟩
      simp [Shim.init] at hr
    · intro p hp
      simp [Shim.init] at hp
  -- the second client's finds it there, and leaves its own product in the accumulator
  have hserv : (oneRow 0).call.Servable s₁ := by
    refine ⟨hdisj₁ _ (AList.lookup_isSome.mp (Option.isSome_iff_exists.mpr ⟨res, hr₁⟩)), by decide, fun res' hr' => ?_⟩
    obtain rfl := Option.some.inj (hr₁.symm.trans hr')
    exact ⟨hK₁, hN₁⟩
  obtain ⟨ret₂, s₂, hrun₂, -, hI₂, hexact₂, hlive₂⟩ :=
    accumulateStep_spec (h := .faultless) (oneRow_fits 0).call hI₁
  obtain rfl : ret₂ = true := hlive₂ Host.faultless_clean hserv
  obtain ⟨res₂, hr₂, hK₂, hN₂, hres₂⟩ := hexact₂ rfl
  have hown : (oneRow 0).call.Exact s₂.gAcc := by
    refine hI₂.exact (fun c' hc' _ _ _ i _ => ?_) hr₂ hK₂ hN₂ hres₂
    simp only [List.nil_append, List.mem_append, List.mem_singleton] at hc'
    rcases hc' with rfl | rfl <;> rfl
  -- both rows are converted from it
  have hrow : ∀ a : Int8, epilogueRow s₂.gAcc (oneRow a).call.N (oneRow a).args 0 oneRowDst =
      some ((oneRow a).writeRow s₂.gAcc 0 oneRowDst) := fun a =>
    epilogueRow_eq (oneRow_fits a) hown.size_le Nat.one_pos
  refine ⟨_, history_of_step (clientStep_accumulate hrun₁) (history_of_step (clientStep_accumulate hrun₂)
    (history_of_step (clientStep_row rfl Nat.one_pos (hrow 1))
      (history_of_step (clientStep_row rfl Nat.one_pos (hrow 0)) rfl))), by simp, fun hbad => ?_⟩
  have hfirst : (oneRow 1).HasRow 0 ((oneRow 1).writeRow s₂.gAcc 0 oneRowDst) := hbad
  have hzero : (oneRow 0).HasRow 0 ((oneRow 0).writeRow s₂.gAcc 0 oneRowDst) :=
    Job.hasRow_writeRow (oneRow_fits 0) hown Nat.one_pos
  have hsame : some _ = some _ := (hfirst 0 (by decide)).symm.trans (hzero 0 (by decide))
  rw [gemm_oneRow, gemm_oneRow] at hsame
  exact absurd (Option.some.inj hsame) (by decide)

end BitnetXdna
