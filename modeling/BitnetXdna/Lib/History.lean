import Mathlib.Tactic.Common

/-!
# Histories

A component that is called again and again: `step s i` is what one call with input `i` returns and the state it leaves, where
it is defined. `history` records a whole sequence of calls; `history_invariant` is the rule for a property of every record,
by an invariant between the state and the inputs so far, and `history_pairwise` the one for a property of every two of them.
`history_cons` and `history_drop` take a history apart.
-/

/-- One call of a history, with the states around it. -/
structure Record (σ ι ο : Type) where
  before : σ
  input : ι
  output : ο
  after : σ

section

variable {σ ι ο : Type}

/-- The records of a sequence of calls, one after the other. -/
def history (step : σ → ι → Option (ο × σ)) : σ → List ι → Option (List (Record σ ι ο))
  | _, [] => some []
  | s, i :: is => do
    let (o, s') ← step s i
    let rs ← history step s' is
    pure (⟨s, i, o, s'⟩ :: rs)

/-- A call and the history after it. -/
theorem history_of_step {step : σ → ι → Option (ο × σ)} {s s' : σ} {i : ι} {o : ο} {is : List ι}
    {rs : List (Record σ ι ο)} (hs : step s i = some (o, s')) (h : history step s' is = some rs) :
    history step s (i :: is) = some (⟨s, i, o, s'⟩ :: rs) := by
  simp only [history, hs, h, Option.bind_eq_bind, Option.bind_some, Option.pure_def]

/-- The state after some records from a state. -/
def finish : σ → List (Record σ ι ο) → σ
  | s, [] => s
  | _, r :: rs => finish r.after rs

@[simp] theorem finish_nil (s : σ) : finish s ([] : List (Record σ ι ο)) = s := rfl

@[simp] theorem finish_cons (s : σ) (r : Record σ ι ο) (rs : List (Record σ ι ο)) : finish s (r :: rs) = finish r.after rs :=
  rfl

/-- The first record of a history is its first call, and the others are a history from the state it leaves. -/
theorem history_cons {step : σ → ι → Option (ο × σ)} {s : σ} {is : List ι} {r : Record σ ι ο} {rs : List (Record σ ι ο)}
    (h : history step s is = some (r :: rs)) :
    r.before = s ∧ step s r.input = some (r.output, r.after) ∧ ∃ is', history step r.after is' = some rs := by
  cases is with
  | nil => exact absurd (Option.some.inj h) (by simp)
  | cons i is =>
    simp only [history, Option.bind_eq_bind, Option.bind_eq_some_iff, Option.pure_def, Option.some.injEq] at h
    obtain ⟨⟨o, s'⟩, hs, rs', hrs', heq⟩ := h
    obtain ⟨rfl, rfl⟩ := List.cons.inj heq
    exact ⟨rfl, hs, is, hrs'⟩

/-- What follows some records of a history is a history from the state they leave. -/
theorem history_drop {step : σ → ι → Option (ο × σ)} {s : σ} {is : List ι} {pre rs : List (Record σ ι ο)}
    (h : history step s is = some (pre ++ rs)) : ∃ is', history step (finish s pre) is' = some rs := by
  induction pre generalizing s is with
  | nil => exact ⟨is, h⟩
  | cons r pre ih =>
    obtain ⟨-, -, is', h'⟩ := history_cons h
    exact ih h'

/-- A property of every record of a history, by an invariant that each call carries on. The step may use that its input is
one of the history, and which inputs came before it. -/
theorem history_invariant (step : σ → ι → Option (ο × σ)) (all : List ι) {s : σ} (I : List ι → σ → Prop)
    (P : Record σ ι ο → Prop) (h0 : I [] s)
    (hstep : ∀ past i rest s, all = past ++ i :: rest → I past s →
      ∃ o s', step s i = some (o, s') ∧ I (past ++ [i]) s' ∧ P ⟨s, i, o, s'⟩) :
    ∃ rs, history step s all = some rs ∧ rs.map Record.input = all ∧ ∀ r ∈ rs, P r := by
  -- the calls still to come, after any past
  have key : ∀ (is past : List ι) (s : σ), all = past ++ is → I past s →
      ∃ rs, history step s is = some rs ∧ rs.map Record.input = is ∧ ∀ r ∈ rs, P r := by
    intro is
    induction is with
    | nil => exact fun _ _ _ _ => ⟨[], rfl, rfl, by simp⟩
    | cons i is ih =>
      intro past s hall hI
      obtain ⟨o, s', hs, hI', hP⟩ := hstep past i is s hall hI
      obtain ⟨rs, hrs, hmap, hall'⟩ := ih (past ++ [i]) s' (by simpa using hall) hI'
      refine ⟨⟨s, i, o, s'⟩ :: rs, history_of_step hs hrs, congrArg (i :: ·) hmap, fun r hr => ?_⟩
      rcases List.mem_cons.mp hr with rfl | hr
      · exact hP
      · exact hall' r hr
  exact key all [] s rfl h0

/-- What holds at the start and is carried by every record of a history holds before every one of them. -/
theorem history_before {step : σ → ι → Option (ο × σ)} {is : List ι} {s : σ} {rs : List (Record σ ι ο)}
    (I : σ → Prop) (h : history step s is = some rs) (h0 : I s) (hstep : ∀ r ∈ rs, I r.before → I r.after) :
    ∀ r ∈ rs, I r.before := by
  induction rs generalizing s is with
  | nil => simp
  | cons r rs ih =>
    obtain ⟨rfl, -, is', h'⟩ := history_cons h
    intro q hq
    rcases List.mem_cons.mp hq with rfl | hq
    · exact h0
    · exact ih h' (hstep r List.mem_cons_self h0) (fun q hq => hstep q (List.mem_cons_of_mem _ hq)) q hq

/-- And it holds after every one of them. -/
theorem history_carries {step : σ → ι → Option (ο × σ)} {is : List ι} {s : σ} {rs : List (Record σ ι ο)}
    (I : σ → Prop) (h : history step s is = some rs) (h0 : I s) (hstep : ∀ r ∈ rs, I r.before → I r.after) :
    ∀ r ∈ rs, I r.after := by
  intro r hr
  exact hstep r hr (history_before I h h0 hstep r hr)

/-- What each record establishes and every record keeps holds before every later record, and so relates each record to every
later one. -/
theorem history_pairwise {step : σ → ι → Option (ο × σ)} {is : List ι} {s : σ} {rs : List (Record σ ι ο)}
    (Q : Record σ ι ο → σ → Prop) {P : Record σ ι ο → Record σ ι ο → Prop} (h : history step s is = some rs)
    (hnew : ∀ r ∈ rs, Q r r.after) (hkeep : ∀ r ∈ rs, ∀ r' ∈ rs, Q r r'.before → Q r r'.after)
    (huse : ∀ r ∈ rs, ∀ r' ∈ rs, Q r r'.before → P r r') : rs.Pairwise P := by
  induction rs generalizing s is with
  | nil => exact .nil
  | cons r rs ih =>
    obtain ⟨-, -, is', h'⟩ := history_cons h
    refine .cons (fun r' hr' => ?_) ?_
    · refine huse r List.mem_cons_self r' (List.mem_cons_of_mem _ hr') (history_before (Q r) h' ?_ ?_ r' hr')
      · exact hnew r List.mem_cons_self
      · exact fun r' hr' => hkeep r List.mem_cons_self r' (List.mem_cons_of_mem _ hr')
    · exact ih h' (fun r hr => hnew r (List.mem_cons_of_mem _ hr))
        (fun r hr r' hr' => hkeep r (List.mem_cons_of_mem _ hr) r' (List.mem_cons_of_mem _ hr'))
        fun r hr r' hr' => huse r (List.mem_cons_of_mem _ hr) r' (List.mem_cons_of_mem _ hr')

end
