import Mathlib.Data.List.Basic
import Mathlib.Logic.Function.Basic
import Mathlib.Tactic.Common

/-!
# Threads that interleave, and full barriers

A program of several threads is a step function: `step s a` is the state after the move `a` from `s`, or nothing when that
move is not possible there. A schedule is a list of moves; `interleave` runs it, and a move that is not possible changes
nothing, so the schedules are exactly the interleavings. `interleave_invariant` is the rule for what holds after every one,
and `interleave_completes` the rule for what every fair one comes to.

A full barrier over `n` threads is known by how often each thread has arrived at one. `Synced` is what it gives: a thread
that is not waiting has passed no barrier that another has yet to arrive at.
-/

section Interleave

variable {σ μ : Type}

/-- Run a schedule. -/
def interleave (step : σ → μ → Option σ) (s : σ) (moves : List μ) : σ := moves.foldl (fun s a => (step s a).getD s) s

/-- What holds at the start and is kept by every move that is possible holds after every schedule. -/
theorem interleave_invariant {step : σ → μ → Option σ} {I : σ → Prop} {s : σ} (moves : List μ) (h0 : I s)
    (hstep : ∀ s a s', I s → step s a = some s' → I s') : I (interleave step s moves) := by
  induction moves generalizing s with
  | nil => exact h0
  | cons a moves ih =>
    have hnext : I ((step s a).getD s) := by
      cases ha : step s a with
      | none => exact h0
      | some s' => exact hstep s a s' h0 ha
    exact ih hnext

theorem interleave_append (step : σ → μ → Option σ) (s : σ) (l l' : List μ) :
    interleave step s (l ++ l') = interleave step (interleave step s l) l' := List.foldl_append

section Completes

variable {step : σ → μ → Option σ} {I Done : σ → Prop} {rank : σ → Nat} {s : σ}

/-- A schedule does not raise a rank that every move lowers, and lowers it if some move of it is possible at its start. -/
theorem interleave_rank (hstep : ∀ s a s', I s → step s a = some s' → I s' ∧ rank s' < rank s) (moves : List μ) (h0 : I s) :
    I (interleave step s moves) ∧ rank (interleave step s moves) ≤ rank s ∧
      ((∃ a ∈ moves, (step s a).isSome) → rank (interleave step s moves) < rank s) := by
  induction moves generalizing s with
  | nil => exact ⟨h0, Nat.le_refl _, fun ⟨a, ha, _⟩ => absurd ha (by simp)⟩
  | cons a moves ih =>
    cases ha : step s a with
    | none =>
      have hsame : interleave step s (a :: moves) = interleave step s moves := by
        simp [interleave, ha]
      rw [hsame]
      obtain ⟨hI, hle, hlt⟩ := ih h0
      refine ⟨hI, hle, fun ⟨b, hb, hsome⟩ => ?_⟩
      rcases List.mem_cons.mp hb with rfl | hb
      · rw [ha] at hsome
        exact absurd hsome (by simp)
      · exact hlt ⟨b, hb, hsome⟩
    | some s' =>
      have hnext : interleave step s (a :: moves) = interleave step s' moves := by
        simp [interleave, ha]
      obtain ⟨hI', hrank⟩ := hstep s a s' h0 ha
      obtain ⟨hI, hle, -⟩ := ih hI'
      rw [hnext]
      exact ⟨hI, by omega, fun _ => by omega⟩

/-- If every possible move lowers a rank, and in every state that is not done each round has a possible move, then as many
rounds as the rank come to a state that is done. -/
theorem interleave_completes (hstep : ∀ s a s', I s → step s a = some s' → I s' ∧ rank s' < rank s)
    (hdone : ∀ s, Done s → ∀ a, step s a = none) (rounds : List (List μ))
    (hfair : ∀ r ∈ rounds, ∀ s, I s → ¬Done s → ∃ a ∈ r, (step s a).isSome)
    (hlive : ∀ s, I s → ¬Done s → ∃ a, (step s a).isSome) (h0 : I s) (hmany : rank s ≤ rounds.length) :
    Done (interleave step s rounds.flatten) := by
  have hstay : ∀ s moves, Done s → interleave step s moves = s := by
    intro s moves hs
    induction moves with
    | nil => rfl
    | cons a moves ih => rwa [interleave, List.foldl_cons, hdone s hs a, Option.getD_none]
  induction rounds generalizing s with
  | nil =>
    by_contra hs
    obtain ⟨a, ha⟩ := hlive s h0 hs
    obtain ⟨s', hs'⟩ := Option.isSome_iff_exists.mp ha
    have hlt := (hstep s a s' h0 hs').2
    have hzero : rank s ≤ 0 := hmany
    omega
  | cons r rounds ih =>
    by_cases hs : Done s
    · rwa [hstay s _ hs]
    · obtain ⟨hI, -, hlt⟩ := interleave_rank hstep r h0
      have hdrop := hlt (hfair r List.mem_cons_self s h0 hs)
      rw [List.flatten_cons, interleave_append]
      refine ih (fun r' hr' => hfair r' (List.mem_cons_of_mem _ hr')) hI ?_
      rw [List.length_cons] at hmany
      omega

end Completes

end Interleave

/-! ## Full barriers -/

section Barrier

variable {n : Nat} {arrived waiting : Fin n → Nat} {i : Fin n}

/-- No thread has passed a barrier that another has not arrived at: `arrived` counts the arrivals of a thread, and `waiting`
is one for a thread that is inside its last barrier. -/
def Synced (arrived waiting : Fin n → Nat) : Prop := ∀ i j, arrived i ≤ arrived j + waiting i

/-- At the start nobody has arrived. -/
theorem Synced.init : Synced (fun _ : Fin n => 0) waiting := fun _ _ => Nat.zero_le _

/-- A thread outside the barriers moves on, outside the barriers. -/
theorem Synced.move (h : Synced arrived waiting) {w : Nat} (hw : waiting i ≤ w) :
    Synced arrived (Function.update waiting i w) := by
  intro a b
  have hab := h a b
  by_cases ha : a = i
  · subst ha
    rw [Function.update_self]
    omega
  · rwa [Function.update_of_ne ha]

/-- A thread arrives at a barrier and waits. -/
theorem Synced.arrive (h : Synced arrived waiting) (hw : waiting i = 0) :
    Synced (Function.update arrived i (arrived i + 1)) (Function.update waiting i 1) := by
  intro a b
  have hab := h a b
  by_cases ha : a = i <;> by_cases hb : b = i
  · subst ha hb
    simp only [Function.update_self]
    omega
  · subst ha
    simp only [Function.update_self, Function.update_of_ne hb]
    omega
  · subst hb
    simp only [Function.update_self, Function.update_of_ne ha]
    omega
  · simp only [Function.update_of_ne ha, Function.update_of_ne hb]
    exact hab

/-- A thread passes its barrier when all have arrived at it. -/
theorem Synced.pass (h : Synced arrived waiting) (hall : ∀ j, arrived i ≤ arrived j) (w : Nat) :
    Synced arrived (Function.update waiting i w) := by
  intro a b
  by_cases ha : a = i
  · subst ha
    exact Nat.le_trans (hall b) (Nat.le_add_right ..)
  · rw [Function.update_of_ne ha]
    exact h a b

end Barrier
