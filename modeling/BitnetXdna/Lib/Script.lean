import BitnetXdna.Lib.Exec

/-!
# Scripts of operations that may fail

A program that drives a device performs a sequence of operations, its script, and stops at the first one that the device does
not let through. `play` is what the log then gets: the operations up to there, the last of them as a failure. `Follows` says
that a program does this: where it returns, the device has let the whole script through, and where it throws, it has not. The
rules put the script of a program together from those of its parts; `Tracing` is what they need of the device and of the
effect of the operations on the state.
-/

section Play

variable {E : Type} (permits : Nat → E → Bool) (fail : E → E)

/-- The device lets all operations of a script through, from the `n`-th on. -/
def completes : Nat → List E → Bool
  | _, [] => true
  | n, e :: es => permits n e && completes (n + 1) es

/-- What is logged of a script that starts at the `n`-th operation. -/
def play : Nat → List E → List E
  | _, [] => []
  | n, e :: es => if permits n e then e :: play (n + 1) es else [fail e]

variable {permits fail} {n : Nat} {es fs : List E}

@[simp] theorem completes_nil : completes permits n ([] : List E) = true := rfl

@[simp] theorem play_nil : play permits fail n ([] : List E) = [] := rfl

/-- A script goes through when each of its operations does. -/
theorem completes_iff : completes permits n es = true ↔ ∀ i e, es[i]? = some e → permits (n + i) e = true := by
  induction es generalizing n with
  | nil => simp
  | cons e es ih =>
    simp only [completes, Bool.and_eq_true, ih]
    constructor
    · rintro ⟨he, hes⟩ i e' hi
      cases i with
      | zero =>
        rw [List.getElem?_cons_zero, Option.some.injEq] at hi
        rwa [← hi]
      | succ i =>
        rw [List.getElem?_cons_succ] at hi
        rw [Nat.add_succ, ← Nat.succ_add]
        exact hes i e' hi
    · intro h
      refine ⟨h 0 e rfl, fun i e' hi => ?_⟩
      have := h (i + 1) e' hi
      rwa [Nat.add_succ, ← Nat.succ_add] at this

/-- A script goes through when both of its parts do. -/
theorem completes_append :
    completes permits n (es ++ fs) = (completes permits n es && completes permits (n + es.length) fs) := by
  induction es generalizing n with
  | nil => rfl
  | cons e es ih =>
    rw [List.cons_append, completes, completes, ih, Bool.and_assoc, List.length_cons, Nat.succ_add_eq_add_succ]

/-- A script that goes through is logged as it is. -/
theorem play_of_completes (h : completes permits n es = true) : play permits fail n es = es := by
  induction es generalizing n with
  | nil => rfl
  | cons e es ih =>
    rw [completes, Bool.and_eq_true] at h
    rw [play, if_pos h.1, ih h.2]

/-- After a first part that goes through, the second is played. -/
theorem play_append (h : completes permits n es = true) :
    play permits fail n (es ++ fs) = es ++ play permits fail (n + es.length) fs := by
  induction es generalizing n with
  | nil => rfl
  | cons e es ih =>
    rw [completes, Bool.and_eq_true] at h
    rw [List.cons_append, play, if_pos h.1, ih h.2, List.cons_append, List.length_cons, Nat.succ_add_eq_add_succ]

/-- After a first part that stops, nothing is played. -/
theorem play_append_of_not (h : completes permits n es = false) :
    play permits fail n (es ++ fs) = play permits fail n es := by
  induction es generalizing n with
  | nil => exact absurd h (by simp)
  | cons e es ih =>
    rw [List.cons_append, play, play]
    split
    · next he =>
      rw [completes, he, Bool.true_and] at h
      rw [ih h]
    · rfl

/-- A script that stops is logged up to the operation that is not let through. -/
theorem play_of_stops (fail : E → E) (h : completes permits n es = false) :
    ∃ i e, es[i]? = some e ∧ permits (n + i) e = false ∧ completes permits n (es.take i) = true ∧
      play permits fail n es = es.take i ++ [fail e] := by
  induction es generalizing n with
  | nil => exact absurd h (by simp)
  | cons e es ih =>
    by_cases he : permits n e = true
    · rw [completes, he, Bool.true_and] at h
      obtain ⟨i, e', hi, hpermit, hbefore, hplay⟩ := ih h
      refine ⟨i + 1, e', hi, ?_, ?_, ?_⟩
      · rwa [Nat.add_succ, ← Nat.succ_add]
      · rw [List.take_succ_cons, completes, he, hbefore]
        rfl
      · rw [play, if_pos he, hplay]
        rfl
    · refine ⟨0, e, rfl, by simpa using he, rfl, ?_⟩
      rw [play, if_neg he]
      rfl

/-- A repeated operation that stops has gone through some number of times. -/
theorem play_replicate_of_stops (fail : E → E) {k : Nat} {e : E} (h : completes permits n (List.replicate k e) = false) :
    ∃ i < k, completes permits n (List.replicate i e) = true ∧ permits (n + i) e = false ∧
      play permits fail n (List.replicate k e) = List.replicate i e ++ [fail e] := by
  obtain ⟨i, e', hi, hpermit, hbefore, hplay⟩ := play_of_stops fail h
  rw [List.getElem?_replicate, Option.ite_none_right_eq_some, Option.some.injEq] at hi
  obtain ⟨hlt, rfl⟩ := hi
  rw [List.take_replicate, Nat.min_eq_left (Nat.le_of_lt hlt)] at hbefore hplay
  exact ⟨i, hlt, hbefore, hpermit, hplay⟩

/-- What is logged is of the script, or a failure of what is. -/
theorem mem_play {x : E} (h : x ∈ play permits fail n es) : x ∈ es ∨ ∃ e ∈ es, x = fail e := by
  induction es generalizing n with
  | nil => exact absurd h (by simp)
  | cons e es ih =>
    rw [play] at h
    split at h
    · rcases List.mem_cons.mp h with rfl | h
      · exact Or.inl List.mem_cons_self
      · rcases ih h with hx | ⟨e', he', rfl⟩
        · exact Or.inl (List.mem_cons_of_mem _ hx)
        · exact Or.inr ⟨e', List.mem_cons_of_mem _ he', rfl⟩
    · exact Or.inr ⟨e, List.mem_cons_self, List.mem_singleton.mp h⟩

/-- An operation that is no failure of another is logged at most as often as it is in the script. -/
theorem count_play_le [DecidableEq E] {x : E} (hfail : ∀ e, fail e = x → e = x) :
    (play permits fail n es).count x ≤ es.count x := by
  induction es generalizing n with
  | nil => exact Nat.le_refl _
  | cons e es ih =>
    rw [play, List.count_cons]
    split
    · rw [List.count_cons]
      exact Nat.add_le_add_right ih _
    · rw [List.count_singleton]
      by_cases hx : fail e = x
      · obtain rfl := hfail e hx
        simp [hx]
      · simp [hx]

end Play

/-- A device that is driven by programs over a state `σ`, with a log of operations in it: which operations it lets through, how
a failed one is logged, and what logging some operations means for the state. -/
structure Tracing (σ E : Type) where
  permits : Nat → E → Bool
  fail : E → E
  log : σ → List E
  After : List E → σ → σ → Prop
  after_nil : ∀ s, After [] s s
  after_append : ∀ {es fs s s' s''}, After es s s' → After fs s' s'' → After (es ++ fs) s s''
  after_log : ∀ {es s s'}, After es s s' → log s' = log s ++ es

namespace Exec

variable {ε σ α β E : Type} {d : Tracing σ E} {s : σ} {es fs : List E}

/-- A program follows a script: it returns after the whole script, and throws where the script stops. -/
def Follows (d : Tracing σ E) (es : List E) (p : Exec ε σ α) (s : σ) : Prop :=
  wp True p (fun _ s' => completes d.permits (d.log s).length es = true ∧ d.After es s s')
    (fun _ s' => completes d.permits (d.log s).length es = false ∧
      d.After (play d.permits d.fail (d.log s).length es) s s') s

/-- Whether it returns or throws, what is logged is the script as it is played. -/
theorem Follows.played {p : Exec ε σ α} (h : Follows d es p s) :
    wp True p (fun _ s' => completes d.permits (d.log s).length es = true ∧
        d.After (play d.permits d.fail (d.log s).length es) s s')
      (fun _ s' => completes d.permits (d.log s).length es = false ∧
        d.After (play d.permits d.fail (d.log s).length es) s s') s := by
  refine wp_mono h ?_ (fun _ _ h => h) id
  rintro a s' ⟨hes, hafter⟩
  rw [play_of_completes hes]
  exact ⟨hes, hafter⟩

/-- What a program returns is up to its last part. -/
theorem wp_last {p : Exec ε σ β} {f : β → Exec ε σ α} {R : α → Prop}
    (h : ∀ b s, wp True (f b) (fun a _ => R a) (fun _ _ => True) s) :
    wp True (p >>= f) (fun a _ => R a) (fun _ _ => True) s := by
  rw [wp_bind]
  unfold wp
  cases p s with
  | ok b s' => exact h b s'
  | thrown e s' => exact trivial
  | undefined => exact trivial

/-- A program that performs one operation. -/
theorem Follows.single {e : E} {p : Exec ε σ α}
    (h : wp True p (fun _ s' => d.permits (d.log s).length e = true ∧ d.After [e] s s')
      (fun _ s' => d.permits (d.log s).length e = false ∧ d.After [d.fail e] s s') s) : Follows d [e] p s := by
  unfold Follows
  refine wp_mono h ?_ ?_ id
  · rintro a s' ⟨hpermit, hafter⟩
    exact ⟨by rw [completes, hpermit, completes]; rfl, hafter⟩
  · rintro x s' ⟨hpermit, hafter⟩
    rw [completes, hpermit, play, hpermit]
    exact ⟨rfl, hafter⟩

theorem Follows.pure (a : α) : Follows d [] (Pure.pure a : Exec ε σ α) s := ⟨rfl, d.after_nil s⟩

theorem Follows.ofOption (o : Option α) : Follows d [] (Exec.ofOption o : Exec ε σ α) s := by
  cases o with
  | none => exact trivial
  | some a => exact ⟨rfl, d.after_nil s⟩

theorem Follows.modify {f : σ → σ} (h : d.After [] s (f s)) : Follows d [] (Exec.modify f : Exec ε σ Unit) s := ⟨rfl, h⟩

/-- A program that starts by reading the state. -/
theorem Follows.getBind {f : σ → Exec ε σ α} (h : Follows d es (f s) s) : Follows d es (Exec.get >>= f) s := h

/-- One part after another. -/
theorem Follows.bind {p : Exec ε σ β} {f : β → Exec ε σ α} (hp : Follows d es p s)
    (hf : ∀ b s', d.After es s s' → Follows d fs (f b) s') : Follows d (es ++ fs) (p >>= f) s := by
  unfold Follows
  rw [wp_bind]
  refine wp_mono hp ?_ ?_ id
  · rintro b s' ⟨hes, hafter⟩
    have hlen : (d.log s').length = (d.log s).length + es.length := by rw [d.after_log hafter, List.length_append]
    refine wp_mono (hf b s' hafter) ?_ ?_ id
    · rintro a s'' ⟨hfs, hafter'⟩
      rw [completes_append, hes, ← hlen, hfs]
      exact ⟨rfl, d.after_append hafter hafter'⟩
    · rintro e s'' ⟨hfs, hafter'⟩
      rw [completes_append, hes, play_append hes, ← hlen, hfs]
      exact ⟨rfl, d.after_append hafter hafter'⟩
  · rintro e s' ⟨hes, hafter⟩
    rw [completes_append, hes, play_append_of_not hes]
    exact ⟨rfl, hafter⟩

/-- A part that performs no operation of its own. -/
theorem Follows.bind_nil {p : Exec ε σ β} {f : β → Exec ε σ α} (hp : Follows d [] p s)
    (hf : ∀ b s', d.After [] s s' → Follows d es (f b) s') : Follows d es (p >>= f) s := hp.bind hf

/-- A last part that performs no operation of its own. -/
theorem Follows.bind_pure {p : Exec ε σ β} {f : β → Exec ε σ α} (hp : Follows d es p s)
    (hf : ∀ b s', Follows d [] (f b) s') : Follows d es (p >>= f) s := by
  have := hp.bind fun b s' _ => hf b s'
  rwa [List.append_nil] at this

/-- A loop whose body follows one script. -/
theorem Follows.forRange {n : Nat} {b : β} {body : Nat → β → Exec ε σ β} (h : ∀ i b s, Follows d es (body i b) s) :
    Follows d (List.replicate n es).flatten (forRange n b body) s := by
  induction n with
  | zero => exact Follows.pure b
  | succ n ih =>
    rw [List.replicate_succ', List.flatten_append, List.flatten_singleton]
    exact ih.bind fun b s' _ => h n b s'

end Exec
