import Mathlib.Order.Basic
import Mathlib.Tactic.Common

/-!
# Programs that throw, and programs that are undefined

`Exec ε σ α` is a program over a state `σ`: it ends in a value, it throws an exception and keeps the state it had by then, or
it is undefined (an access out of bounds). `wp U p Q E` is its weakest precondition: `Q` on return, `E` on a throw, and `U`
when it is undefined. With `U` false the rules prove that a program is defined; with `U` true they speak of the runs that are.

`forRange` is the counted loop of any monad. It has one rule for `Option` (a loop that may only be undefined) and one for
`Exec`; `Preserves` is the frame rule of a preorder between the states before and after.
-/

/-- How a program ends: a value, an exception, or undefined behaviour. -/
inductive Outcome (ε σ α : Type) where
  | ok (a : α) (s : σ)
  | thrown (e : ε) (s : σ)
  | undefined

/-- A program over a state `σ` that may throw an `ε`. The state survives a throw. -/
def Exec (ε σ α : Type) : Type := σ → Outcome ε σ α

/-- The counted loop `for i in 0 .. n`, carrying a value from one iteration to the next. -/
def forRange {m : Type → Type} [Monad m] {β : Type} : Nat → β → (Nat → β → m β) → m β
  | 0, init, _ => pure init
  | n + 1, init, body => forRange n init body >>= body n

namespace Exec

variable {ε σ α β : Type}

instance : Monad (Exec ε σ) where
  pure a := fun s => .ok a s
  bind p f := fun s =>
    match p s with
    | .ok a s' => f a s'
    | .thrown e s' => .thrown e s'
    | .undefined => .undefined

/-- Throw an exception. -/
def throw (e : ε) : Exec ε σ α := fun s => .thrown e s

/-- Run `p`; on an exception run the handler from the state the exception left. -/
def catchAll (p : Exec ε σ α) (h : ε → Exec ε σ α) : Exec ε σ α := fun s =>
  match p s with
  | .thrown e s' => h e s'
  | o => o

/-- The state. -/
def get : Exec ε σ σ := fun s => .ok s s

/-- Change the state. -/
def modify (f : σ → σ) : Exec ε σ Unit := fun s => .ok () (f s)

/-- A step that is undefined where it has no value. -/
def ofOption (o : Option α) : Exec ε σ α := fun s =>
  match o with
  | some a => .ok a s
  | none => .undefined

/-- The weakest precondition of `p`: `Q` holds if it returns, `E` if it throws, `U` if it is undefined. -/
def wp (U : Prop) (p : Exec ε σ α) (Q : α → σ → Prop) (E : ε → σ → Prop) (s : σ) : Prop :=
  match p s with
  | .ok a s' => Q a s'
  | .thrown e s' => E e s'
  | .undefined => U

section Rules

variable {U : Prop} {Q : α → σ → Prop} {E : ε → σ → Prop} {s : σ}

@[simp] theorem wp_pure (a : α) : wp U (pure a) Q E s ↔ Q a s := Iff.rfl

@[simp] theorem wp_throw (e : ε) : wp U (throw e : Exec ε σ α) Q E s ↔ E e s := Iff.rfl

@[simp] theorem wp_get {Q : σ → σ → Prop} : wp U get Q E s ↔ Q s s := Iff.rfl

@[simp] theorem wp_modify (f : σ → σ) {Q : Unit → σ → Prop} : wp U (modify f) Q E s ↔ Q () (f s) := Iff.rfl

@[simp] theorem wp_ofOption_some (a : α) : wp U (ofOption (some a)) Q E s ↔ Q a s := Iff.rfl

@[simp] theorem wp_ofOption_none : wp U (ofOption (none : Option α)) Q E s ↔ U := Iff.rfl

@[simp] theorem wp_bind (p : Exec ε σ β) (f : β → Exec ε σ α) :
    wp U (p >>= f) Q E s ↔ wp U p (fun b => wp U (f b) Q E) E s := by
  simp only [wp, Bind.bind]
  cases p s <;> rfl

@[simp] theorem wp_catchAll (p : Exec ε σ α) (h : ε → Exec ε σ α) :
    wp U (catchAll p h) Q E s ↔ wp U p Q (fun e => wp U (h e) Q E) s := by
  simp only [wp, catchAll]
  cases p s <;> rfl

/-- A weaker postcondition follows. -/
theorem wp_mono {U' : Prop} {p : Exec ε σ α} {Q' : α → σ → Prop} {E' : ε → σ → Prop} (h : wp U p Q E s)
    (hQ : ∀ a s, Q a s → Q' a s) (hE : ∀ e s, E e s → E' e s) (hU : U → U') : wp U' p Q' E' s := by
  simp only [wp] at h ⊢
  cases hp : p s with
  | ok a s' => rw [hp] at h; exact hQ a s' h
  | thrown e s' => rw [hp] at h; exact hE e s' h
  | undefined => rw [hp] at h; exact hU h

/-- Two postconditions of one run hold together. -/
theorem wp_and {U' : Prop} {p : Exec ε σ α} {Q' : α → σ → Prop} {E' : ε → σ → Prop} (h : wp U p Q E s)
    (h' : wp U' p Q' E' s) :
    wp (U ∧ U') p (fun a s => Q a s ∧ Q' a s) (fun e s => E e s ∧ E' e s) s := by
  simp only [wp] at h h' ⊢
  cases hp : p s with
  | ok a s' => rw [hp] at h h'; exact ⟨h, h'⟩
  | thrown e s' => rw [hp] at h h'; exact ⟨h, h'⟩
  | undefined => rw [hp] at h h'; exact ⟨h, h'⟩

/-- A family of postconditions of one run hold together. -/
theorem wp_forall {ι : Type} [Nonempty ι] {p : Exec ε σ α} {Q : ι → α → σ → Prop} (h : ∀ i, wp U p (Q i) E s) :
    wp U p (fun a s => ∀ i, Q i a s) E s := by
  simp only [wp] at h ⊢
  cases hp : p s with
  | ok a s' => exact fun i => by simpa only [hp] using h i
  | thrown e s' => simpa only [hp] using h (Classical.arbitrary ι)
  | undefined => simpa only [hp] using h (Classical.arbitrary ι)

/-- A program whose run is known. -/
theorem wp_of_eq {p : Exec ε σ α} {a : α} {s' : σ} (h : p s = .ok a s') : wp U p Q E s ↔ Q a s' := by
  rw [wp, h]

/-- The rest of a program, after a part whose run is known. -/
theorem bind_of_eq {p : Exec ε σ β} {f : β → Exec ε σ α} {b : β} {s' : σ} (h : p s = .ok b s') : (p >>= f) s = f b s' := by
  simp only [Bind.bind, h]

/-- A program that is defined and does not throw returns. -/
theorem wp_returns {p : Exec ε σ α} (h : wp False p Q (fun _ _ => False) s) : ∃ a s', p s = .ok a s' ∧ Q a s' := by
  simp only [wp] at h
  cases hp : p s with
  | ok a s' => rw [hp] at h; exact ⟨a, s', rfl, h⟩
  | thrown e s' => rw [hp] at h; exact h.elim
  | undefined => rw [hp] at h; exact h.elim

/-- The loop rule: an invariant that every iteration carries on, and that gives `E` at every throw, holds after the loop. -/
theorem wp_forRange {n : Nat} {b : β} {f : Nat → β → Exec ε σ β} (I : Nat → β → σ → Prop) (h0 : I 0 b s)
    (hstep : ∀ i < n, ∀ b s, I i b s → wp U (f i b) (I (i + 1)) E s) : wp U (forRange n b f) (I n) E s := by
  induction n with
  | zero => exact h0
  | succ n ih =>
    rw [forRange, wp_bind]
    refine wp_mono (ih fun i hi => hstep i (by omega)) ?_ (fun _ _ h => h) (fun h => h)
    intro b s' hb
    exact hstep n (by omega) b s' hb

end Rules

/-! ## The frame rule of a preorder -/

/-- Every defined run of `p`, whether it returns or throws, relates the state it leaves to the one it found. -/
def Preserves (R : σ → σ → Prop) (p : Exec ε σ α) : Prop :=
  ∀ s, wp True p (fun _ s' => R s s') (fun _ s' => R s s') s

section Frame

variable {R : σ → σ → Prop}

theorem Preserves.pure [Std.Refl R] (a : α) : Preserves R (Pure.pure a : Exec ε σ α) := fun s => refl_of R s

theorem Preserves.throw [Std.Refl R] (e : ε) : Preserves R (throw e : Exec ε σ α) := fun s => refl_of R s

theorem Preserves.get [Std.Refl R] : Preserves R (get : Exec ε σ σ) := fun s => refl_of R s

/-- A program that starts by reading the state: what comes next may use that it runs from that state. -/
theorem Preserves.getBind {f : σ → Exec ε σ α} (h : ∀ s, wp True (f s) (fun _ s' => R s s') (fun _ s' => R s s') s) :
    Preserves R (Exec.get >>= f) := h

theorem Preserves.modify {f : σ → σ} (h : ∀ s, R s (f s)) : Preserves R (modify f : Exec ε σ Unit) := fun s => h s

theorem Preserves.ofOption [Std.Refl R] (o : Option α) : Preserves R (ofOption o : Exec ε σ α) := by
  intro s
  cases o with
  | none => exact trivial
  | some a => exact refl_of R s

theorem Preserves.bind [IsTrans σ R] {p : Exec ε σ β} {f : β → Exec ε σ α} (hp : Preserves R p)
    (hf : ∀ b, Preserves R (f b)) : Preserves R (p >>= f) := by
  intro s
  rw [wp_bind]
  refine wp_mono (hp s) (fun b s' h => ?_) (fun _ _ h => h) (fun h => h)
  exact wp_mono (hf b s') (fun _ _ h' => trans_of R h h') (fun _ _ h' => trans_of R h h') (fun h => h)

theorem Preserves.catchAll [IsTrans σ R] {p : Exec ε σ α} {h : ε → Exec ε σ α} (hp : Preserves R p)
    (hh : ∀ e, Preserves R (h e)) : Preserves R (catchAll p h) := by
  intro s
  rw [wp_catchAll]
  refine wp_mono (hp s) (fun _ _ h => h) (fun e s' h' => ?_) (fun h => h)
  exact wp_mono (hh e s') (fun _ _ h'' => trans_of R h' h'') (fun _ _ h'' => trans_of R h' h'') (fun h => h)

theorem Preserves.forRange [Std.Refl R] [IsTrans σ R] (n : Nat) (init : β) {body : Nat → β → Exec ε σ β}
    (h : ∀ i b, Preserves R (body i b)) : Preserves R (forRange n init body) := by
  induction n with
  | zero => exact Preserves.pure init
  | succ n ih => exact Preserves.bind ih (h n)

end Frame

end Exec

/-- The counted loop is a fold over its range. -/
theorem forRange_eq_foldlM {m : Type → Type} [Monad m] [LawfulMonad m] {β : Type} (n : Nat) (init : β)
    (body : Nat → β → m β) : forRange n init body = (List.range n).foldlM (fun b i => body i b) init := by
  induction n with
  | zero => rfl
  | succ n ih =>
    rw [forRange, ih, List.range_succ, List.foldlM_append]
    simp only [List.foldlM_cons, List.foldlM_nil, bind_pure]

/-- Folds over a range by bodies that agree on it. -/
theorem foldlM_congr_range {m : Type → Type} [Monad m] [LawfulMonad m] {β : Type} {n : Nat} {init : β}
    {f g : β → Nat → m β} (h : ∀ i < n, ∀ b, f b i = g b i) :
    (List.range n).foldlM f init = (List.range n).foldlM g init := by
  induction n with
  | zero => rfl
  | succ n ih =>
    rw [List.range_succ, List.foldlM_append, List.foldlM_append, ih fun i hi => h i (by omega)]
    congr 1
    funext b
    simp only [List.foldlM_cons, List.foldlM_nil, h n (by omega)]

/-! ## Loops that may only be undefined -/

section OptionLoops

variable {β : Type} {n : Nat} {body : Nat → β → Option β}

/-- A loop whose states are the terms of a sequence ends in the last of them. -/
theorem forRange_eq_some (body : Nat → β → Option β) (f : Nat → β) (h : ∀ i < n, body i (f i) = some (f (i + 1))) :
    forRange n (f 0) body = some (f n) := by
  induction n with
  | zero => rfl
  | succ n ih =>
    rw [forRange, ih fun i hi => h i (by omega)]
    exact h n (by omega)

/-- A loop that appends to a list appends the lists of its iterations. -/
theorem forRange_append {α : Type} {l : List α} {body : Nat → List α → Option (List α)} (f : Nat → List α)
    (h : ∀ i < n, ∀ l, body i l = some (l ++ f i)) : forRange n l body = some (l ++ (List.range n).flatMap f) := by
  have key := forRange_eq_some body (fun i => l ++ (List.range i).flatMap f) (n := n) ?_
  · simpa using key
  · intro i hi
    rw [h i hi, List.range_succ, List.flatMap_append, List.flatMap_singleton, List.append_assoc]

/-- A loop that also carries a counter. -/
theorem forRange_counter {γ : Type} {b : β} {f : Nat → γ × β → Option (γ × β)} (body : Nat → β → Option β) (p : Nat → γ)
    (h : ∀ i < n, ∀ b, f i (p i, b) = (body i b).map (Prod.mk (p (i + 1)))) :
    forRange n (p 0, b) f = (forRange n b body).map (Prod.mk (p n)) := by
  induction n with
  | zero => rfl
  | succ n ih =>
    rw [forRange, forRange, ih fun i hi => h i (by omega)]
    cases hb : forRange n b body with
    | none => rfl
    | some b' => exact h n (by omega) b'

/-- The loop rule for `Option`: an invariant that every iteration carries on holds after the loop, which is defined. -/
theorem forRange_option (body : Nat → β → Option β) (init : β) (I : Nat → β → Prop) (h0 : I 0 init)
    (hstep : ∀ i < n, ∀ b, I i b → ∃ b', body i b = some b' ∧ I (i + 1) b') :
    ∃ b, forRange n init body = some b ∧ I n b := by
  induction n with
  | zero => exact ⟨init, rfl, h0⟩
  | succ n ih =>
    obtain ⟨b, hb, hI⟩ := ih fun i hi => hstep i (by omega)
    obtain ⟨b', hb', hI'⟩ := hstep n (by omega) b hI
    exact ⟨b', by rw [forRange, hb]; exact hb', hI'⟩

/-- What every defined iteration keeps, a defined loop keeps. -/
theorem forRange_keeps {init b : β} {I : β → Prop} (h0 : I init)
    (hstep : ∀ i b b', I b → body i b = some b' → I b') (h : forRange n init body = some b) : I b := by
  induction n generalizing b with
  | zero => exact Option.some.inj h ▸ h0
  | succ n ih =>
    rw [forRange, Option.bind_eq_bind, Option.bind_eq_some_iff] at h
    obtain ⟨b', hb', hb⟩ := h
    exact hstep n b' b (ih hb') hb

end OptionLoops
