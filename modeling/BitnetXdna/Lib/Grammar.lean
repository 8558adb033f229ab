import BitnetXdna.Lib.Stream
import Mathlib.Data.List.Forall2

/-!
# What a reader accepts

A grammar is a relation between symbols and what they say. `Reads` takes a reader from the symbols to their value; `Parses` is
the way back: what a reader returns, the symbols it has read say. A reader may return although the stream has ended too early,
and what it returns then is no more than `E`; the next reader that needs a symbol fails there (`AtEnd`), so the rules carry `E`
from reader to reader until none is left.

`Parses.bind` gathers the symbols on the left of a goal in which those of the rest stand on the right.
-/

namespace Exec

variable {ε γ α β ι : Type} {data bs cs : List γ} {a : α} {b : β} {pos pos' : Nat}
variable {R : List γ → α → Prop} {T : List γ → β → Prop} {E : α → Prop} {E' : β → Prop}

/-- What `p` returns is said by the symbols it has read, or the stream has ended. -/
def Parses (data : List γ) (p : Exec ε Nat α) (R : List γ → α → Prop) (E : α → Prop) : Prop :=
  ∀ pos a pos', p pos = .ok a pos' →
    (data.length ≤ pos' ∧ E a) ∨ ∃ bs, bs <+: data.drop pos ∧ pos' = pos + bs.length ∧ R bs a

/-- What `p` returns at the end of the stream. -/
def AtEnd (data : List γ) (p : Exec ε Nat α) (E : α → Prop) : Prop :=
  ∀ pos a pos', data.length ≤ pos → p pos = .ok a pos' → data.length ≤ pos' ∧ E a

/-- A part that returns, and the rest of the program. -/
theorem exists_of_bind_eq {p : Exec ε Nat α} {f : α → Exec ε Nat β} (h : (p >>= f) pos = .ok b pos') :
    ∃ a mid, p pos = .ok a mid ∧ f a mid = .ok b pos' := by
  simp only [Bind.bind] at h
  cases hp : p pos with
  | ok a mid =>
    rw [hp] at h
    exact ⟨a, mid, rfl, h⟩
  | thrown e mid =>
    rw [hp] at h
    exact absurd h (by simp)
  | undefined =>
    rw [hp] at h
    exact absurd h (by simp)

/-! ## At the end of the stream -/

theorem AtEnd.pure (h : E a) : AtEnd data (Pure.pure a : Exec ε Nat α) E := by
  intro pos x pos' hend hrun
  obtain ⟨rfl, rfl⟩ := Outcome.ok.inj hrun
  exact ⟨hend, h⟩

theorem AtEnd.throw (e : ε) : AtEnd data (Exec.throw e : Exec ε Nat α) E := by
  intro pos x pos' _ hrun
  exact absurd hrun (by simp [Exec.throw])

theorem AtEnd.mono {E' : α → Prop} {p : Exec ε Nat α} (h : AtEnd data p E) (hE : ∀ a, E a → E' a) : AtEnd data p E' := by
  intro pos a pos' hend hrun
  obtain ⟨hend', ha⟩ := h pos a pos' hend hrun
  exact ⟨hend', hE a ha⟩

theorem AtEnd.bind {p : Exec ε Nat α} {f : α → Exec ε Nat β} (hp : AtEnd data p E) (hf : ∀ a, E a → AtEnd data (f a) E') :
    AtEnd data (p >>= f) E' := by
  intro pos x pos' hend hrun
  obtain ⟨a, mid, hfirst, hrest⟩ := exists_of_bind_eq hrun
  obtain ⟨hend', ha⟩ := hp pos a mid hend hfirst
  exact hf a ha mid x pos' hend' hrest

/-- A reader that needs a symbol, before anything else. -/
theorem AtEnd.bind_fails {p : Exec ε Nat α} {f : α → Exec ε Nat β} (hp : AtEnd data p fun _ => False) :
    AtEnd data (p >>= f) E' := hp.bind fun _ h => h.elim

theorem AtEnd.forRange {body : Nat → β → Exec ε Nat β} (n : Nat) {init : β} (h0 : E' init)
    (h : ∀ i acc, E' acc → AtEnd data (body i acc) E') : AtEnd data (forRange n init body) E' := by
  induction n with
  | zero => exact AtEnd.pure h0
  | succ n ih => exact ih.bind fun acc hacc => h n acc hacc

/-- A list of items that need a symbol each is empty there. -/
theorem AtEnd.collect {p : Exec ε Nat α} (n : Nat) (h : AtEnd data p fun _ => False) :
    AtEnd data (collect n p) (· = []) :=
  AtEnd.forRange n rfl fun _ _ _ => h.bind_fails

/-! ## Before it -/

theorem Parses.pure (h : R [] a) : Parses data (Pure.pure a : Exec ε Nat α) R E := by
  intro pos x pos' hrun
  obtain ⟨rfl, rfl⟩ := Outcome.ok.inj hrun
  exact Or.inr ⟨[], List.nil_prefix, rfl, h⟩

theorem Parses.throw (e : ε) : Parses data (Exec.throw e : Exec ε Nat α) R E := by
  intro pos x pos' hrun
  exact absurd hrun (by simp [Exec.throw])

theorem Parses.mono {R' : List γ → α → Prop} {E' : α → Prop} {p : Exec ε Nat α} (h : Parses data p R E)
    (hR : ∀ bs a, R bs a → R' bs a) (hE : ∀ a, E a → E' a) : Parses data p R' E' := by
  intro pos a pos' hrun
  rcases h pos a pos' hrun with ⟨hend, ha⟩ | ⟨bs, hbs, hpos, hwritten⟩
  · exact Or.inl ⟨hend, hE a ha⟩
  · exact Or.inr ⟨bs, hbs, hpos, hR bs a hwritten⟩

/-- One reader after another. -/
theorem Parses.bind {p : Exec ε Nat α} {f : α → Exec ε Nat β} (hp : Parses data p R E)
    (hend : ∀ a, E a → AtEnd data (f a) E') (hf : ∀ bs a, R bs a → Parses data (f a) (fun cs b => T (bs ++ cs) b) E') :
    Parses data (p >>= f) T E' := by
  intro pos b pos' hrun
  obtain ⟨a, mid, hfirst, hrest⟩ := exists_of_bind_eq hrun
  rcases hp pos a mid hfirst with ⟨hmid, ha⟩ | ⟨bs, hbs, rfl, hwritten⟩
  · exact Or.inl (hend a ha mid b pos' hmid hrest)
  rcases hf bs a hwritten _ b pos' hrest with hover | ⟨cs, hcs, rfl, hwritten'⟩
  · exact Or.inl hover
  refine Or.inr ⟨bs ++ cs, ?_, by rw [List.length_append, Nat.add_assoc], hwritten'⟩
  obtain ⟨rest, hrest'⟩ := hbs
  have hdrop : data.drop (pos + bs.length) = rest := by
    rw [← List.drop_drop, ← hrest', List.drop_left]
  rw [hdrop] at hcs
  rw [← hrest']
  exact (List.prefix_append_right_inj bs).mpr hcs

/-- One reader after another that needs all its symbols. -/
theorem Parses.bind_full {p : Exec ε Nat α} {f : α → Exec ε Nat β} (hp : Parses data p R fun _ => False)
    (hf : ∀ bs a, R bs a → Parses data (f a) (fun cs b => T (bs ++ cs) b) E') : Parses data (p >>= f) T E' :=
  hp.bind (fun _ h => h.elim) hf

/-! ## Lists of items -/

/-- Symbols that say a list, item by item. -/
def Items (R : List γ → α → Prop) (bs : List γ) (xs : List α) : Prop :=
  ∃ parts : List (List γ), bs = parts.flatten ∧ List.Forall₂ R parts xs

theorem Items.nil : Items R [] [] := ⟨[], rfl, .nil⟩

theorem Items.concat {xs : List α} (h : Items R bs xs) (hx : R cs a) : Items R (bs ++ cs) (xs ++ [a]) := by
  obtain ⟨parts, rfl, hparts⟩ := h
  exact ⟨parts ++ [cs], by simp, List.rel_append hparts (.cons hx .nil)⟩

/-- The items of a list of values that are encoded one after the other. -/
theorem Items.flatMap {enc : ι → List γ} {val : ι → α} (xs : List ι) (h : ∀ x ∈ xs, R (enc x) (val x)) :
    Items R (xs.flatMap enc) (xs.map val) := by
  induction xs using List.reverseRecOn with
  | nil => exact Items.nil
  | append_singleton xs x ih =>
    rw [List.flatMap_append, List.flatMap_singleton, List.map_append, List.map_singleton]
    refine (ih fun y hy => h y (List.mem_append_left _ hy)).concat ?_
    exact h x (List.mem_append_right _ (List.mem_singleton_self x))

/-- Items of at least one symbol each are no more than their symbols. -/
theorem Items.length_le {xs : List α} (h : Items R bs xs) (hR : ∀ bs a, R bs a → 1 ≤ bs.length) :
    xs.length ≤ bs.length := by
  obtain ⟨parts, rfl, hparts⟩ := h
  induction hparts with
  | nil => exact Nat.le_refl 0
  | cons hx _ ih =>
    rw [List.flatten_cons, List.length_append, List.length_cons, Nat.add_comm]
    exact Nat.add_le_add (hR _ _ hx) ih

/-- A loop that reads one item in each iteration. -/
theorem Parses.forRange {step : β → α → β} {body : Nat → β → Exec ε Nat β} (n : Nat) (init : β)
    (h : ∀ i acc, Parses data (body i acc) (fun bs acc' => ∃ x, R bs x ∧ acc' = step acc x) E')
    (hend : ∀ i acc, E' acc → AtEnd data (body i acc) E') :
    Parses data (forRange n init body) (fun bs acc => ∃ xs, xs.length = n ∧ Items R bs xs ∧ acc = xs.foldl step init) E' := by
  induction n with
  | zero => exact Parses.pure ⟨[], rfl, Items.nil, rfl⟩
  | succ n ih =>
    refine ih.bind (fun acc hacc => hend n acc hacc) ?_
    rintro bs acc ⟨xs, rfl, hxs, rfl⟩
    refine (h xs.length _).mono ?_ fun _ hacc => hacc
    rintro cs acc' ⟨x, hx, rfl⟩
    exact ⟨xs ++ [x], by simp, hxs.concat hx, by simp⟩

/-- A list of items, each read by the same reader. -/
theorem Parses.collect {p : Exec ε Nat α} (n : Nat) (h : Parses data p R E) (hend : AtEnd data p fun _ => True) :
    Parses data (collect n p) (fun bs xs => xs.length = n ∧ Items R bs xs) (fun xs => ∃ x ∈ xs, E x) := by
  have hloop : Parses data (Exec.collect n p)
      (fun bs acc => ∃ xs, xs.length = n ∧ Items R bs xs ∧ acc = xs.foldl (fun ys x => ys ++ [x]) [])
      fun xs => ∃ x ∈ xs, E x := by
    refine Parses.forRange n [] (fun _ ys => h.bind (fun a ha => AtEnd.pure ⟨a, by simp, ha⟩) ?_) fun _ ys hys => ?_
    · intro bs x hx
      exact Parses.pure ⟨x, by rwa [List.append_nil], rfl⟩
    · obtain ⟨y, hy, hEy⟩ := hys
      exact hend.bind fun x _ => AtEnd.pure ⟨y, List.mem_append_left _ hy, hEy⟩
  refine hloop.mono ?_ fun _ hxs => hxs
  rintro bs acc ⟨xs, hn, hxs, rfl⟩
  have hfold : xs.foldl (fun ys x => ys ++ [x]) [] = xs := by
    rw [List.foldl_append_eq_append, List.nil_append, ← List.flatMap_def, List.flatMap_singleton']
  rw [hfold]
  exact ⟨hn, hxs⟩

/-- A list of items that need all their symbols. -/
theorem Parses.collect_full {p : Exec ε Nat α} (n : Nat) (h : Parses data p R fun _ => False)
    (hend : AtEnd data p fun _ => False) :
    Parses data (Exec.collect n p) (fun bs xs => xs.length = n ∧ Items R bs xs) fun _ => False := by
  refine (h.collect n (hend.mono fun _ h => h.elim)).mono (fun _ _ h => h) ?_
  rintro xs ⟨x, -, h⟩
  exact h

/-- A loop reads the items of a list, one in each iteration. -/
theorem Items.reads_forRange {step : β → α → β} {body : Nat → β → Exec ε Nat β} {xs : List α} (init : β)
    (h : ∀ bs x, R bs x → ∀ i acc, Reads data (body i acc) bs (step acc x)) (hxs : Items R bs xs) :
    Reads data (forRange xs.length init body) bs (xs.foldl step init) := by
  obtain ⟨parts, rfl, hparts⟩ := hxs
  obtain ⟨hlen, hzip⟩ := List.forall₂_iff_zip.mp hparts
  have hloop : Reads data (forRange (parts.zip xs).length init body) ((parts.zip xs).flatMap Prod.fst)
      ((parts.zip xs).foldl (fun acc y => step acc y.2) init) :=
    Reads.forRange _ init fun y hy i acc => h y.1 y.2 (hzip hy) i acc
  have hfst : (parts.zip xs).map Prod.fst = parts := List.map_fst_zip (Nat.le_of_eq hlen)
  have hsnd : (parts.zip xs).map Prod.snd = xs := List.map_snd_zip (Nat.le_of_eq hlen.symm)
  have hfold : (parts.zip xs).foldl (fun acc y => step acc y.2) init = xs.foldl step init := by
    conv_rhs => rw [← hsnd]
    rw [List.foldl_map]
  rwa [List.flatMap_def, hfst, hfold, List.length_zip, hlen, Nat.min_self] at hloop

/-- A list of items is read item by item. -/
theorem Items.reads_collect {p : Exec ε Nat α} {xs : List α} (h : ∀ bs x, R bs x → Reads data p bs x) (hxs : Items R bs xs) :
    Reads data (collect xs.length p) bs xs := by
  have hloop : Reads data (collect xs.length p) bs (xs.foldl (fun ys x => ys ++ [x]) []) :=
    hxs.reads_forRange [] fun cs x hx _ _ => (h cs x hx).bind_nil (Reads.pure _)
  have hfold : xs.foldl (fun ys x => ys ++ [x]) [] = xs := by
    rw [List.foldl_append_eq_append, List.nil_append, ← List.flatMap_def, List.flatMap_singleton']
  rwa [hfold] at hloop

end Exec
