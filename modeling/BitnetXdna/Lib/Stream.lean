import BitnetXdna.Lib.Exec
import Mathlib.Data.List.Induction

/-!
# Reading a stream

A reader is a program whose state is a cursor in a list of symbols. `Reads data p bs a` says that wherever `bs` stands next in
`data`, `p` returns `a` and leaves the cursor right behind `bs`. The rules compose readers as they compose their symbols: what
two readers read one after the other is the one list and then the other, and what a loop reads is one list for each item.
-/

namespace Exec

variable {ε γ α β ι : Type} {data bs cs : List γ} {a : α} {b : β}

/-- The next `n` symbols, or as many as there are left. -/
def readNext (data : List γ) (n : Nat) : Exec ε Nat (List γ) := fun pos =>
  .ok ((data.drop pos).take n) (pos + ((data.drop pos).take n).length)

/-- `p` for each number of `range(n)`, in a list. -/
def collect {m : Type → Type} [Monad m] (n : Nat) (p : m α) : m (List α) :=
  forRange n [] fun _ xs => do
    let x ← p
    pure (xs ++ [x])

/-- Where `bs` comes next, `p` reads it and nothing behind it, and returns `a`. -/
def Reads (data : List γ) (p : Exec ε Nat α) (bs : List γ) (a : α) : Prop :=
  ∀ pos, bs <+: data.drop pos → p pos = .ok a (pos + bs.length)

/-- A reader may assume that its symbols fit in the stream. -/
theorem Reads.of_length_le {p : Exec ε Nat α} (h : bs.length ≤ data.length → Reads data p bs a) : Reads data p bs a := by
  intro pos hpos
  have hle := hpos.length_le
  rw [List.length_drop] at hle
  exact h (Nat.le_trans hle (Nat.sub_le ..)) pos hpos

theorem Reads.readNext {n : Nat} (h : bs.length = n) : Reads data (readNext data n : Exec ε Nat (List γ)) bs bs := by
  intro pos hpos
  subst h
  unfold Exec.readNext
  rw [← List.prefix_iff_eq_take.mp hpos]

theorem Reads.pure (a : α) : Reads data (Pure.pure a : Exec ε Nat α) [] a := by
  intro pos _
  rfl

/-- One reader after another. -/
theorem Reads.bind {p : Exec ε Nat α} {f : α → Exec ε Nat β} (hp : Reads data p bs a) (hf : Reads data (f a) cs b) :
    Reads data (p >>= f) (bs ++ cs) b := by
  rintro pos ⟨rest, hrest⟩
  rw [List.append_assoc] at hrest
  have hfirst : p pos = .ok a (pos + bs.length) := by
    apply hp
    rw [← hrest]
    exact List.prefix_append ..
  have hsecond : f a (pos + bs.length) = .ok b (pos + bs.length + cs.length) := by
    apply hf
    rw [← List.drop_drop, ← hrest, List.drop_left]
    exact List.prefix_append ..
  rw [bind_of_eq hfirst, hsecond, List.length_append, Nat.add_assoc]

/-- A reader, and what is done with the symbols it has read. -/
theorem Reads.bind_nil {p : Exec ε Nat α} {f : α → Exec ε Nat β} (hp : Reads data p bs a) (hf : Reads data (f a) [] b) :
    Reads data (p >>= f) bs b := by
  have h := hp.bind hf
  rwa [List.append_nil] at h

/-- A loop that reads one item in each iteration. The induction takes the last item off. -/
theorem Reads.forRange {enc : ι → List γ} {step : β → ι → β} {body : Nat → β → Exec ε Nat β} (xs : List ι) (init : β)
    (h : ∀ x ∈ xs, ∀ i acc, Reads data (body i acc) (enc x) (step acc x)) :
    Reads data (forRange xs.length init body) (xs.flatMap enc) (xs.foldl step init) := by
  induction xs using List.reverseRecOn with
  | nil => exact Reads.pure init
  | append_singleton xs x ih =>
    have hbefore := ih fun y hy => h y (List.mem_append_left _ hy)
    have hlast := h x (List.mem_append_right _ (List.mem_singleton_self x)) xs.length (xs.foldl step init)
    rw [List.length_append, List.length_singleton, List.flatMap_append, List.flatMap_singleton, List.foldl_append]
    exact hbefore.bind hlast

/-- A list of items, each read by the same reader. -/
theorem Reads.collect {enc : ι → List γ} {val : ι → α} {p : Exec ε Nat α} (xs : List ι)
    (h : ∀ x ∈ xs, Reads data p (enc x) (val x)) : Reads data (collect xs.length p) (xs.flatMap enc) (xs.map val) := by
  have hloop : Reads data (Exec.collect xs.length p) (xs.flatMap enc) (xs.foldl (fun ys x => ys ++ [val x]) []) := by
    refine Reads.forRange xs [] ?_
    intro x hx _ ys
    exact (h x hx).bind_nil (Reads.pure _)
  have hfold : xs.foldl (fun ys x => ys ++ [val x]) [] = xs.map val := by
    rw [List.foldl_append_eq_append, List.nil_append, ← List.flatMap_def, ← List.map_eq_flatMap]
  rwa [hfold] at hloop

end Exec
