import Mathlib

/-!
# Sums over tables

The sum of a weight over the values of a finite map, and what replacing or adding an entry does to it.
-/

namespace AList

variable {κ v : Type}

/-- The sum of `f` over the values of a table. -/
def total (f : v → Nat) (t : AList fun _ : κ => v) : Nat := (t.entries.map fun e => f e.2).sum

@[simp] theorem total_empty (f : v → Nat) : total f (∅ : AList fun _ : κ => v) = 0 := rfl

variable [DecidableEq κ]

/-- Taking out an entry takes out its weight. -/
theorem sum_kerase (f : v → Nat) (k : κ) (l : List (Sigma fun _ : κ => v)) :
    ((l.kerase k).map fun e => f e.2).sum + ((l.dlookup k).map f).getD 0 = (l.map fun e => f e.2).sum := by
  induction l with
  | nil => rfl
  | cons e l ih =>
    by_cases hk : k = e.1
    · subst hk
      rw [List.kerase_cons_eq rfl, List.dlookup_cons_eq, List.map_cons, List.sum_cons, Option.map_some, Option.getD_some,
        Nat.add_comm]
    · rw [List.kerase_cons_ne hk, List.dlookup_cons_ne _ _ hk, List.map_cons, List.map_cons, List.sum_cons, List.sum_cons,
        Nat.add_assoc, ih]

/-- A new value comes in place of the old one. -/
theorem total_insert (f : v → Nat) (k : κ) (x : v) (t : AList fun _ : κ => v) :
    total f (t.insert k x) + ((t.lookup k).map f).getD 0 = f x + total f t := by
  unfold total
  rw [AList.entries_insert, List.map_cons, List.sum_cons, Nat.add_assoc]
  exact congrArg (f x + ·) (sum_kerase f k t.entries)

/-- A value at a new key is added. -/
theorem total_insert_of_notMem (f : v → Nat) {k : κ} (x : v) {t : AList fun _ : κ => v} (h : k ∉ t) :
    total f (t.insert k x) = f x + total f t := by
  have hinsert := total_insert f k x t
  rwa [AList.lookup_eq_none.mpr h, Option.map_none, Option.getD_none, Nat.add_zero] at hinsert

end AList
