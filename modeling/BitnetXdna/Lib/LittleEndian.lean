import Mathlib.Algebra.Order.Ring.Nat
import Mathlib.Data.List.OfFn
import Mathlib.Tactic.Common

/-!
# Little-endian integers

`leBytes w x` is `x` in `w` bytes, the lowest first, and `ofLeBytes` reads such bytes back. Each inverts the other
(`ofLeBytes_leBytes`, `leBytes_ofLeBytes`). A slice is some bytes of a longer list.
-/

namespace LittleEndian

/-- The lowest `w` bytes of `x`, the lowest first. -/
def leBytes : Nat → Nat → List UInt8
  | 0, _ => []
  | w + 1, x => UInt8.ofNat x :: leBytes w (x / 256)

/-- The number that some bytes stand for. -/
def ofLeBytes : List UInt8 → Nat
  | [] => 0
  | b :: bs => b.toNat + 256 * ofLeBytes bs

@[simp] theorem length_leBytes (w x : Nat) : (leBytes w x).length = w := by
  induction w generalizing x with
  | zero => rfl
  | succ w ih => rw [leBytes, List.length_cons, ih]

/-- Reading back what was written, when it fits. -/
theorem ofLeBytes_leBytes {w x : Nat} (h : x < 256 ^ w) : ofLeBytes (leBytes w x) = x := by
  induction w generalizing x with
  | zero =>
    rw [Nat.pow_zero] at h
    rw [leBytes, ofLeBytes]
    omega
  | succ w ih =>
    have hdiv : x / 256 < 256 ^ w := Nat.div_lt_of_lt_mul (by rwa [Nat.pow_succ, Nat.mul_comm] at h)
    rw [leBytes, ofLeBytes, ih hdiv, UInt8.toNat_ofNat']
    omega

/-- What some bytes stand for fits in them. -/
theorem ofLeBytes_lt (bs : List UInt8) : ofLeBytes bs < 256 ^ bs.length := by
  induction bs with
  | nil => exact Nat.one_pos
  | cons b bs ih =>
    have hb := b.toNat_lt
    rw [ofLeBytes, List.length_cons, Nat.pow_succ]
    omega

/-- Writing back what was read. -/
theorem leBytes_ofLeBytes (bs : List UInt8) : leBytes bs.length (ofLeBytes bs) = bs := by
  induction bs with
  | nil => rfl
  | cons b bs ih =>
    have hb := b.toNat_lt
    have hdiv : (b.toNat + 256 * ofLeBytes bs) / 256 = ofLeBytes bs := by omega
    have hmod : UInt8.ofNat (b.toNat + 256 * ofLeBytes bs) = b := by
      apply UInt8.toNat_inj.mp
      rw [UInt8.toNat_ofNat']
      omega
    rw [List.length_cons, leBytes, ofLeBytes, hdiv, hmod, ih]

/-! ## Slices of a list of bytes -/

/-- The `w` bytes from `i` on. -/
def slice (bs : List UInt8) (i w : Nat) : List UInt8 := (bs.drop i).take w

theorem length_slice {bs : List UInt8} {i w : Nat} (h : i + w ≤ bs.length) : (slice bs i w).length = w := by
  unfold slice
  rw [List.length_take, List.length_drop]
  omega

theorem slice_append_drop (bs : List UInt8) (i w : Nat) : slice bs i w ++ bs.drop (i + w) = bs.drop i := by
  unfold slice
  rw [← List.drop_drop, List.take_append_drop]

theorem ofFn_slice {bs : List UInt8} {i w : Nat} (h : i + w ≤ bs.length) :
    (List.ofFn fun j : Fin w => bs[i + j]) = slice bs i w := by
  apply List.ext_getElem
  · rw [List.length_ofFn, length_slice h]
  · intro j h1 h2
    simp only [slice, List.getElem_ofFn, List.getElem_take, List.getElem_drop]

/-- Writing an integer that was read from a slice. -/
theorem leBytes_slice {bs : List UInt8} {i w : Nat} (h : i + w ≤ bs.length) :
    leBytes w (ofLeBytes (slice bs i w)) = slice bs i w := by
  have hround := leBytes_ofLeBytes (slice bs i w)
  rwa [length_slice h] at hround

end LittleEndian
