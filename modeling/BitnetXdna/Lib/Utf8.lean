import Mathlib.Tactic.Common

/-!
# Decoding UTF-8 with replacement

`decode` reads bytes as UTF-8 and puts the replacement character where they are none: once for every longest part that could
still have become a character, and once for every other byte that starts none. It works byte by byte. Text in UTF-8 is decoded
to itself (`decode_encode`).
-/

namespace Utf8

/-- The first bytes of a character: the bits they hold, how many bytes are missing, and from where to where the next may be. -/
structure Pending where
  bits : Nat
  left : Nat
  low : Nat
  high : Nat

/-- U+FFFD. -/
def replacement : Char := Char.ofNat 0xFFFD

/-- A byte that comes after whole characters: the characters it completes, and the character it begins. -/
def start (b : Nat) : List Char × Option Pending :=
  if b < 0x80 then ([Char.ofNat b], none)
  else if 0xC2 ≤ b ∧ b ≤ 0xDF then ([], some ⟨b - 0xC0, 1, 0x80, 0xBF⟩)
  else if 0xE0 ≤ b ∧ b ≤ 0xEF then
    -- no encoding of what is shorter, and none of a surrogate
    ([], some ⟨b - 0xE0, 2, if b = 0xE0 then 0xA0 else 0x80, if b = 0xED then 0x9F else 0xBF⟩)
  else if 0xF0 ≤ b ∧ b ≤ 0xF4 then
    ([], some ⟨b - 0xF0, 3, if b = 0xF0 then 0x90 else 0x80, if b = 0xF4 then 0x8F else 0xBF⟩)
  else ([replacement], none)

/-- A byte that comes within a character. If it does not belong there, the character is replaced and the byte starts anew. -/
def proceed (p : Pending) (b : Nat) : List Char × Option Pending :=
  if p.low ≤ b ∧ b ≤ p.high then
    if p.left = 1 then ([Char.ofNat (p.bits * 64 + (b - 0x80))], none)
    else ([], some ⟨p.bits * 64 + (b - 0x80), p.left - 1, 0x80, 0xBF⟩)
  else (replacement :: (start b).1, (start b).2)

/-- The characters of some bytes, from the middle of a character or from between two. -/
def decodeFrom : Option Pending → List UInt8 → List Char
  | none, [] => []
  | some _, [] => [replacement]
  | none, b :: bs => (start b.toNat).1 ++ decodeFrom (start b.toNat).2 bs
  | some p, b :: bs => (proceed p b.toNat).1 ++ decodeFrom (proceed p b.toNat).2 bs

/-- The text that some bytes stand for. -/
def decode (bs : List UInt8) : String := String.ofList (decodeFrom none bs)

/-- The bytes of a text. -/
def encode (s : String) : List UInt8 := s.toList.flatMap String.utf8EncodeChar

/-! ## What is encoded is decoded -/

section

variable {b : UInt8} {bs : List UInt8}

theorem decodeFrom_start {cs : List Char} {next : Option Pending} (h : start b.toNat = (cs, next)) :
    decodeFrom none (b :: bs) = cs ++ decodeFrom next bs := by
  rw [decodeFrom, h]

/-- A byte within a character that is neither its first nor its last. -/
theorem decodeFrom_more {p : Pending} {n : Nat} (hb : b.toNat = n + 0x80) (hlow : p.low ≤ n + 0x80)
    (hhigh : n + 0x80 ≤ p.high) (hleft : p.left ≠ 1) :
    decodeFrom (some p) (b :: bs) = decodeFrom (some ⟨p.bits * 64 + n, p.left - 1, 0x80, 0xBF⟩) bs := by
  rw [decodeFrom, proceed, hb, if_pos ⟨hlow, hhigh⟩, if_neg hleft, Nat.add_sub_cancel]
  rfl

/-- The last byte of a character. -/
theorem decodeFrom_last {p : Pending} {n : Nat} (hb : b.toNat = n + 0x80) (hlow : p.low ≤ n + 0x80)
    (hhigh : n + 0x80 ≤ p.high) (hleft : p.left = 1) :
    decodeFrom (some p) (b :: bs) = Char.ofNat (p.bits * 64 + n) :: decodeFrom none bs := by
  rw [decodeFrom, proceed, hb, if_pos ⟨hlow, hhigh⟩, if_pos hleft, Nat.add_sub_cancel]
  rfl

end

theorem toNat_ofNat {n : Nat} (h : n < 256) : (UInt8.ofNat n).toNat = n := by
  rw [UInt8.toNat_ofNat', Nat.mod_eq_of_lt h]

/-- Every character is the first of its bytes, whatever follows. The cases are the lengths of its encoding. -/
theorem decodeFrom_utf8EncodeChar (c : Char) (bs : List UInt8) :
    decodeFrom none (String.utf8EncodeChar c ++ bs) = c :: decodeFrom none bs := by
  have hc : Char.ofNat c.val.toNat = c := Char.ofNat_toNat c
  have hvalid : c.val.toNat < 0xD800 ∨ 0xDFFF < c.val.toNat ∧ c.val.toNat < 0x110000 := c.valid
  unfold String.utf8EncodeChar
  generalize c.val.toNat = v at hc hvalid
  simp only
  split
  · have hb : start (UInt8.ofNat v).toNat = ([Char.ofNat v], none) := by
      rw [toNat_ofNat (by omega), start, if_pos (by omega)]
    rw [List.cons_append, decodeFrom_start hb, hc]
    rfl
  split
  · have hb : start (UInt8.ofNat (v / 64 % 0x20 + 0xc0)).toNat = ([], some ⟨v / 64 % 0x20, 1, 0x80, 0xBF⟩) := by
      rw [toNat_ofNat (by omega), start, if_neg (by omega), if_pos (by omega), Nat.add_sub_cancel]
    have hbits : v / 64 % 0x20 * 64 + v % 0x40 = v := by omega
    simp only [List.cons_append, List.nil_append]
    rw [decodeFrom_start hb, List.nil_append, decodeFrom_last (toNat_ofNat (by omega)) (by simp) (by simp; omega) rfl,
      hbits, hc]
  split
  · have hb : start (UInt8.ofNat (v / 4096 % 0x10 + 0xe0)).toNat =
        ([], some ⟨v / 4096 % 0x10, 2, if v / 4096 % 0x10 + 0xe0 = 0xE0 then 0xA0 else 0x80,
          if v / 4096 % 0x10 + 0xe0 = 0xED then 0x9F else 0xBF⟩) := by
      rw [toNat_ofNat (by omega), start, if_neg (by omega), if_neg (by omega), if_pos (by omega), Nat.add_sub_cancel]
    have hlow : (if v / 4096 % 0x10 + 0xe0 = 0xE0 then 0xA0 else 0x80) ≤ v / 64 % 0x40 + 0x80 := by split <;> omega
    have hhigh : v / 64 % 0x40 + 0x80 ≤ if v / 4096 % 0x10 + 0xe0 = 0xED then 0x9F else 0xBF := by split <;> omega
    have hbits : (v / 4096 % 0x10 * 64 + v / 64 % 0x40) * 64 + v % 0x40 = v := by omega
    simp only [List.cons_append, List.nil_append]
    rw [decodeFrom_start hb, List.nil_append, decodeFrom_more (toNat_ofNat (by omega)) hlow hhigh (by simp),
      decodeFrom_last (toNat_ofNat (by omega)) (by simp) (by simp; omega) rfl, hbits, hc]
  · have hb : start (UInt8.ofNat (v / 262144 % 0x08 + 0xf0)).toNat =
        ([], some ⟨v / 262144 % 0x08, 3, if v / 262144 % 0x08 + 0xf0 = 0xF0 then 0x90 else 0x80,
          if v / 262144 % 0x08 + 0xf0 = 0xF4 then 0x8F else 0xBF⟩) := by
      rw [toNat_ofNat (by omega), start, if_neg (by omega), if_neg (by omega), if_neg (by omega), if_pos (by omega),
        Nat.add_sub_cancel]
    have hlow : (if v / 262144 % 0x08 + 0xf0 = 0xF0 then 0x90 else 0x80) ≤ v / 4096 % 0x40 + 0x80 := by split <;> omega
    have hhigh : v / 4096 % 0x40 + 0x80 ≤ if v / 262144 % 0x08 + 0xf0 = 0xF4 then 0x8F else 0xBF := by split <;> omega
    have hbits : ((v / 262144 % 0x08 * 64 + v / 4096 % 0x40) * 64 + v / 64 % 0x40) * 64 + v % 0x40 = v := by omega
    simp only [List.cons_append, List.nil_append]
    rw [decodeFrom_start hb, List.nil_append, decodeFrom_more (toNat_ofNat (by omega)) hlow hhigh (by simp),
      decodeFrom_more (toNat_ofNat (by omega)) (by simp) (by simp; omega) (by simp),
      decodeFrom_last (toNat_ofNat (by omega)) (by simp) (by simp; omega) rfl, hbits, hc]

/-- Text is decoded to itself. -/
theorem decode_encode (s : String) : decode (encode s) = s := by
  have hchars : ∀ cs : List Char, decodeFrom none (cs.flatMap String.utf8EncodeChar) = cs := by
    intro cs
    induction cs with
    | nil => rfl
    | cons c cs ih => rw [List.flatMap_cons, decodeFrom_utf8EncodeChar, ih]
  rw [decode, encode, hchars, String.ofList_toList]

end Utf8
