import Mathlib

/-!
# Small integers in binary32

Every integer of magnitude at most 2^24 is a binary32 number, and so is the result of subtracting two of them when it is as
small. `Binary32.ofInt` is the conversion from an integer; `Binary32.ofInt_sub` says that the rounded difference of two such
conversions is the conversion of the difference. The proof follows the model of binary32: an integer converts to its
mantissa of 24 bits and an exponent (`ofInt_eq`), packing keeps both (`unpack_pack_finite`), and rounding an exact value
drops only zeros (`round_exact`).
-/

open Float.Model Float.Model.UnpackedFloat

namespace Binary32

/-- The conversion of an integer to binary32. -/
def ofInt (z : Int) : Float32 := .ofModel (.ofInt z)

/-- The mantissa of 24 bits of a positive integer of at most 25. -/
def mantissa (n : Nat) : Nat := n * 2 ^ 23 / 2 ^ n.log2

/-- The exponent that goes with it. -/
def exponent (n : Nat) : Int := n.log2 - 23

/-! ## Rounding an exact value -/

/-- Shifting out zeros loses nothing. -/
theorem shiftRight_exact (m j : Nat) :
    (ExtendedMantissa.mk (m * 2 ^ j) false false) >>> j = ExtendedMantissa.mk m false false := by
  have key : ∀ i ≤ j, Nat.repeat ExtendedMantissa.shiftRightOne i ⟨m * 2 ^ j, false, false⟩ =
      ⟨m * 2 ^ (j - i), false, false⟩ := by
    intro i hi
    induction i with
    | zero => rfl
    | succ i ih =>
      have hstep : m * 2 ^ (j - i) = m * 2 ^ (j - (i + 1)) * 2 := by
        rw [Nat.mul_assoc, ← Nat.pow_succ, Nat.succ_eq_add_one, show j - (i + 1) + 1 = j - i by omega]
      rw [Nat.repeat, ih (by omega), ExtendedMantissa.shiftRightOne]
      simp only [hstep, Nat.mul_div_cancel _ (show 0 < 2 by decide), Nat.mul_mod_left]
      rfl
  have h := key j (Nat.le_refl j)
  rw [Nat.sub_self, Nat.pow_zero, Nat.mul_one] at h
  exact h

/-- A mantissa of 24 bits is already where rounding wants it. -/
theorem targetExponent_of_log2 {m : Nat} {e : Int} {j : Nat} (hm : m ≠ 0) (hlog : m.log2 = 23) (he : -149 ≤ e) :
    Format.binary32.targetExponent (totalExponent (m * 2 ^ j) (e - j)) = e := by
  have hlog' : (m * 2 ^ j).log2 = 23 + j := by
    have h := (Nat.log2_eq_iff hm).mp hlog
    rw [Nat.log2_eq_iff (by positivity)]
    constructor
    · rw [Nat.pow_add]
      exact Nat.mul_le_mul_right _ h.1
    · rw [show 23 + j + 1 = 24 + j by omega, Nat.pow_add]
      exact Nat.mul_lt_mul_of_pos_right h.2 (by positivity)
  simp only [Format.targetExponent, totalExponent, hlog', Format.mantissaBits, Format.minExponent]
  omega

/-- Rounding a value that has at most 24 significant bits keeps it. -/
theorem roundWithAccuracy_exact (s : Sign) {m : Nat} {e : Int} (hm : 0 < m) (hlog : m.log2 = 23) (he : -149 ≤ e)
    (j : Nat) : roundWithAccuracy Format.binary32 s (m * 2 ^ j) (e - j) .exact = .finite s m e hm := by
  have hm' : m ≠ 0 := by omega
  have hshift : ∀ j : Nat, shiftToTargetExponent Format.binary32 (m * 2 ^ j) (e - j) .exact = (⟨m, false, false⟩, e) := by
    intro j
    rw [shiftToTargetExponent, targetExponent_of_log2 hm' hlog he]
    have hamount : (e - (e - j)).toNat = j := by omega
    simp only [shiftToExponent, hamount, ExtendedMantissa.ofMantissaAndAccuracy, shiftRight_exact]
    exact Prod.ext rfl (by simp)
  have h0 := hshift 0
  simp only [Nat.pow_zero, Nat.mul_one, Int.natCast_zero, Int.sub_zero] at h0
  simp only [roundWithAccuracy, hshift j, ExtendedMantissa.roundedMantissa, ExtendedMantissa.accuracy,
    Accuracy.roundToNearestEven, h0, dif_neg hm']

/-! ## The mantissa of an integer -/

theorem mantissa_pos {n : Nat} (hn : 0 < n) : 0 < mantissa n := by
  refine Nat.div_pos ?_ (by positivity)
  calc 2 ^ n.log2 ≤ n := Nat.log2_self_le (by omega)
    _ ≤ n * 2 ^ 23 := Nat.le_mul_of_pos_right n (by positivity)

/-- The mantissa is exact. -/
theorem mantissa_mul {n : Nat} (hn : 0 < n) (h : n ≤ 2 ^ 24) : mantissa n * 2 ^ n.log2 = n * 2 ^ 23 := by
  refine Nat.div_mul_cancel ?_
  by_cases hlog : n.log2 ≤ 23
  · exact Dvd.dvd.mul_left (Nat.pow_dvd_pow 2 hlog) n
  · have hbig : 24 ≤ n.log2 := by omega
    have hlow : 2 ^ 24 ≤ n := (Nat.le_log2 (by omega)).mp hbig
    obtain rfl : n = 2 ^ 24 := by omega
    exact ⟨2 ^ 23, by decide⟩

theorem log2_le {n : Nat} (hn : 0 < n) (h : n ≤ 2 ^ 24) : n.log2 ≤ 24 := by
  have hlt : n < 2 ^ 25 := by omega
  have := (Nat.log2_lt hn.ne').mpr hlt
  omega

/-- The mantissa has 24 bits. -/
theorem log2_mantissa {n : Nat} (hn : 0 < n) (h : n ≤ 2 ^ 24) : (mantissa n).log2 = 23 := by
  have hmul := mantissa_mul hn h
  have hself := (Nat.log2_eq_iff (k := n.log2) (by omega)).mp rfl
  have hpos : 0 < 2 ^ n.log2 := by positivity
  rw [Nat.log2_eq_iff (by have := mantissa_pos hn; omega)]
  constructor
  · refine Nat.le_of_mul_le_mul_right ?_ hpos
    rw [hmul, Nat.mul_comm]
    exact Nat.mul_le_mul_right _ hself.1
  · refine Nat.lt_of_mul_lt_mul_right (a := 2 ^ n.log2) ?_
    rw [hmul]
    calc n * 2 ^ 23 < 2 ^ (n.log2 + 1) * 2 ^ 23 := Nat.mul_lt_mul_of_pos_right hself.2 (by decide)
      _ = 2 ^ (23 + 1) * 2 ^ n.log2 := by ring

/-- An integer scaled up is its mantissa, scaled up by what is left of the exponent. -/
theorem mul_pow_eq {n k j : Nat} (hn : 0 < n) (h : n ≤ 2 ^ 24) (hj : n.log2 + k = 23 + j) :
    n * 2 ^ k = mantissa n * 2 ^ j := by
  have hmul := mantissa_mul hn h
  refine Nat.eq_of_mul_eq_mul_right (show 0 < 2 ^ 23 by decide) ?_
  calc n * 2 ^ k * 2 ^ 23 = n * 2 ^ 23 * 2 ^ k := by ring
    _ = mantissa n * 2 ^ (n.log2 + k) := by rw [← hmul, Nat.pow_add, Nat.mul_assoc]
    _ = mantissa n * 2 ^ j * 2 ^ 23 := by rw [hj, Nat.pow_add]; ring

/-- Rounding an integer of at most 24 significant bits, however it is scaled, gives its mantissa and its exponent. -/
theorem round_exact (s : Sign) {n : Nat} (hn : 0 < n) (h : n ≤ 2 ^ 24) (k : Nat) :
    round Format.binary32 s (n * 2 ^ k) (-k) = .finite s (mantissa n) (exponent n) (mantissa_pos hn) := by
  have hlog := log2_mantissa hn h
  have hle := log2_le hn h
  have hmin : -149 ≤ exponent n := by rw [exponent]; omega
  have htarget : Format.binary32.targetExponent (totalExponent (n * 2 ^ k) (-k)) = exponent n := by
    have hscaled : (n * 2 ^ k).log2 = n.log2 + k := by
      have hself := (Nat.log2_eq_iff (k := n.log2) (by omega)).mp rfl
      rw [Nat.log2_eq_iff (by positivity)]
      constructor
      · rw [Nat.pow_add]
        exact Nat.mul_le_mul_right _ hself.1
      · rw [show n.log2 + k + 1 = n.log2 + 1 + k by omega, Nat.pow_add]
        exact Nat.mul_lt_mul_of_pos_right hself.2 (by positivity)
    simp only [Format.targetExponent, totalExponent, hscaled, Format.mantissaBits, Format.minExponent, exponent]
    omega
  rw [UnpackedFloat.round, htarget]
  by_cases hk : n.log2 + k ≤ 23
  · -- the mantissa is shifted up to 24 bits
    have hamount : (-(k : Int) - exponent n).toNat = 23 - n.log2 - k := by rw [exponent]; omega
    have hshift : (n * 2 ^ k) <<< (23 - n.log2 - k) = mantissa n * 2 ^ 0 := by
      rw [Nat.shiftLeft_eq, Nat.mul_assoc, ← Nat.pow_add]
      exact mul_pow_eq hn h (by omega)
    have hexp : -(k : Int) - ((23 - n.log2 - k : Nat) : Int) = exponent n - (0 : Nat) := by rw [exponent]; omega
    simp only [decreaseExponent, hamount, hshift, hexp]
    exact roundWithAccuracy_exact s (mantissa_pos hn) hlog hmin 0
  · -- rounding shifts it down, and only zeros are dropped
    have hamount : (-(k : Int) - exponent n).toNat = 0 := by rw [exponent]; omega
    have hshift : (n * 2 ^ k) <<< 0 = mantissa n * 2 ^ (n.log2 + k - 23) := mul_pow_eq hn h (by omega)
    have hexp : -(k : Int) - ((0 : Nat) : Int) = exponent n - ((n.log2 + k - 23 : Nat) : Int) := by rw [exponent]; omega
    simp only [decreaseExponent, hamount, hshift, hexp]
    exact roundWithAccuracy_exact s (mantissa_pos hn) hlog hmin _

/-! ## Conversion, packing and subtraction -/

/-- The sign of an integer that is not zero. -/
def signOf (z : Int) : Sign := if z < 0 then .negative else .positive

/-- The binary32 number of an integer, unpacked. -/
def unpacked (z : Int) : UnpackedFloat :=
  if h : z = 0 then .zero .positive
  else .finite (signOf z) (mantissa z.natAbs) (exponent z.natAbs) (mantissa_pos (Int.natAbs_pos.mpr h))

/-- Normalizing a small integer, however it is scaled, is exact. -/
theorem normalize_exact {z : Int} (h : |z| ≤ 2 ^ 24) (k : Nat) :
    UnpackedFloat.normalize Format.binary32 (z * 2 ^ k) (-k) .positive = unpacked z := by
  have hpow : (0 : Int) < 2 ^ k := by positivity
  rw [abs_le] at h
  rcases lt_trichotomy z 0 with hz | rfl | hz
  · have hneg : z * 2 ^ k < 0 := mul_neg_of_neg_of_pos hz hpow
    have hnat : (-(z * 2 ^ k)).toNat = z.natAbs * 2 ^ k := by
      zify
      rw [Int.toNat_of_nonneg (by omega), abs_of_neg hz]
      ring
    rw [UnpackedFloat.normalize, compare_lt_iff_lt.mpr hneg, unpacked, dif_neg (by omega), signOf, if_pos hz]
    simp only [hnat]
    exact round_exact _ (by omega) (by omega) k
  · simp [UnpackedFloat.normalize, unpacked]
  · have hpos : 0 < z * 2 ^ k := mul_pos hz hpow
    have hnat : (z * 2 ^ k).toNat = z.natAbs * 2 ^ k := by
      zify
      rw [Int.toNat_of_nonneg (by omega), abs_of_pos hz]
    rw [UnpackedFloat.normalize, compare_gt_iff_gt.mpr hpos, unpacked, dif_neg (by omega), signOf, if_neg (by omega)]
    simp only [hnat]
    exact round_exact _ (by omega) (by omega) k

/-- The conversion of a small integer is exact. -/
theorem ofInt_exact {z : Int} (h : |z| ≤ 2 ^ 24) : UnpackedFloat.ofInt Format.binary32 z = unpacked z := by
  simpa [UnpackedFloat.ofInt] using normalize_exact h 0

/-- A normal number survives packing. -/
theorem unpack_pack_finite (s : Sign) {m : Nat} {e : Int} (hm : 0 < m) (hlog : m.log2 = 23) (hlow : -149 ≤ e)
    (hhigh : e ≤ 104) : unpack Format.binary32 (pack Format.binary32 (.finite s m e hm)) = .finite s m e hm := by
  have hbounds := (Nat.log2_eq_iff (by omega)).mp hlog
  have hexp : ((BitVec.ofNat 8 (e + 150).toNat).toNat : Int) = e + 150 := by
    rw [BitVec.toNat_ofNat, Nat.mod_eq_of_lt (by omega)]
    omega
  have hne1 : BitVec.ofNat 8 (e + 150).toNat ≠ -1#8 := fun h => by
    have := congrArg BitVec.toNat h
    simp at this
    omega
  have hne0 : BitVec.ofNat 8 (e + 150).toNat ≠ 0#8 := fun h => by
    have := congrArg BitVec.toNat h
    simp at this
    omega
  have hmant : (1#1 ++ BitVec.ofNat 23 m).toNat = m := by
    have hlt : (BitVec.ofNat 23 m).toNat < 2 ^ 23 := BitVec.isLt _
    rw [BitVec.toNat_append, ← Nat.shiftLeft_add_eq_or_of_lt hlt, Nat.shiftLeft_eq, BitVec.toNat_ofNat,
      BitVec.toNat_ofNat]
    omega
  have hnotinf : ¬2 ^ 8 ≤ (e + 150).toNat + 1 := by omega
  have hbias : e + ((Format.exponentBias Format.binary32 : Nat) : Int) + ((23 : Nat) : Int) = e + 150 := by
    rw [show Format.exponentBias Format.binary32 = 127 from rfl]
    omega
  rw [UnpackedFloat.pack]
  simp only [hbias, hlog, hnotinf, if_false, Format.mantissaBits, if_true, UnpackedFloat.unpack,
    unpackExponent_packComponents, unpackMantissa_packComponents, hne1, hne0, unpackSign_packComponents,
    Sign.ofBitVec_toBitVec, hexp, hmant]
  congr 1
  rw [show Format.exponentBias Format.binary32 = 127 from rfl]
  omega

/-- A small integer survives packing. -/
theorem unpack_pack_unpacked {z : Int} (h : |z| ≤ 2 ^ 24) :
    UnpackedFloat.unpack Format.binary32 (UnpackedFloat.pack Format.binary32 (unpacked z)) = unpacked z := by
  rw [abs_le] at h
  by_cases hz : z = 0
  · subst hz
    rfl
  · have hlog := log2_le (n := z.natAbs) (by omega) (by omega)
    rw [unpacked, dif_neg hz]
    exact unpack_pack_finite _ _ (log2_mantissa (by omega) (by omega)) (by rw [exponent]; omega) (by rw [exponent]; omega)

/-- The mantissa of a small integer, shifted to an exponent at most zero, is the integer scaled up. -/
theorem apply_decreaseExponent {z t : Int} (hz : z ≠ 0) (h : |z| ≤ 2 ^ 24) (ht : t ≤ exponent z.natAbs) (ht0 : t ≤ 0) :
    (signOf z).apply ((decreaseExponent (mantissa z.natAbs) (exponent z.natAbs) t).1 : Nat) = z * 2 ^ (-t).toNat := by
  rw [abs_le] at h
  have hshift : mantissa z.natAbs <<< (exponent z.natAbs - t).toNat = z.natAbs * 2 ^ (-t).toNat := by
    rw [Nat.shiftLeft_eq]
    exact (mul_pow_eq (by omega) (by omega) (by rw [exponent] at *; omega)).symm
  rw [decreaseExponent]
  simp only [hshift]
  rcases lt_or_gt_of_ne hz with hneg | hpos
  · rw [signOf, if_pos hneg, Sign.apply]
    push_cast
    rw [abs_of_neg hneg]
    ring
  · rw [signOf, if_neg (by omega), Sign.apply]
    push_cast
    rw [abs_of_pos hpos]

/-- The difference of two small integers, when it is small too. -/
theorem sub_unpacked {a b : Int} (ha : |a| ≤ 2 ^ 24) (hb : |b| ≤ 2 ^ 24) (hab : |a - b| ≤ 2 ^ 24) :
    UnpackedFloat.sub Format.binary32 (unpacked a) (unpacked b) = unpacked (a - b) := by
  by_cases ha0 : a = 0
  · subst ha0
    by_cases hb0 : b = 0
    · subst hb0
      rfl
    · have hneg : -signOf b = signOf (0 - b) := by
        rcases lt_or_gt_of_ne hb0 with h | h
        · rw [signOf, signOf, if_pos h, if_neg (by omega)]
          rfl
        · rw [signOf, signOf, if_neg (by omega), if_pos (by omega)]
          rfl
      have hnat : (0 - b).natAbs = b.natAbs := by omega
      rw [unpacked, unpacked, unpacked, dif_pos rfl, dif_neg hb0, dif_neg (by omega), UnpackedFloat.sub, hneg]
      simp only [hnat]
  · by_cases hb0 : b = 0
    · subst hb0
      rw [Int.sub_zero, unpacked, dif_neg ha0]
      rfl
    · have hla := log2_le (n := a.natAbs) (by omega) (by rw [abs_le] at ha; omega)
      have hlb := log2_le (n := b.natAbs) (by omega) (by rw [abs_le] at hb; omega)
      have hsub : UnpackedFloat.sub Format.binary32 (unpacked a) (unpacked b) =
          UnpackedFloat.normalize Format.binary32
            ((signOf a).apply ((decreaseExponent (mantissa a.natAbs) (exponent a.natAbs)
                (min (exponent a.natAbs) (exponent b.natAbs))).1 : Nat) -
              (signOf b).apply ((decreaseExponent (mantissa b.natAbs) (exponent b.natAbs)
                (min (exponent a.natAbs) (exponent b.natAbs))).1 : Nat))
            (min (exponent a.natAbs) (exponent b.natAbs)) .positive := by
        rw [unpacked, unpacked, dif_neg ha0, dif_neg hb0]
        rfl
      rw [hsub]
      by_cases ht : min (exponent a.natAbs) (exponent b.natAbs) ≤ 0
      · rw [apply_decreaseExponent ha0 ha (Int.min_le_left ..) ht, apply_decreaseExponent hb0 hb (Int.min_le_right ..) ht,
          ← Int.sub_mul]
        have key := normalize_exact hab (-min (exponent a.natAbs) (exponent b.natAbs)).toNat
        rwa [show -(((-min (exponent a.natAbs) (exponent b.natAbs)).toNat : Nat) : Int) =
          min (exponent a.natAbs) (exponent b.natAbs) by omega] at key
      · -- both are 2^24 in magnitude, so they are equal
        have hbig : ∀ z : Int, z ≠ 0 → |z| ≤ 2 ^ 24 → 0 < exponent z.natAbs → z.natAbs = 2 ^ 24 := by
          intro z hz hle hpos
          have h24 : 24 ≤ z.natAbs.log2 := by rw [exponent] at hpos; omega
          have hlow : 2 ^ 24 ≤ z.natAbs := (Nat.le_log2 (by omega)).mp h24
          rw [abs_le] at hle
          omega
        have hA := hbig a ha0 ha (by omega)
        have hB := hbig b hb0 hb (by omega)
        obtain rfl : a = b := by
          rw [abs_le] at hab
          omega
        simp [UnpackedFloat.normalize, unpacked]

/-- The difference of two small integers, computed in binary32, is exact when it is small. -/
theorem ofInt_sub {a b : Int} (ha : |a| ≤ 2 ^ 24) (hb : |b| ≤ 2 ^ 24) (hab : |a - b| ≤ 2 ^ 24) :
    ofInt a - ofInt b = ofInt (a - b) := by
  have hround : ∀ z : Int, |z| ≤ 2 ^ 24 → (ofInt z).toModel.unpack = unpacked z := by
    intro z hz
    have h := unpack_pack_unpacked hz
    rw [← ofInt_exact hz] at h ⊢
    exact h
  have hmodel : (ofInt a - ofInt b).toModel = (ofInt (a - b)).toModel := by
    show Float32.Model.pack (UnpackedFloat.sub Format.binary32 (ofInt a).toModel.unpack (ofInt b).toModel.unpack) = _
    rw [hround a ha, hround b hb, sub_unpacked ha hb hab, ← ofInt_exact hab]
    rfl
  cases hx : ofInt a - ofInt b
  cases hy : ofInt (a - b)
  rw [hx, hy] at hmodel
  exact congrArg Float32.ofModel hmodel

end Binary32
