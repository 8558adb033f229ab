import BitnetXdna.Coord.Identity

/-!
# The digest against the identity

The digest folds every byte of a coordinate's image, and the comparison does not look at all of them: it skips the padding
and what follows the terminating zero of the checkpoint string (`ModelCoord.Ignored`). One such byte is enough for two
coordinates of one model to have different digests, so the digest respects identity exactly among coordinates that cannot
differ in such a byte (`digest_respects_iff`).
-/

namespace BitnetXdna

open LittleEndian

/-- A byte of the image that the comparison does not look at: padding, or behind the end of the checkpoint string. -/
def ModelCoord.Ignored (c : ModelCoord) (i : Nat) : Prop :=
  (65 ≤ i ∧ i < 72) ∨ ∃ (h : i < 65) (z : Fin 65), z < ⟨i, h⟩ ∧ c.ggufSha256 z = 0

/-! ## One byte changes the digest -/

/-- The prime of the hash is odd, so it has an inverse modulo 2^64. -/
theorem mul_prime_injective {x y : UInt64} (heq : x * 1099511628211 = y * 1099511628211) : x = y := by
  have hinv : (1099511628211 : UInt64) * 14886173955864302971 = 1 := by decide
  have hmul := congrArg (· * (14886173955864302971 : UInt64)) heq
  simpa only [UInt64.mul_assoc, hinv, UInt64.mul_one] using hmul

/-- The hash of some bytes is injective in the hash before them. -/
theorem foldl_fnvStep_injective (bs : List UInt8) {h h' : UInt64} (heq : bs.foldl fnvStep h = bs.foldl fnvStep h') :
    h = h' := by
  induction bs generalizing h h' with
  | nil => exact heq
  | cons b bs ih => exact (UInt64.xor_left_inj _).mp (mul_prime_injective (ih heq))

/-- Two images that differ in exactly one byte have different hashes. -/
theorem foldl_fnvStep_set {bs : List UInt8} {i : Nat} {b v : UInt8} {h : UInt64} (hi : bs[i]? = some b) (hv : v ≠ b) :
    (bs.set i v).foldl fnvStep h ≠ bs.foldl fnvStep h := by
  induction bs generalizing i h with
  | nil => simp at hi
  | cons c bs ih =>
    cases i with
    | zero =>
      intro heq
      have hstep := mul_prime_injective (foldl_fnvStep_injective bs heq)
      have hbyte := UInt8.toUInt64_inj.mp ((UInt64.xor_right_inj _).mp hstep)
      exact hv (hbyte.trans (Option.some.inj hi))
    | succ i => exact ih hi

/-! ## The bytes of an image -/

theorem ModelCoord.image_getElem?_sha (c : ModelCoord) (i : Fin 65) : c.image[(i : Nat)]? = some (c.ggufSha256 i) := by
  unfold ModelCoord.image
  rw [List.getElem?_append_left (by simp), List.getElem?_ofFn, dif_pos i.isLt]

theorem ModelCoord.image_getElem?_pad (c : ModelCoord) (i : Fin 7) : c.image[65 + (i : Nat)]? = some (c.pad i) := by
  unfold ModelCoord.image
  rw [List.getElem?_append_right (by simp), List.length_ofFn, Nat.add_sub_cancel_left,
    List.getElem?_append_left (by simp), List.getElem?_ofFn, dif_pos i.isLt]

/-- Every image of 120 bytes is that of a coordinate. -/
theorem ModelCoord.exists_image {bs : List UInt8} (h : bs.length = 120) : ∃ c : ModelCoord, c.image = bs := by
  have hfit : ∀ i w, i + w ≤ 120 → ofLeBytes (slice bs i w) < 256 ^ w := by
    intro i w hi
    have hlt := ofLeBytes_lt (slice bs i w)
    rwa [length_slice (by omega)] at hlt
  have h32 : ∀ i, i + 4 ≤ 120 → leBytes 4 (UInt32.ofNat (ofLeBytes (slice bs i 4))).toNat = slice bs i 4 := by
    intro i hi
    rw [UInt32.toNat_ofNat_of_lt' (hfit i 4 hi), leBytes_slice (by omega)]
  have h64 : leBytes 8 (UInt64.ofNat (ofLeBytes (slice bs 72 8))).toNat = slice bs 72 8 := by
    rw [UInt64.toNat_ofNat_of_lt' (hfit 72 8 (by omega)), leBytes_slice (by omega)]
  have hint : ∀ u : UInt32, u.toInt32.toUInt32 = u := fun _ => rfl
  let word (i : Nat) : UInt32 := .ofNat (ofLeBytes (slice bs i 4))
  refine ⟨⟨fun j : Fin 65 => bs[0 + (j : Nat)], fun j : Fin 7 => bs[65 + (j : Nat)], .ofNat (ofLeBytes (slice bs 72 8)),
    (word 80).toInt32, (word 84).toInt32, (word 88).toInt32, (word 92).toInt32, (word 96).toInt32, (word 100).toInt32,
    word 104, word 108, (word 112).toInt32, (word 116).toInt32⟩, ?_⟩
  have hend : bs.drop 120 = [] := List.drop_eq_nil_of_le (by omega)
  have hstep : ∀ i w, slice bs i w ++ bs.drop (i + w) = bs.drop i := slice_append_drop bs
  unfold ModelCoord.image ModelCoord.fields
  simp only [List.append_assoc, word, hint, h64]
  have hsha : 0 + 65 ≤ bs.length := by omega
  have hpad : 65 + 7 ≤ bs.length := by omega
  rw [ofFn_slice hsha, ofFn_slice hpad, h32 80 (by omega), h32 84 (by omega), h32 88 (by omega), h32 92 (by omega),
    h32 96 (by omega), h32 100 (by omega), h32 104 (by omega), h32 108 (by omega), h32 112 (by omega), h32 116 (by omega)]
  have h116 := hstep 116 4
  rw [hend, List.append_nil] at h116
  rw [h116, hstep 112 4, hstep 108 4, hstep 104 4, hstep 100 4, hstep 96 4, hstep 92 4, hstep 88 4, hstep 84 4, hstep 80 4,
    hstep 72 8, hstep 65 7, hstep 0 65, List.drop_zero]

/-- Changing one entry of a function changes one entry of its list. -/
theorem ofFn_update {n : Nat} (f : Fin n → UInt8) (i : Fin n) (v : UInt8) :
    List.ofFn (Function.update f i v) = (List.ofFn f).set i v := by
  apply List.ext_getElem
  · simp
  · intro j h1 h2
    rw [List.getElem_set, List.getElem_ofFn, List.getElem_ofFn, Function.update_apply]
    simp only [Fin.ext_iff, eq_comm]

/-- Any byte that the comparison ignores can be anything in a coordinate of the same model. -/
theorem ModelCoord.exists_same_set {c : ModelCoord} {i : Nat} (hi : c.Ignored i) (v : UInt8) :
    ∃ b, c.Same b ∧ b.image = c.image.set i v := by
  rcases hi with ⟨hlow, hhigh⟩ | ⟨hlt, z, hz, hzero⟩
  · obtain ⟨j, rfl⟩ : ∃ j : Fin 7, i = 65 + j := ⟨⟨i - 65, by omega⟩, by simp only; omega⟩
    refine ⟨{ c with pad := Function.update c.pad j v }, ⟨fun _ _ => rfl, rfl, rfl, rfl, rfl, rfl, rfl, rfl, rfl, rfl,
      rfl, rfl⟩, ?_⟩
    unfold ModelCoord.image
    simp only [ofFn_update]
    rw [List.set_append_right _ _ (by simp), List.length_ofFn, Nat.add_sub_cancel_left,
      List.set_append_left _ _ (by simp)]
    rfl
  · refine ⟨{ c with ggufSha256 := Function.update c.ggufSha256 ⟨i, hlt⟩ v }, ⟨?_, rfl, rfl, rfl, rfl, rfl, rfl, rfl, rfl,
      rfl, rfl, rfl⟩, ?_⟩
    · intro j hj
      have hne : j ≠ ⟨i, hlt⟩ := by
        rintro rfl
        exact hj z hz hzero
      exact (Function.update_of_ne hne v c.ggufSha256).symm
    · unfold ModelCoord.image
      simp only [ofFn_update]
      rw [List.set_append_left _ _ (by simpa using hlt)]
      rfl

/-- Coordinates of one model that agree on the ignored bytes have one image. -/
theorem ModelCoord.Same.image_eq {a b : ModelCoord} (h : a.Same b)
    (hign : ∀ i, a.Ignored i → b.image[i]? = a.image[i]?) : a.image = b.image := by
  have hsha : a.ggufSha256 = b.ggufSha256 := by
    funext i
    by_cases hz : ∀ z < i, a.ggufSha256 z ≠ 0
    · exact h.ggufSha256 i hz
    · push Not at hz
      obtain ⟨z, hlt, hzero⟩ := hz
      have hbyte := hign i (Or.inr ⟨i.isLt, z, hlt, hzero⟩)
      rw [a.image_getElem?_sha, b.image_getElem?_sha] at hbyte
      exact (Option.some.inj hbyte).symm
  have hpad : a.pad = b.pad := by
    funext i
    have hbyte := hign (65 + i) (Or.inl ⟨by omega, by omega⟩)
    rw [a.image_getElem?_pad, b.image_getElem?_pad] at hbyte
    exact (Option.some.inj hbyte).symm
  unfold ModelCoord.image ModelCoord.fields
  rw [hsha, hpad, h.tokenizerHash, h.nEmbd, h.nLayer, h.nHead, h.nHeadKv, h.nVocab, h.nCtxTrain, h.ropeTheta, h.rmsNormEps,
    h.ggmlFtype, h.actParallel]

/-- Let `b` range over the coordinates that differ from `a` in the bytes of `M` only. The digest is that of `a` for every such
`b` that compares equal to `a`, exactly when `M` has no byte that the comparison ignores. -/
theorem digest_respects_iff (a : ModelCoord) (M : Set Nat) :
    (∀ b : ModelCoord, (∀ i, i ∉ M → b.image[i]? = a.image[i]?) → modelCoordEq a b = .ok () →
      modelCoordDigest a = modelCoordDigest b) ↔ ∀ i ∈ M, ¬a.Ignored i := by
  constructor
  · intro hdigest i hi hign
    obtain ⟨b, hb⟩ : ∃ b, a.image[i]? = some b := by
      rcases hign with ⟨hlow, hhigh⟩ | ⟨hlt, -⟩
      · have := a.image_getElem?_pad ⟨i - 65, by omega⟩
        rw [show 65 + ((⟨i - 65, by omega⟩ : Fin 7) : Nat) = i by simp only; omega] at this
        exact ⟨_, this⟩
      · exact ⟨_, a.image_getElem?_sha ⟨i, hlt⟩⟩
    have hne : b + 1 ≠ b := by
      intro h
      have := congrArg UInt8.toNat h
      rw [UInt8.toNat_add] at this
      have := b.toNat_lt
      have : (1 : UInt8).toNat = 1 := rfl
      omega
    obtain ⟨c, hsame, himage⟩ := ModelCoord.exists_same_set hign (b + 1)
    have hagree : ∀ j, j ∉ M → c.image[j]? = a.image[j]? := by
      intro j hj
      rw [himage, List.getElem?_set_ne]
      rintro rfl
      exact hj hi
    have heq := hdigest c hagree (modelCoordEq_eq_ok.mpr hsame)
    unfold modelCoordDigest at heq
    rw [himage] at heq
    exact foldl_fnvStep_set hb hne heq.symm
  · intro hM b hagree heq
    unfold modelCoordDigest
    rw [(modelCoordEq_eq_ok.mp heq).image_eq fun i hign => hagree i fun hi => hM i hi hign]

/-- The checkpoint string of the model of `tests/test_coordinates.c`. -/
def baseSha : List UInt8 :=
  "4221b252fdd5fd25e15847adfeb5ee88886506ba50b8a34548374492884c2162".toList.map fun ch => ch.toNat.toUInt8

/-- That model; `pad` is what lies in the padding. -/
def baseModel (pad : Fin 7 → UInt8) : ModelCoord where
  ggufSha256 i := baseSha[(i : Nat)]?.getD 0
  pad := pad
  tokenizerHash := 0xB17E7
  nEmbd := 2560
  nLayer := 30
  nHead := 20
  nHeadKv := 5
  nVocab := 128256
  nCtxTrain := 4096
  ropeTheta := 0x48F42400
  rmsNormEps := 0x3727C5AC
  ggmlFtype := 40
  actParallel := 1

/-- Two coordinates that differ in one byte of padding describe one model and have different digests. -/
theorem padded_digest_differs :
    modelCoordEq (baseModel fun _ => 0) (baseModel fun i => if i = 0 then 1 else 0) = .ok () ∧
      modelCoordDigest (baseModel fun _ => 0) ≠ modelCoordDigest (baseModel fun i => if i = 0 then 1 else 0) := by
  constructor
  · exact modelCoordEq_eq_ok.mpr ⟨fun _ _ => rfl, rfl, rfl, rfl, rfl, rfl, rfl, rfl, rfl, rfl, rfl, rfl⟩
  · have himage : (baseModel fun i => if i = 0 then 1 else 0).image = (baseModel fun _ => 0).image.set 65 1 := by decide
    have hbyte : (baseModel fun _ => 0).image[65]? = some 0 := by decide
    unfold modelCoordDigest
    rw [himage]
    exact (foldl_fnvStep_set hbyte (by decide)).symm

end BitnetXdna
