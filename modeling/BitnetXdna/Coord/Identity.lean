import BitnetXdna.Lib.LittleEndian
import Mathlib.Data.List.OfFn
import Mathlib.Data.Fin.Tuple.Basic
import Mathlib.Logic.Function.Basic

/-!
# Model, context and KV identity

`runtime/bitnet_coord.c`. A model coordinate is modelled with its padding, since its digest folds every byte of its image in
memory (`ModelCoord.image`); the comparisons look at fields only. A comparison that fails says why: the text of its error is
what `bitnet_coord_last_mismatch` gives afterwards. `modelCoordEq_eq_ok` and its two companions say when each comparison
succeeds.
-/

namespace BitnetXdna

open LittleEndian

/-- `bitnet_model_coord`. The floats are their bits, and `pad` is the padding in front of `tokenizer_hash`. -/
structure ModelCoord where
  ggufSha256 : Fin 65 → UInt8
  pad : Fin 7 → UInt8
  tokenizerHash : UInt64
  nEmbd : Int32
  nLayer : Int32
  nHead : Int32
  nHeadKv : Int32
  nVocab : Int32
  nCtxTrain : Int32
  ropeTheta : UInt32
  rmsNormEps : UInt32
  ggmlFtype : Int32
  actParallel : Int32

/-- `bitnet_context_coord`. -/
structure ContextCoord where
  model : ModelCoord
  prefixHash : UInt64
  nPrefixTokens : Int32

/-- `bitnet_kv_coord`. -/
structure KvCoord where
  ctx : ContextCoord
  nKvTokens : Int32
  kvHeadDim : Int32
  nKvHeads : Int32
  kvType : Int32

/-- The fields behind the padding, as they lie in memory. -/
def ModelCoord.fields (c : ModelCoord) : List UInt8 :=
  leBytes 8 c.tokenizerHash.toNat ++ leBytes 4 c.nEmbd.toUInt32.toNat ++ leBytes 4 c.nLayer.toUInt32.toNat ++
    leBytes 4 c.nHead.toUInt32.toNat ++ leBytes 4 c.nHeadKv.toUInt32.toNat ++ leBytes 4 c.nVocab.toUInt32.toNat ++
    leBytes 4 c.nCtxTrain.toUInt32.toNat ++ leBytes 4 c.ropeTheta.toNat ++ leBytes 4 c.rmsNormEps.toNat ++
    leBytes 4 c.ggmlFtype.toUInt32.toNat ++ leBytes 4 c.actParallel.toUInt32.toNat

/-- The 120 bytes of a model coordinate in memory. -/
def ModelCoord.image (c : ModelCoord) : List UInt8 := List.ofFn c.ggufSha256 ++ (List.ofFn c.pad ++ c.fields)

/-- `FAIL`: the comparison ends with this reason. -/
def failIf (c : Prop) [Decidable c] (msg : String) : Except String Unit := if c then .error msg else .ok ()

/-- `strncmp` over two arrays of one length, as a difference of their first bytes that differ. -/
def strncmp : List UInt8 → List UInt8 → Int
  | a :: as, b :: bs => if a ≠ b then (a.toNat : Int) - b.toNat else if a = 0 then 0 else strncmp as bs
  | _, _ => 0

/-- `bitnet_model_coord_eq`. -/
def modelCoordEq (a b : ModelCoord) : Except String Unit := do
  failIf (strncmp (List.ofFn a.ggufSha256) (List.ofFn b.ggufSha256) ≠ 0) "checkpoint sha256 differs"
  failIf (a.tokenizerHash ≠ b.tokenizerHash) "tokenizer differs"
  failIf (a.nEmbd ≠ b.nEmbd) "n_embd differs"
  failIf (a.nLayer ≠ b.nLayer) "n_layer differs"
  failIf (a.nHead ≠ b.nHead) "n_head differs"
  failIf (a.nHeadKv ≠ b.nHeadKv) "n_head_kv differs"
  failIf (a.nVocab ≠ b.nVocab) "n_vocab differs"
  failIf (a.nCtxTrain ≠ b.nCtxTrain) "training context length differs"
  failIf (a.ropeTheta ≠ b.ropeTheta) "rope_theta differs"
  failIf (a.rmsNormEps ≠ b.rmsNormEps) "rms_norm_eps differs"
  failIf (a.ggmlFtype ≠ b.ggmlFtype) "quantization ftype differs"
  failIf (a.actParallel ≠ b.actParallel) "ACT_PARALLEL differs -- the on-disk I2_S packing layout is not the same"

/-- `bitnet_context_coord_eq`. -/
def contextCoordEq (a b : ContextCoord) : Except String Unit := do
  modelCoordEq a.model b.model
  failIf (a.nPrefixTokens ≠ b.nPrefixTokens) "prompt prefix length differs"
  failIf (a.prefixHash ≠ b.prefixHash) "prompt token prefix differs"

/-- `bitnet_kv_compatible`. -/
def kvCompatible (kv : KvCoord) (want : ContextCoord) : Except String Unit := do
  contextCoordEq kv.ctx want
  failIf (kv.nKvTokens < want.nPrefixTokens) "KV holds fewer tokens than the requested prefix"
  failIf (kv.kvHeadDim ≤ 0 ∨ kv.nKvHeads ≤ 0) "KV geometry is unset"

/-- `bitnet_coord_last_mismatch`, after a comparison. -/
def lastMismatch : Except String Unit → String
  | .ok _ => ""
  | .error reason => reason

/-- One byte of the FNV-1a hash. -/
def fnvStep (h : UInt64) (b : UInt8) : UInt64 := (h ^^^ b.toUInt64) * 1099511628211

/-- `bitnet_model_coord_digest`. -/
def modelCoordDigest (c : ModelCoord) : UInt64 := c.image.foldl fnvStep 1469598103934665603

/-! ## When the comparisons succeed -/

@[simp] theorem failIf_eq_ok {c : Prop} [Decidable c] {msg : String} : failIf c msg = .ok () ↔ ¬c := by
  unfold failIf
  split <;> simp_all

/-- A check and what follows it succeed together. -/
@[simp] theorem check_bind_eq_ok {p q : Except String Unit} : (p >>= fun _ => q) = .ok () ↔ p = .ok () ∧ q = .ok () := by
  cases p <;> simp [bind, Except.bind]

/-- Two arrays of one length compare equal when they agree up to and at the first zero byte. -/
theorem strncmp_ofFn_eq_zero {n : Nat} (a b : Fin n → UInt8) :
    strncmp (List.ofFn a) (List.ofFn b) = 0 ↔ ∀ i, (∀ z < i, a z ≠ 0) → a i = b i := by
  induction n with
  | zero => simp [strncmp]
  | succ n ih =>
    rw [List.ofFn_succ, List.ofFn_succ, strncmp, Fin.forall_fin_succ]
    have htail : (∀ i : Fin n, (∀ z < i.succ, a z ≠ 0) → a i.succ = b i.succ) ↔
        (a 0 ≠ 0 → ∀ i : Fin n, (∀ z < i, a z.succ ≠ 0) → a i.succ = b i.succ) := by
      constructor
      · intro h h0 i hi
        refine h i ?_
        intro z hz
        cases z using Fin.cases with
        | zero => exact h0
        | succ z => exact hi z (Fin.succ_lt_succ_iff.mp hz)
      · intro h i hi
        exact h (hi 0 (Fin.succ_pos i)) i fun z hz => hi z.succ (Fin.succ_lt_succ_iff.mpr hz)
    rw [htail]
    by_cases hab : a 0 = b 0
    · rw [if_neg (by simpa using hab)]
      by_cases h0 : a 0 = 0
      · simp [h0, ← hab]
      · rw [if_neg h0, ih]
        constructor
        · intro h
          exact ⟨fun _ => hab, fun _ => h⟩
        · rintro ⟨-, h⟩
          exact h h0
    · rw [if_pos hab]
      have hne : (a 0).toNat ≠ (b 0).toNat := fun h => hab (UInt8.toNat_inj.mp h)
      constructor
      · intro h
        omega
      · rintro ⟨h, -⟩
        exact absurd (h fun z hz => absurd hz (Fin.not_lt_zero z)) hab

/-- Two coordinates describe one model: their checkpoint strings and all their fields are the same. -/
structure ModelCoord.Same (a b : ModelCoord) : Prop where
  ggufSha256 : ∀ i, (∀ z < i, a.ggufSha256 z ≠ 0) → a.ggufSha256 i = b.ggufSha256 i
  tokenizerHash : a.tokenizerHash = b.tokenizerHash
  nEmbd : a.nEmbd = b.nEmbd
  nLayer : a.nLayer = b.nLayer
  nHead : a.nHead = b.nHead
  nHeadKv : a.nHeadKv = b.nHeadKv
  nVocab : a.nVocab = b.nVocab
  nCtxTrain : a.nCtxTrain = b.nCtxTrain
  ropeTheta : a.ropeTheta = b.ropeTheta
  rmsNormEps : a.rmsNormEps = b.rmsNormEps
  ggmlFtype : a.ggmlFtype = b.ggmlFtype
  actParallel : a.actParallel = b.actParallel

theorem modelCoordEq_eq_ok {a b : ModelCoord} : modelCoordEq a b = .ok () ↔ a.Same b := by
  unfold modelCoordEq
  simp only [check_bind_eq_ok, failIf_eq_ok, not_not, strncmp_ofFn_eq_zero]
  constructor
  · rintro ⟨h1, h2, h3, h4, h5, h6, h7, h8, h9, h10, h11, h12⟩
    exact ⟨h1, h2, h3, h4, h5, h6, h7, h8, h9, h10, h11, h12⟩
  · rintro ⟨h1, h2, h3, h4, h5, h6, h7, h8, h9, h10, h11, h12⟩
    exact ⟨h1, h2, h3, h4, h5, h6, h7, h8, h9, h10, h11, h12⟩

theorem contextCoordEq_eq_ok {a b : ContextCoord} : contextCoordEq a b = .ok () ↔
    a.model.Same b.model ∧ a.nPrefixTokens = b.nPrefixTokens ∧ a.prefixHash = b.prefixHash := by
  unfold contextCoordEq
  simp only [check_bind_eq_ok, failIf_eq_ok, not_not, modelCoordEq_eq_ok]

theorem kvCompatible_eq_ok {kv : KvCoord} {want : ContextCoord} : kvCompatible kv want = .ok () ↔
    contextCoordEq kv.ctx want = .ok () ∧ want.nPrefixTokens ≤ kv.nKvTokens ∧ 0 < kv.kvHeadDim ∧ 0 < kv.nKvHeads := by
  unfold kvCompatible
  simp only [check_bind_eq_ok, failIf_eq_ok, not_or, Int32.not_lt, Int32.not_le]

end BitnetXdna
