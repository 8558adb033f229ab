import BitnetXdna.Coord.Digest

/-!
# Which KV caches are accepted

`bitnet_kv_compatible` is there so that no cache is continued under another model, context or layout. It compares the model
and the context, and that the cache holds the prefix; of the layout it only checks that it is set, so a cache with the layout
of another model is accepted (`kv_compatible_sound_iff`).
-/

namespace BitnetXdna

/-- The layout of a cache is that of a model: as many KV heads, and heads of the model's dimension. -/
def KvCoord.LayoutOf (kv : KvCoord) (m : ModelCoord) : Prop :=
  kv.nKvHeads = m.nHeadKv ∧ kv.kvHeadDim.toInt * m.nHead.toInt = m.nEmbd.toInt

instance (kv : KvCoord) (m : ModelCoord) : Decidable (kv.LayoutOf m) := inferInstanceAs (Decidable (_ ∧ _))

/-- A cache may be continued under a context: it is of that model and that context, it covers the prefix, and it has the
model's layout. -/
structure KvCoord.Continues (kv : KvCoord) (want : ContextCoord) : Prop where
  model : kv.ctx.model.Same want.model
  prefixTokens : kv.ctx.nPrefixTokens = want.nPrefixTokens
  prefixHash : kv.ctx.prefixHash = want.prefixHash
  covers : want.nPrefixTokens ≤ kv.nKvTokens
  layout : kv.LayoutOf want.model

/-- Accepting a cache means that it may be continued, exactly when its layout is that of the wanted model or one of the checks
that are made refuses it: another model or context, fewer tokens than the prefix, a layout that is not set. -/
theorem kv_compatible_sound_iff (kv : KvCoord) (want : ContextCoord) :
    (kvCompatible kv want = .ok () → kv.Continues want) ↔
      kv.LayoutOf want.model ∨ contextCoordEq kv.ctx want ≠ .ok () ∨ kv.nKvTokens < want.nPrefixTokens ∨
        kv.kvHeadDim ≤ 0 ∨ kv.nKvHeads ≤ 0 := by
  rw [kvCompatible_eq_ok]
  constructor
  · intro hsound
    by_contra hno
    simp only [not_or, not_not, Int32.not_lt, Int32.not_le] at hno
    obtain ⟨hlayout, hctx, htokens, hdim, hheads⟩ := hno
    exact hlayout (hsound ⟨hctx, htokens, hdim, hheads⟩).layout
  · rintro hor ⟨hctx, htokens, hdim, hheads⟩
    obtain ⟨hmodel, hprefix, hhash⟩ := contextCoordEq_eq_ok.mp hctx
    refine ⟨hmodel, hprefix, hhash, htokens, ?_⟩
    rcases hor with hlayout | hne | hlt | hle | hle
    · exact hlayout
    · exact absurd hctx hne
    · exact absurd hlt (Int32.not_lt.mpr htokens)
    · exact absurd hle (Int32.not_le.mpr hdim)
    · exact absurd hle (Int32.not_le.mpr hheads)

/-- A context of the model of `tests/test_coordinates.c`. -/
def baseContext : ContextCoord where
  model := baseModel fun _ => 0
  prefixHash := 0xDEADBEEF
  nPrefixTokens := 512

/-- A cache of one head of dimension one is accepted for a model of 5 KV heads of dimension 128. -/
theorem one_head_accepted :
    kvCompatible ⟨baseContext, 512, 1, 1, 1⟩ baseContext = .ok () ∧
      ¬KvCoord.Continues ⟨baseContext, 512, 1, 1, 1⟩ baseContext := by
  constructor
  · exact kvCompatible_eq_ok.mpr ⟨contextCoordEq_eq_ok.mpr ⟨⟨fun _ _ => rfl, rfl, rfl, rfl, rfl, rfl, rfl, rfl, rfl, rfl, rfl,
      rfl⟩, rfl, rfl⟩, by decide, by decide, by decide⟩
  · intro h
    exact absurd h.layout (by decide)

end BitnetXdna
