import PqPsi.Okvs.Agreement

/-!
# The two resolutions of the table shape

The encoder resolves the shape through `RBInfoOf`, which raises an explicit
number of columns to the number of keys. The decoder reads the number of
columns off the table and compares it with the explicit number as given. The
two coincide unless the explicit number is below the number of keys.
-/
namespace PqPsi.Okvs
open Lib.Buffers Lib.Exceptions

variable {F : Type} [Double F]

/-- A double above one truncates to a positive integer. -/
def TruncatesAboveOne (F : Type) [Double F] : Prop :=
  ∀ x : F, Double.le x 1.0 = false → 0 < Double.toNat x

theorem truncatesAboveOne_rat : TruncatesAboveOne ℚ := by
  intro x hx
  have hone : ¬ x ≤ (1.0 : ℚ) := of_decide_eq_false hx
  norm_num at hone
  change 0 < ⌊x⌋.toNat
  have hfloor : 1 ≤ ⌊x⌋ := Int.le_floor.mpr (by exact_mod_cast hone.le)
  omega

theorem rbNeedW_pos (hcast : TruncatesAboveOne F) {n lambda w : ℕ} {eps : F}
    (h : rbNeedW n lambda eps = .ok w) : 0 < w := by
  simp only [rbNeedW, bind_eq_ok] at h
  obtain ⟨-, -, g, -, h⟩ := h
  split_ifs at h with hle
  · obtain rfl := Except.ok.inj h
    exact one_pos
  · obtain rfl := Except.ok.inj h
    exact hcast _ (by simpa using hle)

/-- `RBTableW` never returns zero, so that the encoder's last resort of width one is not taken. -/
theorem rbTableW_pos (hcast : TruncatesAboveOne F) {n columns w : ℕ} {params : RBParams F}
    (h : rbTableW n columns params = .ok w) : 0 < w := by
  unfold rbTableW at h
  split_ifs at h with hband hfit
  · obtain rfl := Except.ok.inj h
    exact Nat.pos_of_ne_zero hband
  · exact rbNeedW_pos hcast h
  · exact rbWidth_pos h

/-- The shape the encoder resolves. -/
theorem rbInfoOf_shape (hcast : TruncatesAboveOne F) {env : Env} {params : RBParams F} {n : ℕ}
    {info : RBInfo F} (hn : 1 ≤ n) (h : rbInfoOf env n params = .ok info) :
    info.columns = rbTableSize n params ∧
      rbTableW n info.columns params = .ok info.bandWidth := by
  have hmax : max n 1 = n := max_eq_left hn
  simp only [rbInfoOf, bind_eq_ok, pure_eq_ok, Except.ok.injEq, hmax] at h
  obtain ⟨w, hw, -, -, -, -, -, -, -, -, rfl⟩ := h
  refine ⟨rfl, ?_⟩
  dsimp only
  rw [if_neg (rbTableW_pos hcast hw).ne', hw]

/-- The clamp leaves an explicit number of columns alone unless it is below the number of keys. -/
theorem rbTableSize_agrees_iff {n : ℕ} (params : RBParams F) (hn : 1 ≤ n) :
    (params.columns = 0 ∨ params.columns = rbTableSize n params) ↔
      params.columns = 0 ∨ n ≤ params.columns := by
  have hmax : max n 1 = n := max_eq_left hn
  by_cases hcols : params.columns = 0
  · simp [hcols]
  · simp only [hcols, false_or, rbTableSize, hmax, ne_eq, not_false_eq_true, if_true]
    omega

/-- The encoder returns on well-shaped values only. -/
theorem values_of_rbEncode {env : Env} {params : RBParams F} {setKeys : List Block}
    {setValues table : List (List Block)} {r : Bool × List (List Block)} (hne : setKeys ≠ [])
    (henc : rbEncode env setKeys setValues table params = .ok r) :
    setKeys.length = setValues.length ∧ ∃ rowSize > 0, ∀ v ∈ setValues, v.length = rowSize := by
  by_contra hbad
  obtain ⟨e, he⟩ := rbEncode_eq_error env params table hne hbad
  exact nomatch he.symm.trans henc

/-- Decoding a table at these keys, from rows or from a flat buffer, throws nothing and resolves
the given shape. -/
def DecodesWith (env : Env) (params : RBParams F) (T : List (List Block)) (keys : List Block)
    (columns bandWidth : ℕ) : Prop :=
  (∃ out, rbDecode env T keys params = .ok out) ∧
    (∃ out, rbDecodeFlat env T.flatten (T.getD 0 []).length keys params = .ok out) ∧
    T.length = columns ∧ rbDecodeWidth T.length keys.length params = .ok bandWidth

/-- The decoder resolves the shape that the encoder used exactly when an explicit number of
columns is not below the number of keys. -/
theorem decodesWith_iff (hcast : TruncatesAboveOne F) {env : Env} {params : RBParams F}
    {setKeys : List Block} {setValues table T : List (List Block)} (hn : 1 ≤ setKeys.length)
    (henc : rbEncode env setKeys setValues table params = .ok (true, T)) :
    (∃ columns bandWidth, EncoderUses env params setKeys.length columns bandWidth ∧
      ∀ keys : List Block, keys.length = setKeys.length →
        DecodesWith env params T keys columns bandWidth) ↔
      params.columns = 0 ∨ setKeys.length ≤ params.columns := by
  have hne : setKeys ≠ [] := List.length_pos_iff.mp hn
  obtain ⟨hlen, rowSize, hpos, hw⟩ := values_of_rbEncode hne henc
  obtain ⟨info, hinfo, hshape⟩ := shape_of_rbEncode env params hne hlen hw hpos henc
  obtain ⟨h1, hbw, hc⟩ := rbInfoOf_bounds hinfo
  obtain ⟨hcols, hwidth⟩ := rbInfoOf_shape hcast hn hinfo
  rw [← rbTableSize_agrees_iff params hn, ← hcols]
  constructor
  · rintro ⟨columns, bandWidth, -, hall⟩
    obtain ⟨-, -, -, hdec⟩ := hall setKeys rfl
    rw [hshape.length] at hdec
    exact ((rbDecodeWidth_eq_ok params).mp hdec).1
  · intro hparams
    refine ⟨info.columns, info.bandWidth, ⟨info, hinfo, rfl, rfl⟩, fun keys hkeys => ?_⟩
    have hdec : rbDecodeWidth info.columns keys.length params = .ok info.bandWidth := by
      rw [hkeys]
      exact (rbDecodeWidth_eq_ok params).mpr ⟨hparams, hwidth, hbw, hc⟩
    have hrows := rbDecode_bind env params hshape (by omega) keys
    rw [hdec, ok_bind] at hrows
    refine ⟨⟨_, hrows⟩, ?_, hshape.length, by rw [hshape.length, hdec]⟩
    rw [hshape.getD (by omega), (rbDecode_agree env params hshape.width hpos keys).2, hrows]
    exact ⟨_, rfl⟩

theorem decodesWith_iff_sample :
    ∃ columns bandWidth, EncoderUses sampleEnv sampleParams 2 columns bandWidth ∧
      ∀ keys : List Block, keys.length = 2 →
        DecodesWith sampleEnv sampleParams [[7#128], [9#128]] keys columns bandWidth := by
  have henc : rbEncode sampleEnv [1#128, 4#128] [[9#128], [7#128]] [] sampleParams =
      .ok (true, [[7#128], [9#128]]) := by decide +kernel
  exact (decodesWith_iff truncatesAboveOne_rat (by decide) henc).mpr (.inr (by decide))

/-- One explicit column for two keys: the encoder takes two, and its table is refused. -/
theorem decode_refuses_clamped_columns :
    rbEncode sampleEnv [1#128, 4#128] [[9#128], [7#128]] [] { sampleParams with columns := 1 } =
        .ok (true, [[7#128], [9#128]]) ∧
      rbDecode sampleEnv [[7#128], [9#128]] [1#128, 4#128] { sampleParams with columns := 1 } =
        .error "RBDecode columns mismatch" := by
  decide +kernel

end PqPsi.Okvs
