import PqPsi.Okvs.Decoding

/-!
# Correctness of RB-OKVS

Decoding a successfully encoded table at the encoded keys gives the encoded
values, and the table does not depend on the order in which the pairs are
given.
-/
namespace PqPsi.Okvs
open Lib.Buffers Lib.Exceptions Lib.LinearSystem

variable {F : Type} [Double F]

/-- The shape the encoder resolves for `n` keys. -/
def EncoderUses (env : Env) (params : RBParams F) (n columns bandWidth : ℕ) : Prop :=
  ∃ info, rbInfoOf env n params = .ok info ∧ info.columns = columns ∧ info.bandWidth = bandWidth

/-- The shape the decoder resolves for `n` keys from a table with `columns` rows. -/
def DecoderUses (params : RBParams F) (n columns bandWidth : ℕ) : Prop :=
  (params.columns = 0 ∨ params.columns = columns) ∧ rbTableW n columns params = .ok bandWidth

theorem EncoderUses.bounds {env : Env} {params : RBParams F} {n columns bandWidth : ℕ}
    (h : EncoderUses env params n columns bandWidth) :
    1 ≤ bandWidth ∧ bandWidth ≤ 256 ∧ bandWidth ≤ columns := by
  obtain ⟨info, hinfo, rfl, rfl⟩ := h
  exact rbInfoOf_bounds hinfo

theorem encoderUses_iff {env : Env} {params : RBParams F} {n columns bandWidth : ℕ} :
    (rbInfoOf env n params).toOption.map (fun info => (info.columns, info.bandWidth)) =
      some (columns, bandWidth) ↔ EncoderUses env params n columns bandWidth := by
  cases h : rbInfoOf env n params <;> simp [EncoderUses, h, Except.toOption]

instance (env : Env) (params : RBParams F) (n columns bandWidth : ℕ) :
    Decidable (EncoderUses env params n columns bandWidth) :=
  decidable_of_iff _ encoderUses_iff

instance (params : RBParams F) (n columns bandWidth : ℕ) :
    Decidable (DecoderUses params n columns bandWidth) :=
  inferInstanceAs (Decidable (_ ∧ _))

omit [Double F] in
/-- Bands depend on the parameters through the two seeds only. -/
theorem keyBand_congr {env : Env} {params params' : RBParams F}
    (hstart : params'.startSeed = params.startSeed) (hmask : params'.maskSeed = params.maskSeed)
    (columns bandWidth : ℕ) (key : Block) :
    keyBand env params' columns bandWidth key = keyBand env params columns bandWidth key := by
  simp only [keyBand, rbBand, rbHash64, rbMask256, hstart, hmask]

omit [Double F] in
theorem decodeRow_congr {env : Env} {params params' : RBParams F}
    (hstart : params'.startSeed = params.startSeed) (hmask : params'.maskSeed = params.maskSeed)
    {columns bandWidth rowSize : ℕ} {okvsTable : List Block} {key : Block} :
    decodeRow env params' columns bandWidth rowSize okvsTable key =
      decodeRow env params columns bandWidth rowSize okvsTable key := by
  rw [decodeRow, decodeOnto, keyBand_congr hstart hmask, decodeRow, decodeOnto]

/-- What a successful flat encoding is: the flattened table of the value rows. -/
theorem rbEncodeFlat_spec {env : Env} {params : RBParams F} {columns bandWidth rowSize : ℕ}
    {setKeys setValues okvsTable T : List Block}
    (huse : EncoderUses env params setKeys.length columns bandWidth) (hne : setKeys ≠ [])
    (hpos : 0 < rowSize) (hlen : setValues.length = setKeys.length * rowSize)
    (henc : rbEncodeFlat env setKeys setValues rowSize okvsTable params = .ok (true, T)) :
    ∃ table, T = table.flatten ∧ Encodes env params columns bandWidth rowSize setKeys
      (rowsOf setValues rowSize setKeys.length) table := by
  obtain ⟨info, hinfo, rfl, rfl⟩ := huse
  have hrows : setKeys.length = (rowsOf setValues rowSize setKeys.length).length := by
    simp [rowsOf]
  rw [rbEncodeFlat_eq okvsTable hpos hlen] at henc
  rcases rbEncode_spec [] hne hinfo hrows (length_of_mem_rowsOf hlen) hpos with
    ⟨-, hrun⟩ | ⟨-, table, hrun, henc'⟩
  · rw [hrun] at henc
    simp [Except.map] at henc
  · rw [hrun] at henc
    simp only [Except.map, if_true, Except.ok.injEq, Prod.mk.injEq, true_and] at henc
    exact ⟨table, henc.symm, henc'⟩

/-- The flat encoder, when it returns: it fails exactly when the bands of the keys are
dependent, and then leaves the output buffer alone. -/
theorem rbEncodeFlat_cases {env : Env} {params : RBParams F} {info : RBInfo F} {rowSize : ℕ}
    {setKeys setValues okvsTable T : List Block} {flag : Bool}
    (hinfo : rbInfoOf env setKeys.length params = .ok info) (hne : setKeys ≠ [])
    (henc : rbEncodeFlat env setKeys setValues rowSize okvsTable params = .ok (flag, T)) :
    (flag = false ∧ ¬ Independent (setKeys.map (keyVec env params info.columns info.bandWidth)) ∧
      T = okvsTable) ∨
    (flag = true ∧ Independent (setKeys.map (keyVec env params info.columns info.bandWidth)) ∧
      T.length = info.columns * rowSize) := by
  have hcheck : 0 < rowSize ∧ setValues.length = setKeys.length * rowSize := by
    rw [rbEncodeFlat, if_neg (by simpa using hne)] at henc
    obtain ⟨u, hthrow, -⟩ := bind_eq_ok.mp henc
    rw [throwIf_eq_ok, not_or, not_not] at hthrow
    exact ⟨Nat.pos_of_ne_zero hthrow.1, hthrow.2⟩
  obtain ⟨hpos, hlen⟩ := hcheck
  have hrows : setKeys.length = (rowsOf setValues rowSize setKeys.length).length := by
    simp [rowsOf]
  rw [rbEncodeFlat_eq okvsTable hpos hlen] at henc
  rcases rbEncode_spec [] hne hinfo hrows (length_of_mem_rowsOf hlen) hpos with
    ⟨hdep, hrun⟩ | ⟨hind, table, hrun, henc'⟩
  · rw [hrun] at henc
    obtain ⟨rfl, rfl⟩ := Prod.mk.inj (Except.ok.inj henc)
    exact .inl ⟨rfl, hdep, rfl⟩
  · rw [hrun] at henc
    obtain ⟨rfl, rfl⟩ := Prod.mk.inj (Except.ok.inj henc)
    refine .inr ⟨rfl, hind, ?_⟩
    rw [if_pos rfl, length_flatten_rows henc'.shape.width, henc'.shape.length]

omit [Double F] in
/-- The decoder reads the value of the `i`-th key off the table. -/
theorem Encodes.decodeRow_getElem {env : Env} {params params' : RBParams F}
    {columns bandWidth rowSize : ℕ} {setKeys setValues : List Block} {table : List (List Block)}
    (hstart : params'.startSeed = params.startSeed) (hmask : params'.maskSeed = params.maskSeed)
    (h1 : 1 ≤ bandWidth) (hbw : bandWidth ≤ 256) (hc : bandWidth ≤ columns)
    (hlen : setValues.length = setKeys.length * rowSize)
    (h : Encodes env params columns bandWidth rowSize setKeys
      (rowsOf setValues rowSize setKeys.length) table) {i : ℕ} (hi : i < setKeys.length) :
    decodeRow env params' columns bandWidth rowSize table.flatten setKeys[i] =
      slice setValues (i * rowSize) rowSize := by
  have hmem : (setKeys[i], slice setValues (i * rowSize) rowSize) ∈
      setKeys.zip (rowsOf setValues rowSize setKeys.length) := by
    rw [List.mem_iff_getElem]
    exact ⟨i, by simpa [rowsOf] using hi, by simp [rowsOf]⟩
  rw [decodeRow_congr hstart hmask]
  exact h.decodeRow_eq env params h1 hbw hc (length_of_mem_rowsOf hlen) hmem

/-- Decoding a successfully encoded table at any keys: a key that was encoded gives its value. -/
theorem rbDecodeFlat_getElem {env : Env} {params params' : RBParams F}
    {columns bandWidth rowSize : ℕ} {setKeys setValues okvsTable T keys out : List Block}
    (hne : setKeys ≠ []) (hpos : 0 < rowSize) (hlen : setValues.length = setKeys.length * rowSize)
    (hstart : params'.startSeed = params.startSeed) (hmask : params'.maskSeed = params.maskSeed)
    (huse : EncoderUses env params setKeys.length columns bandWidth)
    (hdec : DecoderUses params' keys.length columns bandWidth)
    (henc : rbEncodeFlat env setKeys setValues rowSize okvsTable params = .ok (true, T))
    (hout : rbDecodeFlat env T rowSize keys params' = .ok out) :
    out.length = keys.length * rowSize ∧ ∀ (i j : ℕ) (hi : i < setKeys.length) (hj : j < keys.length),
      keys[j] = setKeys[i] →
        slice out (j * rowSize) rowSize = slice setValues (i * rowSize) rowSize := by
  obtain ⟨h1, hbw, hc⟩ := huse.bounds
  obtain ⟨table, rfl, henc'⟩ := rbEncodeFlat_spec huse hne hpos hlen henc
  rw [rbDecodeFlat_eq env params' (by omega) hbw hc hpos henc'.shape hdec.1 hdec.2] at hout
  obtain rfl := Except.ok.inj hout
  have hwidth : ∀ row ∈ keys.map
      (decodeRow env params' columns bandWidth rowSize table.flatten), row.length = rowSize := by
    intro row hrow
    obtain ⟨key, -, rfl⟩ := List.mem_map.mp hrow
    exact length_decodeRow env params' bandWidth henc'.shape key
  constructor
  · rw [length_flatten_rows hwidth, List.length_map]
  · intro i j hi hj hkey
    rw [slice_flatten hwidth (by simpa using hj), List.getElem_map, hkey,
      henc'.decodeRow_getElem hstart hmask h1 hbw hc hlen hi]

/-- Decoding at the encoded keys gives back the encoded values, whatever the seeds, the
shape both sides use and the way the decoder splits its work. -/
theorem rbDecodeFlat_rbEncodeFlat {env : Env} {params params' : RBParams F}
    {columns bandWidth rowSize : ℕ} {setKeys setValues okvsTable T : List Block}
    (hpos : 1 ≤ rowSize) (hlen : setValues.length = setKeys.length * rowSize)
    (hstart : params'.startSeed = params.startSeed) (hmask : params'.maskSeed = params.maskSeed)
    (huse : setKeys ≠ [] → EncoderUses env params setKeys.length columns bandWidth ∧
      DecoderUses params' setKeys.length columns bandWidth)
    (henc : rbEncodeFlat env setKeys setValues rowSize okvsTable params = .ok (true, T)) :
    rbDecodeFlat env T rowSize setKeys params' = .ok setValues := by
  by_cases hne : setKeys = []
  · subst hne
    obtain rfl : setValues = [] := List.eq_nil_of_length_eq_zero (by simpa using hlen)
    obtain rfl : [] = T := by simpa [rbEncodeFlat] using henc
    rfl
  obtain ⟨hencUse, hdecUse⟩ := huse hne
  obtain ⟨h1, hbw, hc⟩ := hencUse.bounds
  obtain ⟨table, rfl, henc'⟩ := rbEncodeFlat_spec hencUse hne hpos hlen henc
  rw [rbDecodeFlat_eq env params' (by omega) hbw hc hpos henc'.shape hdecUse.1 hdecUse.2,
    ← flatten_rowsOf hlen]
  congr 2
  apply List.ext_getElem (by simp [rowsOf])
  intro i hi hi'
  rw [List.length_map] at hi
  rw [List.getElem_map, henc'.decodeRow_getElem hstart hmask h1 hbw hc hlen hi]
  simp [rowsOf]

/-- AES-128 under the default seeds, on the blocks `1` and `4`. -/
def sampleAes (seed key : Block) : Block :=
  if seed = 0x000000009b3a7f21000000006c8e1d44#128 then
    if key = 1#128 then 0x58d510c6191bb8932fab2d841480e13e#128
    else if key = 4#128 then 0xa415ea60761db6ff5f00927f352e984d#128 else 0#128
  else if seed = 0x000000004f12c0de00000000a55a91b6#128 then
    if key = 1#128 then 0x4c494770d786105e81103883c7a712b7#128
    else if key = 4#128 then 0x52bef7e5d5f2f735fecb0b8fbc310a13#128 else 0#128
  else if seed = 0x000000004f12c0de00000000a55a91b5#128 then
    if key = 1#128 then 0x0e784e2dbed9b6d93e60a5ea311b4e13#128
    else if key = 4#128 then 0xf3a6339d9fec0917d5671101ddc132c1#128 else 0#128
  else 0#128

def sampleEnv : Env := ⟨sampleAes, 8⟩

/-- An explicit shape of two columns and width one, without the security gate. -/
def sampleParams : RBParams ℚ :=
  { rbParams ℚ with columns := 2, bandWidth := 1, check := false }

theorem decode_encode_sample :
    rbDecodeFlat sampleEnv [7#128, 9#128] 1 [1#128, 4#128] sampleParams = .ok [9#128, 7#128] := by
  have henc : rbEncodeFlat sampleEnv [1#128, 4#128] [9#128, 7#128] 1 [] sampleParams =
      .ok (true, [7#128, 9#128]) := by decide +kernel
  have huse : EncoderUses sampleEnv sampleParams 2 2 1 ∧ DecoderUses sampleParams 2 2 1 := by
    decide +kernel
  exact rbDecodeFlat_rbEncodeFlat (by decide) (by decide) rfl rfl (fun _ => huse) henc

/-- Both calls throw, or both return the same flag and the same table. -/
def SameOutcome {T : Type} (a b : Except Err (Bool × T)) : Prop :=
  (∃ e e', a = .error e ∧ b = .error e') ∨ ∃ r, a = .ok r ∧ b = .ok r

theorem SameOutcome.map {T U : Type} {a b : Except Err (Bool × T)} (h : SameOutcome a b)
    (f : Bool × T → Bool × U) : SameOutcome (a.map f) (b.map f) := by
  rcases h with ⟨e, e', rfl, rfl⟩ | ⟨r, rfl, rfl⟩
  · exact .inl ⟨e, e', rfl, rfl⟩
  · exact .inr ⟨f r, rfl, rfl⟩

omit [Double F] in
theorem Encodes.perm {env : Env} {params : RBParams F} {columns bandWidth rowSize : ℕ}
    {pairs pairs' : List (Block × List Block)} {table : List (List Block)}
    (hp : pairs.Perm pairs') (h : Encodes env params columns bandWidth rowSize
      (pairs.map Prod.fst) (pairs.map Prod.snd) table) :
    Encodes env params columns bandWidth rowSize (pairs'.map Prod.fst) (pairs'.map Prod.snd)
      table := by
  refine ⟨h.shape, fun kv hkv => h.reads kv ?_, ?_⟩
  · rw [← List.unzip_fst, ← List.unzip_snd, List.zip_unzip] at hkv ⊢
    exact hp.symm.subset hkv
  · have hspan := rowSpan_perm ((hp.map Prod.fst).map (keyVec env params columns bandWidth))
    rw [← hspan]
    exact h.support

theorem rbEncode_eq_error (env : Env) (params : RBParams F) {setKeys : List Block}
    {setValues : List (List Block)} (okvsTable : List (List Block)) (hne : setKeys ≠ [])
    (hbad : ¬ (setKeys.length = setValues.length ∧
      ∃ rowSize > 0, ∀ v ∈ setValues, v.length = rowSize)) :
    ∃ e, rbEncode env setKeys setValues okvsTable params = .error e := by
  unfold rbEncode
  rw [if_neg (by simpa using hne)]
  cases rbInfoOf env setKeys.length params with
  | error e => exact ⟨e, rfl⟩
  | ok info =>
    obtain ⟨e, he⟩ := rbRows_eq_error env params info.columns info.bandWidth hne hbad
    exact ⟨e, by rw [ok_bind, he]; rfl⟩

theorem sameOutcome_rbEncode {env : Env} {params : RBParams F}
    {pairs pairs' : List (Block × List Block)} (hp : pairs.Perm pairs')
    (okvsTable : List (List Block)) :
    SameOutcome (rbEncode env (pairs.map Prod.fst) (pairs.map Prod.snd) okvsTable params)
      (rbEncode env (pairs'.map Prod.fst) (pairs'.map Prod.snd) okvsTable params) := by
  by_cases hne : pairs = []
  · subst hne
    obtain rfl : pairs' = [] := hp.nil_eq.symm
    exact .inr ⟨(true, []), rfl, rfl⟩
  have hne' : pairs' ≠ [] := fun h => hne (by rw [h] at hp; exact hp.eq_nil)
  have hlen := hp.length_eq
  have hkeys : (pairs.map Prod.fst) ≠ [] := by simpa using hne
  have hkeys' : (pairs'.map Prod.fst) ≠ [] := by simpa using hne'
  by_cases hbad : ∃ rowSize > 0, ∀ v ∈ pairs.map Prod.snd, v.length = rowSize
  · obtain ⟨rowSize, hpos, hw⟩ := hbad
    have hw' : ∀ v ∈ pairs'.map Prod.snd, v.length = rowSize := fun v hv =>
      hw v ((hp.map Prod.snd).symm.subset hv)
    cases hinfo : rbInfoOf env pairs.length params with
    | error e =>
      have hinfo' := hinfo
      rw [hlen] at hinfo'
      exact .inl ⟨e, e, by simp [rbEncode, hne, hinfo], by simp [rbEncode, hne', hinfo']⟩
    | ok info =>
      have hinfo₁ : rbInfoOf env (pairs.map Prod.fst).length params = .ok info := by
        rw [List.length_map, hinfo]
      have hinfo₂ : rbInfoOf env (pairs'.map Prod.fst).length params = .ok info := by
        rw [List.length_map, ← hlen, hinfo]
      have hind := independent_perm
        ((hp.map Prod.fst).map (keyVec env params info.columns info.bandWidth))
      rcases rbEncode_spec okvsTable hkeys hinfo₁ (by simp) hw hpos with
        ⟨hdep, hrun⟩ | ⟨hfree, T, hrun, henc⟩
      · rcases rbEncode_spec okvsTable hkeys' hinfo₂ (by simp) hw' hpos with
          ⟨-, hrun'⟩ | ⟨hfree', -⟩
        · exact .inr ⟨_, hrun, hrun'⟩
        · exact absurd (hind.mpr hfree') hdep
      · rcases rbEncode_spec okvsTable hkeys' hinfo₂ (by simp) hw' hpos with
          ⟨hdep', -⟩ | ⟨-, T', hrun', henc'⟩
        · exact absurd (hind.mp hfree) hdep'
        · obtain rfl : T = T' := (henc.perm hp).unique (by simp) henc'
          exact .inr ⟨_, hrun, hrun'⟩
  · have hbad' : ¬ ∃ rowSize > 0, ∀ v ∈ pairs'.map Prod.snd, v.length = rowSize := by
      rintro ⟨w, hw0, hw⟩
      exact hbad ⟨w, hw0, fun v hv => hw v ((hp.map Prod.snd).subset hv)⟩
    obtain ⟨e, he⟩ := rbEncode_eq_error env params okvsTable hkeys fun h => hbad h.2
    obtain ⟨e', he'⟩ := rbEncode_eq_error env params okvsTable hkeys' fun h => hbad' h.2
    exact .inl ⟨e, e', he, he'⟩

/-- The order of the pairs does not matter, neither to the nested encoder on any list of
pairs nor to the flat encoder on rows of one width. -/
theorem rbEncode_perm {env : Env} {params : RBParams F}
    {pairs pairs' : List (Block × List Block)} (hp : pairs.Perm pairs') :
    (∀ okvsTable : List (List Block),
      SameOutcome (rbEncode env (pairs.map Prod.fst) (pairs.map Prod.snd) okvsTable params)
        (rbEncode env (pairs'.map Prod.fst) (pairs'.map Prod.snd) okvsTable params)) ∧
    ∀ (rowSize : ℕ) (okvsTable : List Block), 1 ≤ rowSize →
      (∀ kv ∈ pairs, kv.2.length = rowSize) →
      SameOutcome
        (rbEncodeFlat env (pairs.map Prod.fst) (pairs.map Prod.snd).flatten rowSize okvsTable params)
        (rbEncodeFlat env (pairs'.map Prod.fst) (pairs'.map Prod.snd).flatten rowSize okvsTable
          params) := by
  refine ⟨sameOutcome_rbEncode hp, fun rowSize okvsTable hpos hw => ?_⟩
  have hflat : ∀ l : List (Block × List Block), (∀ kv ∈ l, kv.2.length = rowSize) →
      rbEncodeFlat env (l.map Prod.fst) (l.map Prod.snd).flatten rowSize okvsTable params =
        (rbEncode env (l.map Prod.fst) (l.map Prod.snd) [] params).map fun r =>
          (r.1, if r.1 then r.2.flatten else okvsTable) := by
    intro l hl
    apply rbEncodeFlat_flatten okvsTable hpos (by simp)
    simpa using fun b a hab => hl (a, b) hab
  rw [hflat pairs hw, hflat pairs' fun kv hkv => hw kv (hp.symm.subset hkv)]
  exact (sameOutcome_rbEncode hp []).map _

theorem encode_swapped_sample : SameOutcome
    (rbEncode sampleEnv [1#128, 4#128] [[9#128], [7#128]] [] sampleParams)
    (rbEncode sampleEnv [4#128, 1#128] [[7#128], [9#128]] [] sampleParams) := by
  have hp : [(1#128, [9#128]), (4#128, [7#128])].Perm [(4#128, [7#128]), (1#128, [9#128])] :=
    .swap _ _ _
  exact (rbEncode_perm hp).1 []

end PqPsi.Okvs
