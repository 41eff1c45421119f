import PqPsi.Okvs.Correctness

/-!
# When encoding fails

The encoder reduces each row only by earlier rows whose pivot lies in its
band. It finds an empty row exactly when the band rows of the keys are linearly
dependent over GF(2), so the values have no part in the answer.
-/
namespace PqPsi.Okvs
open Lib.Buffers Lib.Exceptions Lib.LinearSystem

section BandRow
variable {F : Type} (env : Env) (params : RBParams F) (columns bandWidth : ℕ)

/-- The band row of a key as a 0/1 vector: the mask cut to the band width and forced to be
nonzero, laid from the start column on. -/
def bandRow (key : Block) (c : Fin columns) : ZMod 2 :=
  let start := (rbHash64 env params key).toNat % (columns - bandWidth + 1)
  let mask := rbBit (rbMask256 env params key)
  if c.val < start ∨ start + bandWidth ≤ c.val then 0
  else if ∃ j < bandWidth, mask j then bitVal (mask (c - start))
  else if c.val = start then 1 else 0

variable {columns bandWidth}

theorem keyVec_eq_bandRow (h1 : 1 ≤ bandWidth) (hbw : bandWidth ≤ 256) (hc : bandWidth ≤ columns)
    (key : Block) :
    keyVec env params columns bandWidth key = bandRow env params columns bandWidth key := by
  obtain ⟨bits, hbits, hbit⟩ := rbTrimBits_eq_ok (rbMask256 env params key) hbw
  obtain ⟨htrim, -⟩ := keyBand_spec env params h1 hbw hc key
  have hrange : columns - bandWidth + 1 ≠ 0 := by omega
  have hband : keyBand env params columns bandWidth key =
      ((rbHash64 env params key).toNat % (columns - bandWidth + 1), rbEnsureBits bits) := by
    simp only [keyBand, rbBand, rbMaskBits, hbits, ok_bind, pure_eq_ok, if_neg hrange]
  funext c
  rw [hband] at htrim
  simp only [keyVec, hband, bandRow]
  generalize (rbHash64 env params key).toNat % (columns - bandWidth + 1) = start
  by_cases hout : c.val < start ∨ start + bandWidth ≤ c.val
  · rw [if_pos hout]
    rcases hout with hlt | hge
    · exact bandVec_of_lt hlt
    · rw [bandVec, if_pos (by omega), htrim _ (by omega), bitVal_false]
  · rw [if_neg hout, bandVec, if_pos (by omega)]
    by_cases hany : ∃ j < bandWidth, rbBit (rbMask256 env params key) j = true
    · obtain ⟨j, hj, hset⟩ := hany
      have hbit' : rbBit bits j = true := by rw [hbit, decide_eq_true hj, hset, Bool.true_and]
      rw [if_pos ⟨j, hj, hset⟩, rbEnsureBits_of_bit hbit', hbit, decide_eq_true (by omega),
        Bool.true_and]
    · have hempty : ∀ j, rbBit bits j = false := by
        intro j
        rw [hbit]
        by_cases hj : j < bandWidth
        · simpa [hj] using fun h => hany ⟨j, hj, h⟩
        · simp [hj]
      rw [if_neg hany, rbEnsureBits_of_empty hempty]
      have hsub : c.val - start = 0 ↔ c.val = start := by omega
      simp only [hsub, bitVal, decide_eq_true_eq]

end BandRow

section Encode
variable {F : Type} [Double F] {env : Env} {params : RBParams F} {columns bandWidth rowSize : ℕ}

omit [Double F] in
theorem independent_bandRows (h1 : 1 ≤ bandWidth) (hbw : bandWidth ≤ 256)
    (hc : bandWidth ≤ columns) (setKeys : List Block) :
    Independent (setKeys.map (keyVec env params columns bandWidth)) ↔
      LinearIndependent (ZMod 2)
        fun i : Fin setKeys.length => bandRow env params columns bandWidth (setKeys.get i) := by
  have hrows : keyVec env params columns bandWidth = bandRow env params columns bandWidth :=
    funext (keyVec_eq_bandRow env params h1 hbw hc)
  rw [independent_map, hrows]

omit [Double F] in
/-- A repeated key is a repeated band. -/
theorem not_independent_of_repeated_key {setKeys : List Block} (h : ¬ setKeys.Nodup) :
    ¬ Independent (setKeys.map (keyVec env params columns bandWidth)) := by
  apply not_independent_of_duplicate
  exact fun hnd => h (List.Nodup.of_map _ hnd)

/-- `RBEncode` returns, and returns false exactly when the band rows of the keys are linearly
dependent over GF(2), whatever the values are; so it does for a list with a repeated key. The
flat overload gives the same answers. -/
theorem rbEncode_eq_false_iff {setKeys : List Block} {setValues : List (List Block)}
    (huse : EncoderUses env params setKeys.length columns bandWidth) (hne : setKeys ≠ [])
    (hlen : setValues.length = setKeys.length) (hpos : 1 ≤ rowSize)
    (hw : ∀ v ∈ setValues, v.length = rowSize) :
    ∃ flag,
      (∀ okvsTable, ∃ T, rbEncode env setKeys setValues okvsTable params = .ok (flag, T)) ∧
      (∀ okvsTable, ∃ T,
        rbEncodeFlat env setKeys setValues.flatten rowSize okvsTable params = .ok (flag, T)) ∧
      (flag = false ↔ ¬ LinearIndependent (ZMod 2) fun i : Fin setKeys.length =>
        bandRow env params columns bandWidth (setKeys.get i)) ∧
      (¬ setKeys.Nodup → flag = false) := by
  obtain ⟨h1, hbw, hc⟩ := huse.bounds
  obtain ⟨info, hinfo, rfl, rfl⟩ := huse
  rw [← independent_bandRows h1 hbw hc]
  by_cases hind : Independent (setKeys.map (keyVec env params info.columns info.bandWidth))
  · refine ⟨true, fun okvsTable => ?_, fun okvsTable => ?_, by simp [hind], fun hrep =>
      absurd hind (not_independent_of_repeated_key hrep)⟩
    · rcases rbEncode_spec okvsTable hne hinfo hlen.symm hw hpos with ⟨hdep, -⟩ | ⟨-, T, hT, -⟩
      · exact absurd hind hdep
      · exact ⟨T, hT⟩
    · rcases rbEncode_spec [] hne hinfo hlen.symm hw hpos with ⟨hdep, -⟩ | ⟨-, T, hT, -⟩
      · exact absurd hind hdep
      · exact ⟨T.flatten, by rw [rbEncodeFlat_flatten _ hpos hlen.symm hw, hT]; rfl⟩
  · refine ⟨false, fun okvsTable => ?_, fun okvsTable => ?_, by simp [hind], fun _ => rfl⟩
    · rcases rbEncode_spec okvsTable hne hinfo hlen.symm hw hpos with ⟨-, hF⟩ | ⟨hfree, -⟩
      · exact ⟨okvsTable, hF⟩
      · exact absurd hfree hind
    · rcases rbEncode_spec [] hne hinfo hlen.symm hw hpos with ⟨-, hF⟩ | ⟨hfree, -⟩
      · exact ⟨okvsTable, by rw [rbEncodeFlat_flatten _ hpos hlen.symm hw, hF]; rfl⟩
      · exact absurd hfree hind

theorem rbEncode_eq_false_iff_sample : ∃ flag,
    (∀ okvsTable, ∃ T,
      rbEncode sampleEnv [1#128, 4#128] [[9#128], [7#128]] okvsTable sampleParams =
        .ok (flag, T)) ∧
    (flag = false ↔ ¬ LinearIndependent (ZMod 2) fun i : Fin 2 =>
      bandRow sampleEnv sampleParams 2 1 ([1#128, 4#128].get i)) := by
  have huse : EncoderUses sampleEnv sampleParams [1#128, 4#128].length 2 1 := by decide +kernel
  have hlen : [[9#128], [7#128]].length = [1#128, 4#128].length := rfl
  have hw : ∀ v ∈ [[9#128], [7#128]], v.length = 1 := by decide
  obtain ⟨flag, henc, -, hiff, -⟩ := rbEncode_eq_false_iff huse (by decide) hlen le_rfl hw
  exact ⟨flag, henc, hiff⟩

end Encode

end PqPsi.Okvs
