import PqPsi.Okvs.Correctness

/-!
# The overloads agree

The encoder and the decoder are written out several times, over nested rows,
over flat buffers and over single blocks. All of them compute what the nested
version computes, laid out their own way.
-/
namespace PqPsi.Okvs
open Lib.Buffers Lib.Exceptions Lib.LinearSystem Lib.Ranges

variable {columns bandWidth rowSize : ℕ}

/-- Both encoders throw, or both return one flag, and on success the flat table is the nested
one row after row. -/
def SameEncoding (nested : Except Err (Bool × List (List Block)))
    (flat : Except Err (Bool × List Block)) : Prop :=
  (∃ e e', nested = .error e ∧ flat = .error e') ∨
    ∃ flag table table', nested = .ok (flag, table) ∧ flat = .ok (flag, table') ∧
      (flag = true → table' = table.flatten)

section Encode
variable {F : Type} [Double F] (env : Env) (params : RBParams F)

/-- The nested encoder does not read the table it writes to. -/
theorem rbEncode_table (setKeys : List Block) (setValues okvsTable : List (List Block)) :
    rbEncode env setKeys setValues okvsTable params =
      (rbEncode env setKeys setValues [] params).map fun r =>
        (r.1, if r.1 then r.2 else okvsTable) := by
  unfold rbEncode
  split_ifs with hempty
  · rfl
  cases rbInfoOf env setKeys.length params with
  | error e => rfl
  | ok info =>
    rw [ok_bind, ok_bind]
    cases rbRows env params info.columns info.bandWidth setKeys setValues with
    | error e => rfl
    | ok rows =>
      rw [ok_bind, ok_bind]
      cases (eliminate info.bandWidth xorRhsNested rows.length rows).run () with
      | error e => rfl
      | ok r =>
        rw [ok_bind, ok_bind]
        obtain ⟨_ | reduced, _⟩ := r
        · rfl
        · dsimp only
          cases backFill info.bandWidth reduced (List.replicate info.columns
            (List.replicate (setValues.getD 0 []).length zeroBlock)) with
          | error e => rfl
          | ok table => rfl

theorem SameEncoding.of_eq_map {setKeys : List Block} {setValues : List (List Block)}
    {flat : Except Err (Bool × List Block)} {okvsTable : List Block}
    (h : flat = (rbEncode env setKeys setValues [] params).map fun r =>
      (r.1, if r.1 then r.2.flatten else okvsTable)) (table : List (List Block)) :
    SameEncoding (rbEncode env setKeys setValues table params) flat := by
  rw [h, rbEncode_table]
  cases rbEncode env setKeys setValues [] params with
  | error e => exact .inl ⟨e, e, rfl, rfl⟩
  | ok r =>
    refine .inr ⟨r.1, _, _, rfl, rfl, fun hflag => ?_⟩
    rw [hflag, if_pos rfl, if_pos rfl]

/-- The nested-to-flat encoder on well-shaped values. -/
theorem rbEncodeToFlat_eq {setKeys : List Block} {setValues : List (List Block)}
    (okvsTable : List Block) (hne : setKeys ≠ []) (hlen : setKeys.length = setValues.length)
    (hw : ∀ v ∈ setValues, v.length = rowSize) (hpos : 0 < rowSize) :
    rbEncodeToFlat env setKeys setValues okvsTable rowSize params =
      (rbEncode env setKeys setValues [] params).map fun r =>
        (r.1, if r.1 then r.2.flatten else okvsTable) := by
  have hvalues : 0 < setValues.length := hlen ▸ List.length_pos_iff.mpr hne
  have h0 : (setValues.getD 0 []).length = rowSize := by
    rw [List.getD_eq_getElem _ _ hvalues]
    exact hw _ (List.getElem_mem _)
  have hcheck : ¬ (setValues.isEmpty ∨ (setValues.getD 0 []).length ≠ rowSize) := by
    rw [h0, List.isEmpty_iff, ← List.length_eq_zero_iff]
    omega
  rw [rbEncodeToFlat, if_neg (by simpa using hne), throwIf, if_neg hcheck, ok_bind]
  cases hinfo : rbInfoOf env setKeys.length params with
  | error e => simp [rbEncode, hne, hinfo, Except.map]
  | ok info =>
    obtain ⟨h1, hbw, hc⟩ := rbInfoOf_bounds hinfo
    have : NeZero info.columns := ⟨by omega⟩
    obtain ⟨reduced, hrun, -, hsome⟩ := eliminate_keyRows env params h1 hbw hc setKeys hw
    rw [rbEncode_eq [] hne hinfo hlen hw hpos, ok_bind,
      rbRows_eq_ok env params hbw hc hne hlen hw hpos, ok_bind, hrun, ok_bind, ok_bind]
    cases reduced with
    | none => rfl
    | some l =>
      have hs := hsome l rfl
      obtain ⟨T, hT, -⟩ := backFill_spec hs.ok hs.echelon
      have hfill := backFillOwned_eq (shape_replicate info.columns rowSize) hs.ok hT
      rw [List.flatten_replicate_replicate] at hfill
      simp [hfill, hT, Except.map]

theorem rbEncodeToFlat_eq_error {setKeys : List Block} {setValues : List (List Block)}
    (rowSize : ℕ) (okvsTable : List Block) (hne : setKeys ≠ [])
    (hbad : ¬ (setKeys.length = setValues.length ∧
      ∃ rowSize > 0, ∀ v ∈ setValues, v.length = rowSize)) :
    ∃ e, rbEncodeToFlat env setKeys setValues okvsTable rowSize params = .error e := by
  unfold rbEncodeToFlat
  rw [if_neg (by simpa using hne)]
  by_cases hcheck : setValues.isEmpty ∨ (setValues.getD 0 []).length ≠ rowSize
  · exact ⟨_, by rw [throwIf, if_pos hcheck, error_bind]⟩
  rw [throwIf, if_neg hcheck, ok_bind]
  cases rbInfoOf env setKeys.length params with
  | error e => exact ⟨e, rfl⟩
  | ok info =>
    obtain ⟨e, he⟩ := rbRows_eq_error env params info.columns info.bandWidth hne hbad
    exact ⟨e, by rw [ok_bind, he]; rfl⟩

theorem sameEncoding_toFlat {setKeys : List Block} {setValues : List (List Block)}
    (table : List (List Block)) (okvsTable : List Block)
    (hw : ∀ v ∈ setValues.head?, v.length = rowSize) :
    SameEncoding (rbEncode env setKeys setValues table params)
      (rbEncodeToFlat env setKeys setValues okvsTable rowSize params) := by
  by_cases hne : setKeys = []
  · subst hne
    exact .inr ⟨true, [], [], rfl, rfl, fun _ => rfl⟩
  by_cases hbad : setKeys.length = setValues.length ∧
      ∃ rowSize > 0, ∀ v ∈ setValues, v.length = rowSize
  · obtain ⟨hlen, w, hpos, hall⟩ := hbad
    cases setValues with
    | nil => exact absurd (List.eq_nil_of_length_eq_zero hlen) hne
    | cons v setValues =>
      obtain rfl : w = rowSize := (hall v (by simp)).symm.trans (hw v rfl)
      exact .of_eq_map env params (rbEncodeToFlat_eq env params okvsTable hne hlen hall hpos) table
  · obtain ⟨e, he⟩ := rbEncode_eq_error env params table hne hbad
    obtain ⟨e', he'⟩ := rbEncodeToFlat_eq_error env params rowSize okvsTable hne hbad
    exact .inl ⟨e, e', he, he'⟩

theorem sameEncoding_flat {setKeys : List Block} {setValues : List (List Block)}
    (table : List (List Block)) (okvsTable : List Block) (hpos : 1 ≤ rowSize)
    (hw : ∀ v ∈ setValues, v.length = rowSize) :
    SameEncoding (rbEncode env setKeys setValues table params)
      (rbEncodeFlat env setKeys setValues.flatten rowSize okvsTable params) := by
  by_cases hne : setKeys = []
  · subst hne
    exact .inr ⟨true, [], [], rfl, rfl, fun _ => rfl⟩
  have hsize : setValues.flatten.length = setValues.length * rowSize := length_flatten_rows hw
  by_cases hlen : setValues.length = setKeys.length
  · exact .of_eq_map env params (rbEncodeFlat_flatten okvsTable hpos hlen.symm hw) table
  · obtain ⟨e, he⟩ := rbEncode_eq_error env params table hne fun h => hlen h.1.symm
    have hbad : rowSize = 0 ∨ setValues.flatten.length ≠ setKeys.length * rowSize := by
      rw [hsize]
      exact .inr fun h => hlen (Nat.eq_of_mul_eq_mul_right hpos h)
    refine .inl ⟨e, "RBEncode flat values mismatch", he, ?_⟩
    rw [rbEncodeFlat, if_neg (by simpa using hne), throwIf, if_pos hbad, error_bind]

theorem map_getD_zero {rows : List (List Block)} (h : ∀ r ∈ rows, r.length = 1) :
    rows.map (fun row => row.getD 0 0) = rows.flatten := by
  induction rows with
  | nil => rfl
  | cons r rows ih =>
    obtain ⟨x, rfl⟩ := List.length_eq_one_iff.mp (h r (by simp))
    rw [List.map_cons, ih fun r hr => h r (by simp [hr])]
    rfl

/-- A successful encoding of well-shaped values has the shape that the encoder resolved. -/
theorem shape_of_rbEncode {setKeys : List Block} {setValues table T : List (List Block)}
    (hne : setKeys ≠ []) (hlen : setKeys.length = setValues.length)
    (hw : ∀ v ∈ setValues, v.length = rowSize) (hpos : 0 < rowSize)
    (henc : rbEncode env setKeys setValues table params = .ok (true, T)) :
    ∃ info, rbInfoOf env setKeys.length params = .ok info ∧ Shape info.columns rowSize T := by
  cases hinfo : rbInfoOf env setKeys.length params with
  | error e => simp [rbEncode, hne, hinfo] at henc
  | ok info =>
    rcases rbEncode_spec table hne hinfo hlen hw hpos with ⟨-, hrun⟩ | ⟨-, T', hrun, henc'⟩
    · simp [hrun] at henc
    · obtain rfl : T' = T := (Prod.mk.inj (Except.ok.inj (hrun.symm.trans henc))).2
      exact ⟨info, rfl, henc'.shape⟩

theorem width_of_rbEncode {setKeys : List Block} {setValues table T : List (List Block)}
    (hlen : setKeys.length = setValues.length) (hw : ∀ v ∈ setValues, v.length = rowSize)
    (hpos : 0 < rowSize) (henc : rbEncode env setKeys setValues table params = .ok (true, T)) :
    ∀ r ∈ T, r.length = rowSize := by
  by_cases hne : setKeys = []
  · subst hne
    obtain rfl : [] = T := (Prod.mk.inj (Except.ok.inj henc)).2
    simp
  · obtain ⟨info, -, hshape⟩ := shape_of_rbEncode env params hne hlen hw hpos henc
    exact hshape.width

theorem sameEncoding_blocks {setKeys setValues : List Block} (table : List (List Block))
    (okvsTable : List Block) (hempty : setKeys = [] → setValues = []) :
    SameEncoding (rbEncode env setKeys (setValues.map fun v => [v]) table params)
      (rbEncodeBlocks env setKeys setValues okvsTable params) := by
  have hw : ∀ v ∈ setValues.map fun v => [v], v.length = 1 := by simp
  by_cases hlen : setKeys.length = setValues.length
  · have heq : rbEncodeBlocks env setKeys setValues okvsTable params =
        (rbEncode env setKeys (setValues.map fun v => [v]) [] params).map fun r =>
          (r.1, if r.1 then r.2.flatten else okvsTable) := by
      rw [rbEncodeBlocks]
      simp only [hlen, ne_eq, not_true_eq_false, throwIf_false, ok_bind, pure_eq_ok]
      cases henc : rbEncode env setKeys (setValues.map fun v => [v]) [] params with
      | error e => rfl
      | ok r =>
        obtain ⟨_ | _, T⟩ := r
        · rfl
        · have hT := width_of_rbEncode env params (by simpa using hlen) hw one_pos henc
          rw [ok_bind, Except.map, if_neg (by simp), if_pos rfl, map_getD_zero hT]
    exact .of_eq_map env params heq table
  · have hne : setKeys ≠ [] := fun h => hlen (by rw [h, hempty h])
    have hbad : ¬ (setKeys.length = (setValues.map fun v => [v]).length ∧
        ∃ rowSize > 0, ∀ v ∈ setValues.map fun v => [v], v.length = rowSize) :=
      fun h => hlen (by simpa using h.1)
    obtain ⟨e, he⟩ := rbEncode_eq_error env params table hne hbad
    refine .inl ⟨e, "RBEncode 1D mismatch", he, ?_⟩
    simp only [rbEncodeBlocks, hlen, ne_eq, not_false_eq_true, throwIf_true, error_bind]

end Encode

section Decode
variable {F : Type} [Double F] (env : Env) (params : RBParams F)

omit [Double F] in
/-- A loop whose turns fill the rows from their keys, whatever the slots hold. -/
theorem foldlM_decodeOnto {table : List (List Block)} {bandWidth : ℕ}
    (h : Shape columns rowSize table) (setKeys : List Block) {turn : List (List Block) → ℕ → Except Err (List (List Block))}
    (hturn : ∀ out, ∀ i < setKeys.length, Shape setKeys.length rowSize out →
      turn out i = .ok (out.set i (decodeOnto env params columns bandWidth rowSize table.flatten
        (setKeys.getD i 0) (out.getD i [])))) :
    (List.range setKeys.length).foldlM turn
        (List.replicate setKeys.length (List.replicate rowSize zeroBlock)) =
      .ok (setKeys.map (decodeRow env params columns bandWidth rowSize table.flatten)) := by
  have hloop := foldl_set_getD (fun i out =>
      decodeOnto env params columns bandWidth rowSize table.flatten (setKeys.getD i 0) out)
    (List.replicate setKeys.length (List.replicate rowSize zeroBlock)) []
  rw [List.length_replicate, mapIdx_decodeOnto] at hloop
  rw [foldlM_eq_ok_of_inv (g := fun out i => out.set i (decodeOnto env params columns bandWidth
      rowSize table.flatten (setKeys.getD i 0) (out.getD i [])))
    (p := Shape setKeys.length rowSize) ?_ (shape_replicate _ _), hloop]
  intro out i hi hout
  have hi' := List.mem_range.mp hi
  exact ⟨hturn out i hi' hout,
    hout.set _ (length_decodeOnto env params bandWidth h _ (hout.getD hi'))⟩

/-- The nested decoder checks the shape and then computes each row from its own key. -/
theorem rbDecode_bind {table : List (List Block)} (h : Shape columns rowSize table)
    (hcols : 0 < columns) (setKeys : List Block) :
    rbDecode env table setKeys params =
      rbDecodeWidth columns setKeys.length params >>= fun bandWidth =>
        .ok (setKeys.map (decodeRow env params columns bandWidth rowSize table.flatten)) := by
  have hne : table.isEmpty = false := by
    rw [List.isEmpty_eq_false_iff, ← List.length_pos_iff, h.length]
    exact hcols
  unfold rbDecode
  dsimp only
  rw [hne, if_neg (by simp), h.length, h.getD hcols]
  cases hwidth : rbDecodeWidth columns setKeys.length params with
  | error e => rfl
  | ok bandWidth =>
    obtain ⟨-, -, hbw, -⟩ := (rbDecodeWidth_eq_ok params).mp hwidth
    rw [ok_bind, ok_bind, forRanges_rbRanges]
    apply foldlM_decodeOnto env params h
    intro out i _ _
    have hrow : ∀ c < columns, (table.getD c []).take rowSize =
        slice table.flatten (c * rowSize) rowSize := by
      intro c hc
      rw [slice_table h hc, List.take_of_length_le (h.getD hc).le]
    rw [rbBand_eq_ok env params hbw, ok_bind]
    simp only [decodeBand_congr _ _ hrow]
    rfl

/-- So does the decoder from a flat table to nested values. -/
theorem rbDecodeToNested_bind {table : List (List Block)} (h : Shape columns rowSize table)
    (hcols : 0 < columns) (hpos : 0 < rowSize) (setKeys : List Block) :
    rbDecodeToNested env table.flatten rowSize setKeys params =
      rbDecodeWidth columns setKeys.length params >>= fun bandWidth =>
        .ok (setKeys.map (decodeRow env params columns bandWidth rowSize table.flatten)) := by
  obtain ⟨hne, hmod, hdiv⟩ := flatten_table_sizes h hcols hpos
  unfold rbDecodeToNested
  simp only [hne, hmod, hdiv, hpos.ne', ne_eq, not_true_eq_false, or_self, throwIf_false, ok_bind,
    Bool.false_eq_true, if_false]
  cases hwidth : rbDecodeWidth columns setKeys.length params with
  | error e => rfl
  | ok bandWidth =>
    obtain ⟨-, -, hbw, -⟩ := (rbDecodeWidth_eq_ok params).mp hwidth
    rw [ok_bind, ok_bind, forRanges_rbRanges]
    apply foldlM_decodeOnto env params h
    intro out i hi hout
    -- every slot keeps the width that the pointer loop checks
    have hslot := hout.getD hi
    rw [rbBand_eq_ok env params hbw, ok_bind]
    simp only [decodeBandPtr_eq_ok _ _ (fun _ hc => length_slice_table h hc) _ hslot, ok_bind]
    rfl

/-- The decoders give the same values on corresponding tables. -/
theorem rbDecode_agree {table : List (List Block)} (hw : ∀ r ∈ table, r.length = rowSize)
    (hpos : 1 ≤ rowSize) (setKeys : List Block) :
    rbDecodeToNested env table.flatten rowSize setKeys params =
        rbDecode env table setKeys params ∧
      rbDecodeFlat env table.flatten rowSize setKeys params =
        (rbDecode env table setKeys params).map List.flatten := by
  by_cases hne : table = []
  · subst hne
    exact ⟨rfl, rfl⟩
  have hcols : 0 < table.length := List.length_pos_iff.mpr hne
  have hshape : Shape table.length rowSize table := ⟨rfl, hw⟩
  rw [rbDecode_bind env params hshape hcols, rbDecodeToNested_bind env params hshape hcols hpos,
    rbDecodeFlat_bind env params hshape hcols hpos]
  refine ⟨rfl, ?_⟩
  cases rbDecodeWidth table.length setKeys.length params <;> rfl

/-- The one-block decoder reads tables of single blocks. -/
theorem rbDecodeBlocks_eq (okvsTable setKeys : List Block) :
    rbDecodeBlocks env okvsTable setKeys params =
      (rbDecode env (okvsTable.map fun x => [x]) setKeys params).map List.flatten := by
  by_cases hne : okvsTable = []
  · subst hne
    rfl
  have hcols : 0 < okvsTable.length := List.length_pos_iff.mpr hne
  have hshape : Shape okvsTable.length 1 (okvsTable.map fun x => [x]) :=
    ⟨List.length_map _, by simp⟩
  rw [rbDecodeBlocks, rbDecode_bind env params hshape hcols]
  cases rbDecodeWidth okvsTable.length setKeys.length params with
  | error e => rfl
  | ok bandWidth =>
    rw [ok_bind, ok_bind, pure_eq_ok, Except.map, map_getD_zero]
    intro r hr
    obtain ⟨key, -, rfl⟩ := List.mem_map.mp hr
    exact length_decodeRow env params bandWidth hshape key

end Decode

/-- All overloads agree: the encoders return one flag and one table, each in its own layout, or
all throw, except that only the one-block encoder refuses values without keys; the decoders
return the same values. -/
theorem overloads_agree {F : Type} [Double F] (env : Env) (params : RBParams F)
    (hpos : 1 ≤ rowSize) (setKeys : List Block) :
    (∀ (setValues table : List (List Block)) (okvsTable : List Block),
      (∀ v ∈ setValues.head?, v.length = rowSize) →
      SameEncoding (rbEncode env setKeys setValues table params)
        (rbEncodeToFlat env setKeys setValues okvsTable rowSize params)) ∧
    (∀ (setValues table : List (List Block)) (okvsTable : List Block),
      (∀ v ∈ setValues, v.length = rowSize) →
      SameEncoding (rbEncode env setKeys setValues table params)
        (rbEncodeFlat env setKeys setValues.flatten rowSize okvsTable params)) ∧
    (∀ (setValues : List Block) (table : List (List Block)) (okvsTable : List Block),
      (setKeys = [] → setValues = []) →
      SameEncoding (rbEncode env setKeys (setValues.map fun v => [v]) table params)
        (rbEncodeBlocks env setKeys setValues okvsTable params)) ∧
    (∀ table : List (List Block), (∀ r ∈ table, r.length = rowSize) →
      rbDecodeToNested env table.flatten rowSize setKeys params =
          rbDecode env table setKeys params ∧
        rbDecodeFlat env table.flatten rowSize setKeys params =
          (rbDecode env table setKeys params).map List.flatten) ∧
    ∀ okvsTable : List Block, rbDecodeBlocks env okvsTable setKeys params =
      (rbDecode env (okvsTable.map fun x => [x]) setKeys params).map List.flatten := by
  refine ⟨fun _ table okvsTable hw => sameEncoding_toFlat env params table okvsTable hw,
    fun _ table okvsTable hw => sameEncoding_flat env params table okvsTable hpos hw,
    fun _ table okvsTable h => sameEncoding_blocks env params table okvsTable h,
    fun _ hw => rbDecode_agree env params hw hpos setKeys,
    fun okvsTable => rbDecodeBlocks_eq env params okvsTable setKeys⟩

theorem overloads_agree_sample :
    SameEncoding (rbEncode sampleEnv [1#128, 4#128] [[9#128], [7#128]] [] sampleParams)
      (rbEncodeFlat sampleEnv [1#128, 4#128] [9#128, 7#128] 1 [] sampleParams) ∧
    rbDecodeFlat sampleEnv [7#128, 9#128] 1 [1#128, 4#128] sampleParams =
      (rbDecode sampleEnv [[7#128], [9#128]] [1#128, 4#128] sampleParams).map List.flatten := by
  obtain ⟨-, henc, -, hdec, -⟩ := overloads_agree sampleEnv sampleParams le_rfl [1#128, 4#128]
  exact ⟨henc [[9#128], [7#128]] [] [] (by decide), (hdec [[7#128], [9#128]] (by decide)).2⟩

/-- Values without keys: the nested encoder returns an empty table, the one-block encoder
throws. -/
theorem not_sameEncoding_blocks :
    ¬ SameEncoding (rbEncode sampleEnv [] ([9#128].map fun v => [v]) [] sampleParams)
      (rbEncodeBlocks sampleEnv [] [9#128] [] sampleParams) := by
  have hnested : rbEncode sampleEnv [] ([9#128].map fun v => [v]) [] sampleParams =
      .ok (true, []) := rfl
  have hblocks : rbEncodeBlocks sampleEnv [] [9#128] [] sampleParams =
      .error "RBEncode 1D mismatch" := rfl
  rw [hnested, hblocks]
  rintro (⟨e, e', he, -⟩ | ⟨flag, table, table', -, hflat, -⟩)
  · exact nomatch he
  · exact nomatch hflat

end PqPsi.Okvs
