import PqPsi.Okvs.Correctness

/-!
# Which tables a key list can produce

Columns that are no pivot are left at zero, so that the tables of a key list
are exactly the tables supported on the leading columns of its bands. Two key
lists can produce the same tables only if these columns agree.
-/
namespace PqPsi.Okvs
open Lib.Buffers Lib.Exceptions Lib.LinearSystem

variable {F : Type} [Double F] {env : Env} {params : RBParams F} {rowSize : ℕ}

/-- The tables `RBEncode` can return for these keys, over all values. -/
def tablesOf (env : Env) (params : RBParams F) (rowSize : ℕ) (setKeys : List Block) :
    Set (List Block) :=
  {T | ∃ setValues, setValues.length = setKeys.length * rowSize ∧
    rbEncodeFlat env setKeys setValues rowSize [] params = .ok (true, T)}

/-- The leading columns of the space spanned by the bands of the keys. -/
def pivotColumns (env : Env) (params : RBParams F) (setKeys : List Block) : Set ℕ :=
  {c | ∃ info, rbInfoOf env setKeys.length params = .ok info ∧ ∃ h : c < info.columns,
    (⟨c, h⟩ : Fin info.columns) ∈
      leads (rowSpan (setKeys.map (keyVec env params info.columns info.bandWidth)))}

/-- What has to hold for a successful encoding of a nonempty list. -/
theorem of_mem_tablesOf {setKeys T : List Block} (hne : setKeys ≠ [])
    (h : T ∈ tablesOf env params rowSize setKeys) :
    0 < rowSize ∧ ∃ info, rbInfoOf env setKeys.length params = .ok info ∧
      Independent (setKeys.map (keyVec env params info.columns info.bandWidth)) := by
  obtain ⟨setValues, hlen, henc⟩ := h
  have hrun := henc
  unfold rbEncodeFlat at hrun
  rw [if_neg (by simpa using hne)] at hrun
  simp only [bind_eq_ok, throwIf_eq_ok, not_or] at hrun
  obtain ⟨-, ⟨hrow, -⟩, info, hinfo, -⟩ := hrun
  have hpos : 0 < rowSize := Nat.pos_of_ne_zero hrow
  refine ⟨hpos, info, hinfo, ?_⟩
  rw [rbEncodeFlat_eq [] hpos hlen] at henc
  have hrows : setKeys.length = (rowsOf setValues rowSize setKeys.length).length := by
    simp [rowsOf]
  rcases rbEncode_spec [] hne hinfo hrows (length_of_mem_rowsOf hlen) hpos with
    ⟨-, hfail⟩ | ⟨hind, -⟩
  · rw [hfail] at henc
    simp [Except.map] at henc
  · exact hind

/-- The tables of independent keys are those that vanish outside the leading columns. -/
theorem mem_tablesOf_iff {setKeys T : List Block} {info : RBInfo F} (hne : setKeys ≠ [])
    (hinfo : rbInfoOf env setKeys.length params = .ok info) (hpos : 0 < rowSize)
    (hind : Independent (setKeys.map (keyVec env params info.columns info.bandWidth))) :
    T ∈ tablesOf env params rowSize setKeys ↔ ∃ table, T = table.flatten ∧
      Shape info.columns rowSize table ∧
      ∀ c : Fin info.columns, c.val ∉ pivotColumns env params setKeys →
        tableVec info.columns table c = 0 := by
  have hleads : ∀ c : Fin info.columns, c.val ∈ pivotColumns env params setKeys ↔
      c ∈ leads (rowSpan (setKeys.map (keyVec env params info.columns info.bandWidth))) := by
    intro c
    constructor
    · rintro ⟨info', hinfo', h, hc⟩
      obtain rfl : info = info' := Except.ok.inj (hinfo.symm.trans hinfo')
      exact hc
    · exact fun hc => ⟨info, hinfo, c.isLt, hc⟩
  constructor
  · rintro ⟨setValues, hlen, henc⟩
    obtain ⟨table, hT, henc'⟩ := rbEncodeFlat_spec ⟨info, hinfo, rfl, rfl⟩ hne hpos hlen henc
    exact ⟨table, hT, henc'.shape, fun c hc => henc'.support c fun hl => hc ((hleads c).mpr hl)⟩
  · rintro ⟨table, rfl, hshape, hzero⟩
    obtain ⟨h1, hbw, hc⟩ := rbInfoOf_bounds hinfo
    -- the values to encode are those the table decodes to
    set rows := setKeys.map (decodeRow env params info.columns info.bandWidth rowSize
      table.flatten) with hrows
    have hw : ∀ r ∈ rows, r.length = rowSize := by
      intro r hr
      obtain ⟨key, -, rfl⟩ := List.mem_map.mp hr
      exact length_decodeRow env params _ hshape key
    have hlenRows : setKeys.length = rows.length := by simp [hrows]
    have hlen : rows.flatten.length = setKeys.length * rowSize := by
      rw [length_flatten_rows hw, hlenRows]
    have htable : Encodes env params info.columns info.bandWidth rowSize setKeys rows table := by
      refine ⟨hshape, fun kv hkv => ?_, fun c hc => hzero c fun hl => hc ((hleads c).mp hl)⟩
      obtain ⟨i, hi, rfl⟩ := List.mem_iff_getElem.mp hkv
      simp only [hrows, List.getElem_zip, List.getElem_map]
      exact (valVec_decodeRow env params h1 hbw hc hshape _).symm
    refine ⟨rows.flatten, hlen, ?_⟩
    rw [rbEncodeFlat_flatten [] hpos hlenRows hw]
    rcases rbEncode_spec [] hne hinfo hlenRows hw hpos with ⟨hdep, -⟩ | ⟨-, T, hrun, henc⟩
    · exact absurd hind hdep
    · rw [hrun, henc.unique hlenRows htable]
      rfl

theorem Shape.flatten_inj {columns : ℕ} {t t' : List (List Block)} (h : Shape columns rowSize t)
    (h' : Shape columns rowSize t') (heq : t.flatten = t'.flatten) : t = t' := by
  rw [← rowsOf_flatten h.width, ← rowsOf_flatten h'.width, heq, h.length, h'.length]

/-- A table with a single nonzero row shows its column in every set of tables it is in. -/
theorem pivotColumns_subset {setKeys setKeys' : List Block} {info : RBInfo F}
    (hne : setKeys ≠ []) (hne' : setKeys' ≠ [])
    (hinfo : rbInfoOf env setKeys.length params = .ok info)
    (hinfo' : rbInfoOf env setKeys'.length params = .ok info) (hpos : 0 < rowSize)
    (hind : Independent (setKeys.map (keyVec env params info.columns info.bandWidth)))
    (hind' : Independent (setKeys'.map (keyVec env params info.columns info.bandWidth)))
    (hsub : tablesOf env params rowSize setKeys ⊆ tablesOf env params rowSize setKeys') :
    pivotColumns env params setKeys ⊆ pivotColumns env params setKeys' := by
  intro c hc
  have hcols : c < info.columns := by
    obtain ⟨info₀, hinfo₀, h, -⟩ := hc
    obtain rfl : info = info₀ := Except.ok.inj (hinfo.symm.trans hinfo₀)
    exact h
  have hzero := shape_replicate info.columns rowSize
  have hshape := hzero.set c (List.length_replicate : (List.replicate rowSize 1#128).length = _)
  have hvec := tableVec_set hzero hcols (List.replicate rowSize 1#128)
  set table := (List.replicate info.columns (List.replicate rowSize zeroBlock)).set c
    (List.replicate rowSize 1#128)
  have hmem : table.flatten ∈ tablesOf env params rowSize setKeys := by
    refine (mem_tablesOf_iff hne hinfo hpos hind).mpr ⟨table, rfl, hshape, fun c' hc' => ?_⟩
    have hcc : c' ≠ ⟨c, hcols⟩ := fun h => hc' (by rw [h]; exact hc)
    rw [hvec, Function.update_of_ne hcc, tableVec, List.getD_eq_getElem _ _ (by simp),
      List.getElem_replicate]
    exact valVec_replicate_zero rowSize
  obtain ⟨table', hflat, hshape', hzero'⟩ :=
    (mem_tablesOf_iff hne' hinfo' hpos hind').mp (hsub hmem)
  obtain rfl := hshape.flatten_inj hshape' hflat
  by_contra hnot
  have hrow := hzero' ⟨c, hcols⟩ hnot
  rw [hvec, Function.update_self] at hrow
  have hbit := congrFun (congrFun hrow 0) 0
  simp [valVec, hpos] at hbit

/-- Two key lists of one length, both encodable, produce the same tables if and only if
their bands have the same leading columns. -/
theorem tablesOf_eq_iff {setKeys setKeys' : List Block}
    (hlen : setKeys.length = setKeys'.length)
    (hK : (tablesOf env params rowSize setKeys).Nonempty)
    (hK' : (tablesOf env params rowSize setKeys').Nonempty) :
    tablesOf env params rowSize setKeys = tablesOf env params rowSize setKeys' ↔
      pivotColumns env params setKeys = pivotColumns env params setKeys' := by
  by_cases hne : setKeys = []
  · subst hne
    obtain rfl : setKeys' = [] := List.eq_nil_of_length_eq_zero hlen.symm
    simp
  have hne' : setKeys' ≠ [] := by
    rw [← List.length_pos_iff, ← hlen]
    exact List.length_pos_iff.mpr hne
  obtain ⟨T, hT⟩ := hK
  obtain ⟨T', hT'⟩ := hK'
  obtain ⟨hpos, info, hinfo, hind⟩ := of_mem_tablesOf hne hT
  obtain ⟨-, info', hinfo', hind'⟩ := of_mem_tablesOf hne' hT'
  obtain rfl : info = info' := Except.ok.inj (by rw [← hinfo, ← hinfo', hlen])
  constructor
  · intro heq
    exact Set.Subset.antisymm
      (pivotColumns_subset hne hne' hinfo hinfo' hpos hind hind' heq.subset)
      (pivotColumns_subset hne' hne hinfo' hinfo hpos hind' hind heq.symm.subset)
  · intro heq
    ext T
    rw [mem_tablesOf_iff hne hinfo hpos hind, mem_tablesOf_iff hne' hinfo' hpos hind', heq]

/-- Key `4` puts its value into column 0, whatever the value is. -/
theorem not_mem_tablesOf_sample :
    [0#128, 9#128] ∉ tablesOf sampleEnv sampleParams 1 [4#128] := by
  rintro ⟨setValues, hlen, henc⟩
  obtain ⟨v, rfl⟩ : ∃ v, setValues = [v] := List.length_eq_one_iff.mp hlen
  have huse : EncoderUses sampleEnv sampleParams [4#128].length 2 1 := by decide +kernel
  obtain ⟨table, hflat, henc'⟩ := rbEncodeFlat_spec huse (by simp) Nat.one_pos hlen henc
  have hmem : (4#128, [v]) ∈ [4#128].zip (rowsOf [v] 1 [4#128].length) := .head _
  have hdec := henc'.decodeRow_eq sampleEnv sampleParams le_rfl (by simp) (by simp)
    (length_of_mem_rowsOf hlen) hmem
  rw [← hflat] at hdec
  -- the table decodes to zero at the key, and zero encodes to another table
  have hzero : decodeRow sampleEnv sampleParams 2 1 1 [0#128, 9#128] 4#128 = [0#128] := by
    decide +kernel
  have h0 : rbEncodeFlat sampleEnv [4#128] [0#128] 1 [] sampleParams =
      .ok (true, [0#128, 0#128]) := by decide +kernel
  rw [hzero] at hdec
  rw [← hdec, h0] at henc
  simp at henc

theorem mem_tablesOf_sample : [0#128, 9#128] ∈ tablesOf sampleEnv sampleParams 1 [1#128] ∧
    [9#128, 0#128] ∈ tablesOf sampleEnv sampleParams 1 [4#128] :=
  ⟨⟨[9#128], rfl, by decide +kernel⟩, ⟨[9#128], rfl, by decide +kernel⟩⟩

theorem pivotColumns_sample_ne : pivotColumns sampleEnv sampleParams [1#128] ≠
    pivotColumns sampleEnv sampleParams [4#128] := by
  obtain ⟨h1, h4⟩ := mem_tablesOf_sample
  have hlen : [1#128].length = [4#128].length := rfl
  intro hcols
  have heq := (tablesOf_eq_iff hlen ⟨_, h1⟩ ⟨_, h4⟩).mpr hcols
  exact not_mem_tablesOf_sample (heq ▸ h1)

/-- One key, two columns: the single entry of the table sits where the key says. -/
theorem tablesOf_keys_differ : [1#128].length = [4#128].length ∧
    (tablesOf sampleEnv sampleParams 1 [1#128]).Nonempty ∧
    (tablesOf sampleEnv sampleParams 1 [4#128]).Nonempty ∧
    tablesOf sampleEnv sampleParams 1 [1#128] ≠ tablesOf sampleEnv sampleParams 1 [4#128] := by
  obtain ⟨h1, h4⟩ := mem_tablesOf_sample
  exact ⟨rfl, ⟨_, h1⟩, ⟨_, h4⟩, fun heq => not_mem_tablesOf_sample (heq ▸ h1)⟩

end PqPsi.Okvs
