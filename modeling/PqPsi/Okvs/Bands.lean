import PqPsi.Okvs.BandSystem

/-!
# The bands of the keys

`RBRows`, `RBRowsFlat` and `RBDecode` compute the band of a key with the same
lines. The band of a key does not depend on the other keys, and the workers
between them visit every key once.
-/
namespace PqPsi.Okvs
open Lib.Buffers Lib.Exceptions Lib.LinearSystem Lib.Ranges

section Ranges
variable {ε σ : Type}

theorem forRanges_rbRanges (env : Env) (n : ℕ) (multiThread : Bool) (workerThreads : ℕ)
    (body : σ → ℕ → Except ε σ) (s : σ) :
    forRanges (rbRanges env n multiThread workerThreads) body s =
      (List.range n).foldlM body s := by
  rw [forRanges_eq]
  congr 1
  have hone : ([(0, n)] : List (ℕ × ℕ)).flatMap indices = List.range n := by
    simp [indices, List.range_eq_range']
  unfold rbRanges
  dsimp only
  split_ifs with hn _ hthr
  · simp [hn]
  · exact hone
  · exact hone
  · exact flatMap_chunkRanges (le_count_mul_chunk (by omega))

end Ranges

section Keys
variable {F : Type} (env : Env) (params : RBParams F) (columns bandWidth : ℕ)

/-- The start and the mask of a key. -/
def keyBand (key : Block) : ℕ × RBBits :=
  match rbBand env params columns bandWidth key with
  | .ok band => band
  | .error _ => (0, 0)

/-- The band of a key as a vector. -/
def keyVec (key : Block) : Fin columns → ZMod 2 :=
  bandVec columns (keyBand env params columns bandWidth key).1
    (keyBand env params columns bandWidth key).2

/-- The row of a key, with its value as right-hand side. -/
def keyRow {ρ : Type} (key : Block) (rhs : ρ) : BandRow ρ :=
  ⟨(keyBand env params columns bandWidth key).1, (keyBand env params columns bandWidth key).2, rhs⟩

variable {columns bandWidth}

theorem rbBand_eq_ok (hbw : bandWidth ≤ 256) (key : Block) :
    rbBand env params columns bandWidth key = .ok (keyBand env params columns bandWidth key) := by
  obtain ⟨bits, hbits, -⟩ := rbTrimBits_eq_ok (rbMask256 env params key) hbw
  simp [keyBand, rbBand, rbMaskBits, hbits]

theorem keyBand_spec (h1 : 1 ≤ bandWidth) (hbw : bandWidth ≤ 256) (hc : bandWidth ≤ columns)
    (key : Block) :
    Trimmed bandWidth (keyBand env params columns bandWidth key).2 ∧
      (keyBand env params columns bandWidth key).1 + bandWidth ≤ columns := by
  obtain ⟨bits, hbits, hbit⟩ := rbTrimBits_eq_ok (rbMask256 env params key) hbw
  have htrim : Trimmed bandWidth bits := by
    intro j hj
    rw [hbit, decide_eq_false (by omega), Bool.false_and]
  have hmod := Nat.mod_lt (rbHash64 env params key).toNat (Nat.succ_pos (columns - bandWidth))
  simp only [keyBand, rbBand, rbMaskBits, hbits, ok_bind, pure_eq_ok]
  refine ⟨(rbEnsureBits_spec h1 htrim).1, ?_⟩
  rw [if_neg (by omega)]
  simp only [Nat.succ_eq_add_one] at hmod
  omega

theorem range_map_getD {α β γ : Type} (f : α → β → γ) (as : List α) (bs : List β) (a : α) (b : β)
    (h : as.length = bs.length) :
    (List.range as.length).map (fun i => f (as.getD i a) (bs.getD i b)) = List.zipWith f as bs := by
  apply List.ext_getElem (by simp [h])
  intro i hi hi'
  have ha : i < as.length := by simpa using hi
  have hb : i < bs.length := h ▸ ha
  rw [List.getElem_map, List.getElem_range, List.getD_eq_getElem _ _ ha,
    List.getD_eq_getElem _ _ hb, List.getElem_zipWith]

theorem rbRows_eq_ok {rowSize : ℕ} {setKeys : List Block} {setValues : List (List Block)}
    (hbw : bandWidth ≤ 256) (hc : bandWidth ≤ columns) (hne : setKeys ≠ [])
    (hlen : setKeys.length = setValues.length) (hw : ∀ v ∈ setValues, v.length = rowSize)
    (hpos : 0 < rowSize) :
    rbRows env params columns bandWidth setKeys setValues =
      .ok (sortRows (List.zipWith (keyRow env params columns bandWidth) setKeys setValues)) := by
  have hwidth : ∀ i < setKeys.length, (setValues.getD i []).length = rowSize := by
    intro i hi
    rw [List.getD_eq_getElem _ _ (hlen ▸ hi)]
    exact hw _ (List.getElem_mem _)
  have h0 := hwidth 0 (List.length_pos_iff.mpr hne)
  unfold rbRows
  dsimp only
  rw [h0, forRanges_rbRanges, foldlM_eq_ok
    (g := fun rows i => rows.set i
      (keyRow env params columns bandWidth (setKeys.getD i 0) (setValues.getD i []))),
    foldl_set_replicate, range_map_getD _ _ _ _ _ hlen]
  · simp [hlen, hne, hpos.ne', not_lt.mpr hc]
  · intro rows i hi
    rw [hwidth i (List.mem_range.mp hi), rbBand_eq_ok env params hbw]
    simp [keyRow]

/-- Missing, ragged and empty value rows are refused. -/
theorem rbRows_eq_error (columns bandWidth : ℕ) {setKeys : List Block} {setValues : List (List Block)}
    (hne : setKeys ≠ [])
    (hbad : ¬ (setKeys.length = setValues.length ∧
      ∃ rowSize > 0, ∀ v ∈ setValues, v.length = rowSize)) :
    ∃ e, rbRows env params columns bandWidth setKeys setValues = .error e := by
  unfold rbRows
  dsimp only
  by_cases hlen : setKeys.length = setValues.length
  swap
  · refine ⟨"RBRows key/value mismatch", ?_⟩
    simp only [hlen, ne_eq, not_false_eq_true, throwIf_true, error_bind]
  by_cases h0 : (setValues.getD 0 []).length = 0
  · exact ⟨_, by rw [h0]; simp [hlen, hne]; rfl⟩
  by_cases hc : columns < bandWidth
  · refine ⟨"RBRows columns < bandWidth", ?_⟩
    rw [if_neg (by simpa using hne)]
    simp only [hlen, not_true_eq_false, h0, hc, ne_eq, throwIf_false, throwIf_true, ok_bind,
      error_bind]
  · obtain ⟨v, hv, hvw⟩ : ∃ v ∈ setValues, v.length ≠ (setValues.getD 0 []).length := by
      by_contra hall
      push Not at hall
      exact hbad ⟨hlen, _, Nat.pos_of_ne_zero h0, hall⟩
    obtain ⟨i, hi, rfl⟩ := List.mem_iff_getElem.mp hv
    rw [if_neg (by simpa using hne), forRanges_rbRanges]
    simp only [hlen, not_true_eq_false, h0, hc, ne_eq, throwIf_false, ok_bind]
    apply exists_error_bind
    apply foldlM_eq_error (x := i) (List.mem_range.mpr hi)
    intro rows
    refine ⟨"RBRows row width mismatch", ?_⟩
    rw [List.getD_eq_getElem _ _ hi]
    simp only [hvw, not_false_eq_true, throwIf_true, error_bind]

theorem rbRowsFlat_eq_ok {rowSize : ℕ} {setKeys setValues : List Block}
    (hbw : bandWidth ≤ 256) (hc : bandWidth ≤ columns) (hne : setKeys ≠ [])
    (hlen : setValues.length = setKeys.length * rowSize) (hpos : 0 < rowSize) :
    rbRowsFlat env params columns bandWidth setKeys setValues rowSize =
      .ok (sortRows (setKeys.mapIdx fun i key =>
        keyRow env params columns bandWidth key (i * rowSize)), setValues) := by
  have hcopy : (List.range setKeys.length).foldl
      (fun rhs i => splice rhs (i * rowSize) (slice setValues (i * rowSize) rowSize))
      (List.replicate setValues.length (0 : Block)) = setValues := by
    have hzero : List.replicate setValues.length (0 : Block) =
        (List.replicate setKeys.length (List.replicate rowSize (0 : Block))).flatten := by
      rw [List.flatten_replicate_replicate, hlen]
    have hwidth : ∀ r ∈ List.replicate setKeys.length (List.replicate rowSize (0 : Block)),
        r.length = rowSize := by
      intro r hr
      rw [List.eq_of_mem_replicate hr, List.length_replicate]
    have hloop := foldl_splice (h := fun i _ => slice setValues (i * rowSize) rowSize) hwidth
      (fun i hi r _ => length_slice (by
        rw [List.length_replicate] at hi
        rw [hlen, ← Nat.succ_mul]
        exact Nat.mul_le_mul_right _ hi))
    rw [List.length_replicate] at hloop
    rw [hzero, hloop]
    refine Eq.trans ?_ (flatten_rowsOf hlen)
    congr 1
    apply List.ext_getElem (by simp [rowsOf])
    intro i hi hi'
    simp [rowsOf]
  have hpair := foldl_pair
    (fun (rows : List RBFlatRow) i =>
      rows.set i (keyRow env params columns bandWidth (setKeys.getD i 0) (i * rowSize)))
    (fun rhs i => splice rhs (i * rowSize) (slice setValues (i * rowSize) rowSize))
    (List.range setKeys.length) (List.replicate setKeys.length ⟨0, 0, 0⟩)
    (List.replicate setValues.length (0 : Block))
  rw [foldl_set_replicate, hcopy] at hpair
  unfold rbRowsFlat
  rw [forRanges_rbRanges, foldlM_eq_ok
    (g := fun (p : List RBFlatRow × List Block) i =>
      (p.1.set i (keyRow env params columns bandWidth (setKeys.getD i 0) (i * rowSize)),
        splice p.2 (i * rowSize) (slice setValues (i * rowSize) rowSize))), hpair]
  · have hrows : (List.range setKeys.length).map (fun i =>
        keyRow env params columns bandWidth (setKeys.getD i 0) (i * rowSize)) =
        setKeys.mapIdx fun i key => keyRow env params columns bandWidth key (i * rowSize) := by
      apply List.ext_getElem (by simp)
      intro i hi hi'
      have hk : i < setKeys.length := by simpa using hi
      rw [List.getElem_map, List.getElem_range, List.getD_eq_getElem _ _ hk, List.getElem_mapIdx]
    rw [hrows]
    simp [hlen, hne, hpos.ne', not_lt.mpr hc]
  · intro rows i _
    rw [rbBand_eq_ok env params hbw]
    rfl

end Keys

end PqPsi.Okvs
