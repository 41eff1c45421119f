import PqPsi.Okvs.Bands
import PqPsi.Okvs.Elimination

/-!
# The nested encoder

The back fill computes the back substitution of the reduced system, so that a
successful encoding is the one table that meets the equations of all keys and
is zero outside the leading columns of their bands. The table, the flag and
the absence of exceptions then depend on the keys through their bands only.
-/
namespace PqPsi.Okvs
open Lib.Exceptions Lib.LinearSystem Lib.Ranges

variable {columns bandWidth rowSize : ℕ}

/-- A table with `columns` rows of the given width. -/
structure Shape (columns rowSize : ℕ) (table : List (List Block)) : Prop where
  length : table.length = columns
  width : ∀ r ∈ table, r.length = rowSize

theorem Shape.getD {table : List (List Block)} (h : Shape columns rowSize table) {c : ℕ}
    (hc : c < columns) : (table.getD c []).length = rowSize := by
  have hc' : c < table.length := h.length ▸ hc
  rw [List.getD_eq_getElem _ _ hc']
  exact h.width _ (List.getElem_mem hc')

theorem Shape.set {table : List (List Block)} (h : Shape columns rowSize table) (p : ℕ)
    {row : List Block} (hr : row.length = rowSize) : Shape columns rowSize (table.set p row) := by
  refine ⟨by rw [List.length_set, h.length], fun r hmem => ?_⟩
  rcases List.mem_or_eq_of_mem_set hmem with hmem | rfl
  · exact h.width r hmem
  · exact hr

theorem shape_replicate (columns rowSize : ℕ) :
    Shape columns rowSize (List.replicate columns (List.replicate rowSize zeroBlock)) := by
  refine ⟨by simp, fun r hr => ?_⟩
  rw [List.eq_of_mem_replicate hr, List.length_replicate]

theorem tableVec_inj {t t' : List (List Block)} (h : Shape columns rowSize t)
    (h' : Shape columns rowSize t') (heq : tableVec columns t = tableVec columns t') : t = t' := by
  apply List.ext_getElem (h.length.trans h'.length.symm)
  intro c hc hc'
  have hv := congrFun heq ⟨c, h.length ▸ hc⟩
  simp only [tableVec, List.getD_eq_getElem _ _ hc, List.getD_eq_getElem _ _ hc'] at hv
  exact valVec_inj ((h.width _ (List.getElem_mem hc)).trans
    (h'.width _ (List.getElem_mem hc')).symm) hv

theorem tableVec_set {table : List (List Block)} (h : Shape columns rowSize table) {p : ℕ}
    (hp : p < columns) (row : List Block) :
    tableVec columns (table.set p row) =
      Function.update (tableVec columns table) ⟨p, hp⟩ (valVec row) := by
  funext c
  have hc : c.val < table.length := h.length ▸ c.isLt
  have hset : (table.set p row).getD c.val [] = if p = c.val then row else table.getD c.val [] := by
    rw [List.getD_eq_getElem _ _ (by simpa using hc), List.getElem_set, List.getD_eq_getElem _ _ hc]
  by_cases hcp : c = ⟨p, hp⟩
  · subst hcp
    rw [Function.update_self, tableVec, hset, if_pos rfl]
  · have hne : p ≠ c.val := fun he => hcp (Fin.ext he.symm)
    rw [Function.update_of_ne hcp, tableVec, hset, if_neg hne, tableVec]

theorem sumBand_succ (n start : ℕ) (bits : RBBits) (p : ℕ)
    (xorCol : List Block → ℕ → Except Err (List Block)) (sum : List Block) :
    sumBand (n + 1) start bits p xorCol sum = sumBand n start bits p xorCol sum >>= fun s =>
      if !rbBit bits n ∨ start + n = p then .ok s else xorCol s (start + n) := by
  simp only [sumBand, List.range_succ, List.foldlM_append, List.foldlM_cons, List.foldlM_nil,
    pure_eq_ok, bind_ok]
  congr 1
  funext s
  split_ifs <;> simp_all

/-- The accumulated sum is the right-hand side plus every settled column of the band. -/
theorem sumBand_spec {table : List (List Block)} (h : Shape columns rowSize table) {start : ℕ}
    (bits : RBBits) (p : ℕ) {sum : List Block} (hsum : sum.length = rowSize) (n : ℕ)
    (hfit : start + n ≤ columns) :
    ∃ s, sumBand n start bits p (fun sum col => rbXor sum (table.getD col [])) sum = .ok s ∧
      s.length = rowSize ∧
      valVec s = valVec sum + ∑ j ∈ Finset.range n, if start + j = p then 0
        else bitVal (rbBit bits j) • valVec (table.getD (start + j) []) := by
  induction n with
  | zero => exact ⟨sum, rfl, hsum, by simp⟩
  | succ n ih =>
    obtain ⟨s, hrun, hlen, hval⟩ := ih (by omega)
    have hcol := h.getD (c := start + n) (by omega)
    rw [sumBand_succ, hrun, ok_bind, Finset.sum_range_succ, ← add_assoc, ← hval]
    by_cases hskip : (!rbBit bits n) = true ∨ start + n = p
    · refine ⟨s, if_pos hskip, hlen, ?_⟩
      rcases hskip with hb | hp
      · rw [Bool.not_eq_true'] at hb
        simp [hb]
      · simp [hp]
    · rw [if_neg hskip, rbXor, hlen, hcol]
      simp only [not_or, Bool.not_eq_true, Bool.not_eq_false'] at hskip
      refine ⟨xorRow s (table.getD (start + n) []), by simp, ?_, ?_⟩
      · rw [length_xorRow, hlen, hcol, min_self]
      · rw [valVec_xorRow (hlen.trans hcol.symm), if_neg hskip.2, hskip.1, bitVal_true, one_smul]

theorem backFill_cons (e : RBRow × ℕ) (reduced : List (RBRow × ℕ)) (table : List (List Block)) :
    backFill bandWidth (e :: reduced) table = backFill bandWidth reduced table >>= fun table =>
      sumBand bandWidth e.1.start e.1.bits e.2 (fun sum col => rbXor sum (table.getD col [])) e.1.rhs
        >>= fun sum => .ok (table.set e.2 sum) := by
  rw [backFill, List.foldrM_cons]
  rfl

/-- One step of the back fill solves one equation for its pivot. -/
theorem backFill_step [NeZero columns] {table : List (List Block)}
    (h : Shape columns rowSize table) {e : RBRow × ℕ}
    (hok : RowOk columns bandWidth rowSize e.1) (hp : e.2 < columns)
    (hlead : rowVec columns e.1 ⟨e.2, hp⟩ ≠ 0) :
    ∃ s, sumBand bandWidth e.1.start e.1.bits e.2
        (fun sum col => rbXor sum (table.getD col [])) e.1.rhs = .ok s ∧
      Shape columns rowSize (table.set e.2 s) ∧
      tableVec columns (table.set e.2 s) = fill (rowEquation columns e) (tableVec columns table) := by
  obtain ⟨s, hrun, hlen, hval⟩ := sumBand_spec h e.1.bits e.2 hok.width bandWidth hok.fits
  refine ⟨s, hrun, h.set _ hlen, ?_⟩
  have hpiv : (rowEquation columns e).pivot = ⟨e.2, hp⟩ := Fin.ext (Nat.mod_eq_of_lt hp)
  have hone : (rowVec columns e.1 ⟨e.2, hp⟩)⁻¹ = 1 := by
    have hcases : ∀ a : ZMod 2, a ≠ 0 → a = 1 := by decide
    rw [hcases _ hlead, inv_one]
  rw [tableVec_set h hp, fill, hpiv]
  congr 1
  change valVec s = (rowVec columns e.1 ⟨e.2, hp⟩)⁻¹ • (valVec e.1.rhs -
    ∑ c ∈ Finset.univ.erase ⟨e.2, hp⟩, rowVec columns e.1 c • tableVec columns table c)
  -- over GF(2) the difference is the sum that the loop accumulates
  have hneg : ∀ x y : Value, x - y = x + y := by
    intro x y
    funext k i
    exact CharTwo.sub_eq_add _ _
  rw [hone, one_smul, hneg, hval]
  congr 1
  have hsum := sum_columns_eq_sum_band hok.fits
    (fun c => if c = e.2 then 0 else
      (if e.1.start ≤ c then bitVal (rbBit e.1.bits (c - e.1.start)) else 0) •
        valVec (table.getD c []))
    (fun c hc => by simp [not_le.mpr hc])
    (fun c hc => by rw [if_pos (by omega : e.1.start ≤ c), hok.trimmed _ (by omega)]; simp)
  rw [← Finset.sum_erase Finset.univ (a := ⟨e.2, hp⟩) (by simp)] at hsum
  refine Eq.trans ?_ (hsum.symm.trans ?_)
  · refine Finset.sum_congr rfl fun j _ => ?_
    rw [if_pos (by omega : e.1.start ≤ e.1.start + j), Nat.add_sub_cancel_left]
  · refine Finset.sum_congr rfl fun c hc => ?_
    have hne : c.val ≠ e.2 := fun he => Finset.ne_of_mem_erase hc (Fin.ext he)
    rw [if_neg hne]
    rfl

/-- The back fill of an echelon system is its back substitution. -/
theorem backFill_spec [NeZero columns] {reduced : List (RBRow × ℕ)}
    (hok : ∀ e ∈ reduced, RowOk columns bandWidth rowSize e.1 ∧ e.2 < columns)
    (hech : Echelon (reduced.map (rowEquation columns))) :
    ∃ T, backFill bandWidth reduced
        (List.replicate columns (List.replicate rowSize zeroBlock)) = .ok T ∧
      Shape columns rowSize T ∧
      tableVec columns T = backSubst (reduced.map (rowEquation columns)) := by
  induction reduced with
  | nil =>
    refine ⟨_, rfl, shape_replicate columns rowSize, ?_⟩
    funext c
    change valVec ((List.replicate columns (List.replicate rowSize (0 : Block))).getD c.val []) = 0
    rw [List.getD_eq_getElem _ _ (by simp), List.getElem_replicate, valVec_replicate_zero]
  | cons e reduced ih =>
    rw [List.map_cons] at hech
    cases hech with
    | cons lead clear rest =>
      obtain ⟨T, hrun, hshape, hT⟩ := ih (fun e he => hok e (by simp [he])) rest
      obtain ⟨hrow, hp⟩ := hok e (by simp)
      have hpiv : (rowEquation columns e).pivot = ⟨e.2, hp⟩ := Fin.ext (Nat.mod_eq_of_lt hp)
      have hlead := lead.1
      rw [hpiv] at hlead
      obtain ⟨s, hs, hshape', hfill⟩ := backFill_step hshape hrow hp hlead
      refine ⟨T.set e.2 s, ?_, hshape', ?_⟩
      · rw [backFill_cons, hrun, ok_bind, hs, ok_bind]
      · rw [hfill, hT]
        rfl

section Encode
variable {F : Type} {env : Env} {params : RBParams F}

/-- The table meets the equation of every key and is zero outside the leading columns. -/
structure Encodes (env : Env) (params : RBParams F) (columns bandWidth rowSize : ℕ)
    (setKeys : List Block) (setValues table : List (List Block)) : Prop where
  shape : Shape columns rowSize table
  reads : ∀ kv ∈ setKeys.zip setValues,
    read (tableVec columns table) (keyVec env params columns bandWidth kv.1) = valVec kv.2
  support : ∀ c ∉ leads (rowSpan (setKeys.map (keyVec env params columns bandWidth))),
    tableVec columns table c = 0

theorem Encodes.unique {setKeys : List Block} {setValues t t' : List (List Block)}
    (hlen : setKeys.length = setValues.length)
    (h : Encodes env params columns bandWidth rowSize setKeys setValues t)
    (h' : Encodes env params columns bandWidth rowSize setKeys setValues t') : t = t' := by
  apply tableVec_inj h.shape h'.shape
  apply eq_of_read_eq h.support h'.support
  intro w hw
  refine read_eq_of_mem_rowSpan (fun v hv => ?_) hw
  obtain ⟨k, hk, rfl⟩ := List.mem_map.mp hv
  obtain ⟨i, hi, rfl⟩ := List.mem_iff_getElem.mp hk
  have hmem : (setKeys[i], setValues[i]) ∈ setKeys.zip setValues := by
    rw [List.mem_iff_getElem]
    exact ⟨i, by simpa [← hlen] using hi, by simp⟩
  rw [h.reads _ hmem, h'.reads _ hmem]

/-- The rows of the keys, sorted, have the bands and the equations of the keys. -/
theorem mem_sortRows_keyRow {setKeys : List Block} {setValues : List (List Block)} {r : RBRow} :
    r ∈ sortRows (List.zipWith (keyRow env params columns bandWidth) setKeys setValues) ↔
      ∃ kv ∈ setKeys.zip setValues, keyRow env params columns bandWidth kv.1 kv.2 = r := by
  rw [sortRows, List.mem_insertionSort, ← List.map_uncurry_zip_eq_zipWith, List.mem_map]
  rfl

theorem map_rowVec_keyRow (env : Env) (params : RBParams F) (columns bandWidth : ℕ) {setKeys : List Block} {setValues : List (List Block)}
    (hlen : setKeys.length = setValues.length) :
    ((sortRows (List.zipWith (keyRow env params columns bandWidth) setKeys setValues)).map
      (rowVec columns)).Perm (setKeys.map (keyVec env params columns bandWidth)) := by
  have hmap : (List.zipWith (keyRow env params columns bandWidth) setKeys setValues).map
      (rowVec columns) = setKeys.map (keyVec env params columns bandWidth) := by
    rw [List.map_zipWith]
    apply List.ext_getElem (by simp [hlen])
    intro i hi hi'
    rw [List.getElem_zipWith, List.getElem_map]
    rfl
  rw [← hmap]
  exact (List.perm_insertionSort _ _).map _

/-- Elimination of the sorted rows of the keys. -/
theorem eliminate_keyRows (env : Env) (params : RBParams F) [NeZero columns]
    (h1 : 1 ≤ bandWidth) (hbw : bandWidth ≤ 256) (hc : bandWidth ≤ columns)
    (setKeys : List Block) {setValues : List (List Block)}
    (hw : ∀ v ∈ setValues, v.length = rowSize) :
    ∃ reduced, (eliminate bandWidth xorRhsNested
        (sortRows (List.zipWith (keyRow env params columns bandWidth) setKeys setValues)).length
        (sortRows (List.zipWith (keyRow env params columns bandWidth) setKeys setValues))).run () =
          .ok (reduced, ()) ∧
      (reduced = none → ¬ Independent ((sortRows
        (List.zipWith (keyRow env params columns bandWidth) setKeys setValues)).map
          (rowVec columns))) ∧
      ∀ l, reduced = some l → Solved columns bandWidth rowSize
        (sortRows (List.zipWith (keyRow env params columns bandWidth) setKeys setValues)) l := by
  refine eliminate_spec hbw _ _ rfl (fun r hr => ?_) (List.pairwise_insertionSort _ _)
  obtain ⟨kv, hkv, rfl⟩ := mem_sortRows_keyRow.mp hr
  obtain ⟨htrim, hfit⟩ := keyBand_spec env params h1 hbw hc kv.1
  exact ⟨htrim, hfit, hw _ (List.of_mem_zip hkv).2⟩

variable [Double F]

/-- The encoder on well-shaped values, after its checks. -/
theorem rbEncode_eq {info : RBInfo F} {setKeys : List Block} {setValues : List (List Block)}
    (okvsTable : List (List Block)) (hne : setKeys ≠ [])
    (hinfo : rbInfoOf env setKeys.length params = .ok info)
    (hlen : setKeys.length = setValues.length) (hw : ∀ v ∈ setValues, v.length = rowSize)
    (hpos : 0 < rowSize) :
    rbEncode env setKeys setValues okvsTable params =
      (eliminate info.bandWidth xorRhsNested
        (sortRows (List.zipWith (keyRow env params info.columns info.bandWidth)
          setKeys setValues)).length
        (sortRows (List.zipWith (keyRow env params info.columns info.bandWidth)
          setKeys setValues))).run () >>= fun r => match r.1 with
        | none => .ok (false, okvsTable)
        | some reduced => backFill info.bandWidth reduced
            (List.replicate info.columns (List.replicate rowSize zeroBlock)) >>= fun table =>
              .ok (true, table) := by
  obtain ⟨-, hbw, hc⟩ := rbInfoOf_bounds hinfo
  have hrows := rbRows_eq_ok env params hbw hc hne hlen hw hpos
  have h0 : (setValues.getD 0 []).length = rowSize := by
    rw [List.getD_eq_getElem _ _ (hlen ▸ List.length_pos_iff.mpr hne)]
    exact hw _ (List.getElem_mem _)
  unfold rbEncode
  rw [if_neg (by simpa using hne), hinfo, ok_bind, hrows, ok_bind, h0]
  rfl

/-- The encoder on well-shaped values: it fails exactly when the bands of the keys are
dependent, and otherwise returns the table of the values. -/
theorem rbEncode_spec {info : RBInfo F} {setKeys : List Block} {setValues : List (List Block)}
    (okvsTable : List (List Block)) (hne : setKeys ≠ [])
    (hinfo : rbInfoOf env setKeys.length params = .ok info)
    (hlen : setKeys.length = setValues.length) (hw : ∀ v ∈ setValues, v.length = rowSize)
    (hpos : 0 < rowSize) :
    (¬ Independent (setKeys.map (keyVec env params info.columns info.bandWidth)) ∧
      rbEncode env setKeys setValues okvsTable params = .ok (false, okvsTable)) ∨
    (Independent (setKeys.map (keyVec env params info.columns info.bandWidth)) ∧
      ∃ T, rbEncode env setKeys setValues okvsTable params = .ok (true, T) ∧
        Encodes env params info.columns info.bandWidth rowSize setKeys setValues T) := by
  obtain ⟨h1, hbw, hc⟩ := rbInfoOf_bounds hinfo
  have : NeZero info.columns := ⟨by omega⟩
  obtain ⟨reduced, hrun, hnone, hsome⟩ := eliminate_keyRows env params h1 hbw hc setKeys hw
  have hperm := map_rowVec_keyRow env params info.columns info.bandWidth hlen
  rw [← independent_perm hperm, rbEncode_eq okvsTable hne hinfo hlen hw hpos, hrun, ok_bind]
  cases reduced with
  | none => exact .inl ⟨hnone rfl, rfl⟩
  | some l =>
    have hs := hsome l rfl
    obtain ⟨T, hT, hshape, hvec⟩ := backFill_spec hs.ok hs.echelon
    refine .inr ⟨?_, T, by simp [hT], hshape, ?_, ?_⟩
    · have hind := hs.echelon.independent
      rw [List.map_map] at hind
      rwa [← independent_congr (by simp [hs.length]) hs.span]
    · intro kv hkv
      have hsolves := hs.echelon.backSubst_solves
      have hmeets : ∀ e ∈ l, Meets info.columns (tableVec info.columns T) e.1 := by
        intro e he
        rw [Meets, hvec]
        exact hsolves (rowEquation info.columns e) (List.mem_map_of_mem he)
      have hrow : keyRow env params info.columns info.bandWidth kv.1 kv.2 ∈ sortRows (List.zipWith
          (keyRow env params info.columns info.bandWidth) setKeys setValues) :=
        mem_sortRows_keyRow.mpr ⟨kv, hkv, rfl⟩
      have hkey := (hs.meets (tableVec info.columns T)).mp hmeets _ hrow
      rwa [Meets] at hkey
    · rw [← rowSpan_perm hperm, ← hs.span, hvec]
      have hsup := backSubst_supported hs.echelon
      rwa [List.map_map] at hsup

end Encode

end PqPsi.Okvs
