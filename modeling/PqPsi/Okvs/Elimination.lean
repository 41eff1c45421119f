import PqPsi.Okvs.BandSystem
import PqPsi.Okvs.Codec

/-!
# What elimination and back fill compute

One turn of the outer loop adds the pivot row to some of the later rows and
leaves none of them with a bit in the pivot column. By induction the reduced
rows form an echelon list with the span and the solutions of the input rows,
and the loop gives up exactly when the input rows are dependent. The back
fill is then the back substitution of `Lib.LinearSystem`.
-/
namespace PqPsi.Okvs
open Lib.Exceptions Lib.LinearSystem

variable {columns bandWidth rowSize : ℕ}

/-- What one pass of the inner loop may do to a later row. -/
structure Reduced (columns bandWidth rowSize : ℕ) (row : RBRow) (pivot : ℕ) (r r' : RBRow) :
    Prop where
  ok : RowOk columns bandWidth rowSize r'
  start : r'.start = r.start
  eqn : (rowVec columns r' = rowVec columns r ∧ valVec r'.rhs = valVec r.rhs) ∨
    (rowVec columns r' = rowVec columns r + rowVec columns row ∧
      valVec r'.rhs = valVec r.rhs + valVec row.rhs)
  clear : ∀ c : Fin columns, c.val = pivot → rowVec columns r' c = 0

theorem rowVec_of_lt_lead {row : RBRow} {lead : ℕ} (hlow : ∀ j < lead, rbBit row.bits j = false)
    {c : Fin columns} (hc : c.val < row.start + lead) : rowVec columns row c = 0 := by
  by_cases hs : row.start ≤ c.val
  · rw [rowVec, bandVec_of_le hs, hlow _ (by omega), bitVal_false]
  · exact bandVec_of_lt (by omega)

theorem rowVec_eq_zero {row : RBRow} (hzero : ∀ j, rbBit row.bits j = false) :
    rowVec columns row = 0 := by
  funext c
  unfold rowVec bandVec
  split_ifs <;> simp [hzero]

theorem isLead_rowVec [NeZero columns] {row : RBRow} {lead : ℕ}
    (hset : rbBit row.bits lead = true) (hlow : ∀ j < lead, rbBit row.bits j = false)
    (hpc : row.start + lead < columns) :
    IsLead (rowVec columns row) (Fin.ofNat columns (row.start + lead)) := by
  have hpv : (Fin.ofNat columns (row.start + lead)).val = row.start + lead := Nat.mod_eq_of_lt hpc
  refine ⟨?_, fun c hc => rowVec_of_lt_lead hlow ?_⟩
  · rw [rowVec, bandVec_of_le (by omega), hpv, Nat.add_sub_cancel_left, hset]
    decide
  · have hc' : c.val < (Fin.ofNat columns (row.start + lead)).val := hc
    omega

/-- The shifted XOR of two masks is the sum of the two vectors: the band of the later
row starts no earlier, so that nothing of the pivot row is cut off. -/
theorem rowVec_xorShifted {row r : RBRow} {lead : ℕ} {bits : RBBits}
    (hrow : RowOk columns bandWidth rowSize row)
    (hlow : ∀ j < lead, rbBit row.bits j = false) (hstart : row.start ≤ r.start)
    (hreach : r.start ≤ row.start + lead)
    (hbits : ∀ j, rbBit bits j = xor (rbBit r.bits j)
      (decide (j < bandWidth ∧ row.start + lead - r.start ≤ j) &&
        rbBit row.bits (j - (row.start + lead - r.start) + lead))) (c : Fin columns) :
    bandVec columns r.start bits c = rowVec columns r c + rowVec columns row c := by
  by_cases hs : r.start ≤ c.val
  · rw [bandVec_of_le hs, hbits, bitVal_xor, rowVec, bandVec_of_le hs]
    congr 1
    by_cases hp : row.start + lead ≤ c.val
    · by_cases hb : c.val - r.start < bandWidth
      · rw [decide_eq_true (by omega), Bool.true_and, rowVec, bandVec_of_le (by omega)]
        congr 2
        omega
      · rw [decide_eq_false (by omega), Bool.false_and, bitVal_false, rowVec,
          bandVec_of_ge hrow.trimmed (by omega)]
    · rw [decide_eq_false (by omega), Bool.false_and, bitVal_false,
        rowVec_of_lt_lead hlow (by omega)]
  · rw [bandVec_of_lt (by omega), rowVec, bandVec_of_lt (by omega),
      rowVec_of_lt_lead hlow (by omega), add_zero]

/-- The inner loop never throws and reduces every later row. -/
theorem eliminateBelow_spec {row : RBRow} {lead : ℕ} (hbw : bandWidth ≤ 256)
    (hrow : RowOk columns bandWidth rowSize row) (hset : rbBit row.bits lead = true)
    (hlow : ∀ j < lead, rbBit row.bits j = false) (rows : List RBRow)
    (hok : ∀ r ∈ rows, RowOk columns bandWidth rowSize r)
    (hsort : rows.Pairwise fun a b => a.start ≤ b.start)
    (hafter : ∀ r ∈ rows, row.start ≤ r.start) :
    ∃ rows', (eliminateBelow bandWidth xorRhsNested row lead (row.start + lead) rows).run () =
        .ok (rows', ()) ∧
      List.Forall₂ (Reduced columns bandWidth rowSize row (row.start + lead)) rows rows' := by
  induction rows with
  | nil => exact ⟨[], rfl, .nil⟩
  | cons r rs ih =>
    rw [List.pairwise_cons] at hsort
    have hr := hok r (by simp)
    obtain ⟨rs', hrun, hred⟩ := ih (fun r hr => hok r (by simp [hr])) hsort.2
      (fun r hr => hafter r (by simp [hr]))
    unfold eliminateBelow
    by_cases hbreak : r.start > row.start + lead
    · -- the break: this row and all after it start behind the pivot
      refine ⟨r :: rs, by simp [hbreak], ?_⟩
      rw [List.forall₂_same]
      intro r' hr'
      refine ⟨hok r' hr', rfl, .inl ⟨rfl, rfl⟩, fun c hc => bandVec_of_lt ?_⟩
      rcases List.mem_cons.mp hr' with rfl | hr'
      · omega
      · have := hsort.1 r' hr'
        omega
    have hstart := hafter r (by simp)
    by_cases hskip : row.start + lead - r.start ≥ bandWidth ∨
        (!rbBit r.bits (row.start + lead - r.start)) = true
    · refine ⟨r :: rs', ?_, .cons ⟨hr, rfl, .inl ⟨rfl, rfl⟩, fun c hc => ?_⟩ hred⟩
      · rw [if_neg hbreak, if_pos hskip]
        simp [hrun]
      · rw [rowVec, bandVec_of_le (by omega), hc]
        rcases hskip with hskip | hskip
        · rw [hr.trimmed _ hskip, bitVal_false]
        · rw [Bool.not_eq_true'] at hskip
          rw [hskip, bitVal_false]
    · obtain ⟨bits, hx, hbits⟩ := rbXorShifted_eq_ok r.bits row.bits
        (row.start + lead - r.start) lead hbw
      have hlen : r.rhs.length = row.rhs.length := hr.width.trans hrow.width.symm
      refine ⟨⟨r.start, bits, xorRow r.rhs row.rhs⟩ :: rs', ?_, .cons ?_ hred⟩
      · rw [if_neg hbreak, if_neg hskip, hx]
        simp [hrun, xorRhsNested, rbXor, hlen]
      · have hvec := rowVec_xorShifted hrow hlow hstart (by omega) hbits
        simp only [not_or, not_le, ge_iff_le, Bool.not_eq_true, Bool.not_eq_false'] at hskip
        refine ⟨⟨?_, hr.fits, ?_⟩, rfl, .inr ⟨funext hvec, valVec_xorRow hlen⟩, ?_⟩
        · intro j hj
          rw [hbits, hr.trimmed j hj, decide_eq_false (by omega)]
          rfl
        · simp [hlen, hrow.width]
        · intro c hc
          change bandVec columns r.start bits c = 0
          rw [hvec, rowVec, rowVec, bandVec_of_le (by omega), bandVec_of_le (by omega), hc,
            hskip.2, Nat.add_sub_cancel_left, hset]
          decide

/-- One pass keeps the span of the pivot row and the later rows. -/
theorem rowSpan_reduced {row : RBRow} {pivot : ℕ} {rows rows' : List RBRow}
    (h : List.Forall₂ (Reduced columns bandWidth rowSize row pivot) rows rows') :
    rowSpan (rowVec columns row :: rows.map (rowVec columns)) =
      rowSpan (rowVec columns row :: rows'.map (rowVec columns)) := by
  apply rowSpan_cons_congr
  rw [List.forall₂_map_left_iff, List.forall₂_map_right_iff]
  refine h.imp fun r r' hr => ?_
  rcases hr.eqn with he | he
  · exact ⟨0, by rw [he.1, zero_smul, add_zero]⟩
  · exact ⟨1, by rw [he.1, one_smul]⟩

/-- One pass keeps the solutions of the pivot row and the later rows. -/
theorem meets_reduced {row : RBRow} {pivot : ℕ} {rows rows' : List RBRow}
    (h : List.Forall₂ (Reduced columns bandWidth rowSize row pivot) rows rows')
    {T : Fin columns → Value} (hrow : Meets columns T row) :
    (∀ r ∈ rows', Meets columns T r) ↔ ∀ r ∈ rows, Meets columns T r := by
  induction h with
  | nil => simp
  | @cons r r' rows rows' hr _ ih =>
    have hhead : Meets columns T r' ↔ Meets columns T r := by
      unfold Meets at hrow ⊢
      rcases hr.eqn with he | he
      · rw [he.1, he.2]
      · rw [he.1, he.2, read_add, hrow, add_left_inj]
    rw [List.forall_mem_cons, List.forall_mem_cons, hhead, ih]

theorem sorted_reduced {row : RBRow} {pivot : ℕ} {rows rows' : List RBRow}
    (h : List.Forall₂ (Reduced columns bandWidth rowSize row pivot) rows rows')
    (hsort : rows.Pairwise fun a b => a.start ≤ b.start) :
    rows'.Pairwise fun a b => a.start ≤ b.start := by
  have hmap : rows'.map BandRow.start = rows.map BandRow.start := by
    induction h with
    | nil => rfl
    | cons hr _ ih =>
      rw [List.map_cons, List.map_cons, hr.start, ih (List.pairwise_cons.mp hsort).2]
  have hs : (rows.map BandRow.start).Pairwise (· ≤ ·) := List.pairwise_map.mpr hsort
  rw [← hmap] at hs
  exact List.pairwise_map.mp hs

theorem forall_reduced {row : RBRow} {pivot : ℕ} {rows rows' : List RBRow}
    (h : List.Forall₂ (Reduced columns bandWidth rowSize row pivot) rows rows') {r' : RBRow}
    (hr' : r' ∈ rows') : ∃ r ∈ rows, Reduced columns bandWidth rowSize row pivot r r' := by
  induction h with
  | nil => simp at hr'
  | @cons r s rows rows' hr _ ih =>
    rcases List.mem_cons.mp hr' with rfl | hr'
    · exact ⟨r, by simp, hr⟩
    · obtain ⟨r, hmem, hred⟩ := ih hr'
      exact ⟨r, by simp [hmem], hred⟩

/-- The reduced system of a successful elimination. -/
structure Solved (columns bandWidth rowSize : ℕ) [NeZero columns] (rows : List RBRow)
    (reduced : List (RBRow × ℕ)) : Prop where
  length : reduced.length = rows.length
  ok : ∀ e ∈ reduced, RowOk columns bandWidth rowSize e.1 ∧ e.2 < columns
  echelon : Echelon (reduced.map (rowEquation columns))
  span : rowSpan (reduced.map fun e => rowVec columns e.1) = rowSpan (rows.map (rowVec columns))
  meets : ∀ T, (∀ e ∈ reduced, Meets columns T e.1) ↔ ∀ r ∈ rows, Meets columns T r

/-- A pivot row in front of the solved system of the rows that it has reduced. -/
theorem Solved.cons [NeZero columns] {row : RBRow} {pivot : ℕ} {rows rows' : List RBRow}
    {reduced : List (RBRow × ℕ)} (hs : Solved columns bandWidth rowSize rows' reduced)
    (hrow : RowOk columns bandWidth rowSize row) (hpc : pivot < columns)
    (hlead : IsLead (rowVec columns row) (Fin.ofNat columns pivot))
    (hred : List.Forall₂ (Reduced columns bandWidth rowSize row pivot) rows rows') :
    Solved columns bandWidth rowSize (row :: rows) ((row, pivot) :: reduced) := by
  have hpv : (Fin.ofNat columns pivot).val = pivot := Nat.mod_eq_of_lt hpc
  have hclear : ∀ w ∈ rows'.map (rowVec columns), w (Fin.ofNat columns pivot) = 0 := by
    intro w hw
    obtain ⟨r', hr', rfl⟩ := List.mem_map.mp hw
    obtain ⟨r, -, hr⟩ := forall_reduced hred hr'
    exact hr.clear _ hpv
  refine ⟨?_, ?_, ?_, ?_, fun T => ?_⟩
  · rw [List.length_cons, List.length_cons, hs.length, hred.length_eq]
  · intro e he
    rcases List.mem_cons.mp he with rfl | he
    · exact ⟨hrow, hpc⟩
    · exact hs.ok e he
  · refine .cons hlead (fun e' he' => ?_) hs.echelon
    obtain ⟨e, he, rfl⟩ := List.mem_map.mp he'
    apply apply_eq_zero_of_mem_rowSpan hclear
    rw [← hs.span]
    exact mem_rowSpan (List.mem_map_of_mem he)
  · rw [List.map_cons, List.map_cons, rowSpan_reduced hred, rowSpan_cons, rowSpan_cons, hs.span]
  · rw [List.forall_mem_cons, List.forall_mem_cons]
    refine and_congr_right fun hm => ?_
    rw [hs.meets, meets_reduced hred hm]

/-- Elimination never throws. It succeeds with an equivalent echelon system, or it stops
because the rows are dependent. -/
theorem eliminate_spec [NeZero columns] (hbw : bandWidth ≤ 256) (n : ℕ) (rows : List RBRow)
    (hn : rows.length = n) (hok : ∀ r ∈ rows, RowOk columns bandWidth rowSize r)
    (hsort : rows.Pairwise fun a b => a.start ≤ b.start) :
    ∃ reduced, (eliminate bandWidth xorRhsNested n rows).run () = .ok (reduced, ()) ∧
      (reduced = none → ¬ Independent (rows.map (rowVec columns))) ∧
      ∀ l, reduced = some l → Solved columns bandWidth rowSize rows l := by
  induction n generalizing rows with
  | zero =>
    obtain rfl : rows = [] := List.eq_nil_of_length_eq_zero hn
    refine ⟨some [], rfl, by simp, ?_⟩
    rintro l ⟨⟩
    exact ⟨rfl, by simp, .nil, rfl, by simp⟩
  | succ n ih =>
    obtain ⟨row, rows, rfl⟩ := List.exists_cons_of_length_eq_add_one hn
    rw [List.pairwise_cons] at hsort
    have hrow := hok row (by simp)
    rcases rbLead_spec row.bits hrow.trimmed with ⟨hlead, hzero⟩ | ⟨hlead, hset, hlow⟩
    · -- the row has become empty: the rows before it span it
      refine ⟨none, by simp [eliminate, hlead], fun _ => ?_, by simp⟩
      rw [List.map_cons, rowVec_eq_zero hzero]
      exact not_independent_zero_cons _
    obtain ⟨rows', hrun, hred⟩ := eliminateBelow_spec hbw hrow hset hlow rows
      (fun r hr => hok r (by simp [hr])) hsort.2 hsort.1
    have hlen : rows.length = rows'.length := hred.length_eq
    have hfits := hrow.fits
    have hpc : row.start + rbLead row.bits bandWidth < columns := by omega
    obtain ⟨rest, hrest, hnone, hsome⟩ := ih rows' (by rw [← hlen]; simpa using hn)
      (fun r' hr' => (forall_reduced hred hr').choose_spec.2.ok) (sorted_reduced hred hsort.2)
    refine ⟨rest.map fun rest => (row, row.start + rbLead row.bits bandWidth) :: rest, ?_, ?_, ?_⟩
    · simp [eliminate, hlead.ne, hrun, hrest]
    · intro h
      have hdep := hnone (Option.map_eq_none_iff.mp h)
      have hlen' : (rowVec columns row :: rows.map (rowVec columns)).length =
          (rowVec columns row :: rows'.map (rowVec columns)).length := by simp [hlen]
      rw [List.map_cons, independent_congr hlen' (rowSpan_reduced hred), independent_cons]
      exact fun h => hdep h.2
    · intro l hl
      obtain ⟨rest', rfl, rfl⟩ := Option.map_eq_some_iff.mp hl
      exact (hsome rest' rfl).cons hrow hpc (isLead_rowVec hset hlow hpc) hred

end PqPsi.Okvs
