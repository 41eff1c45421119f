import PqPsi.Okvs.Flat

/-!
# The decoder

The decoder recomputes the band of each key and XORs the table rows under its
set bits. That is what the band reads from the table, so that the decoder
gives back the value of every encoded key.
-/
namespace PqPsi.Okvs
open Lib.Buffers Lib.Exceptions Lib.LinearSystem Lib.Ranges

variable {columns bandWidth rowSize : ℕ}

theorem length_decodeBand (start : ℕ) (bits : RBBits) {rowAt : ℕ → List Block}
    (hrow : ∀ c < columns, (rowAt c).length = rowSize) (js : List ℕ) {out : List Block}
    (hout : out.length = rowSize) :
    (decodeBand columns start bits rowAt js out).length = rowSize := by
  induction js generalizing out with
  | nil => exact hout
  | cons j js ih =>
    rw [decodeBand]
    dsimp only
    split_ifs with hb hcol
    · exact ih hout
    · exact hout
    · exact ih (by simp [hout, hrow _ (not_le.mp hcol)])

/-- The loop reads the rows of the table only. -/
theorem decodeBand_congr (start : ℕ) (bits : RBBits) {rowAt rowAt' : ℕ → List Block}
    (hrow : ∀ c < columns, rowAt c = rowAt' c) (js : List ℕ) (out : List Block) :
    decodeBand columns start bits rowAt js out = decodeBand columns start bits rowAt' js out := by
  induction js generalizing out with
  | nil => rfl
  | cons j js ih =>
    rw [decodeBand, decodeBand]
    dsimp only
    split_ifs with hb hcol
    · exact ih out
    · rfl
    · rw [hrow _ (not_le.mp hcol), ih]

/-- The width check of the pointer loop always passes. -/
theorem decodeBandPtr_eq_ok (start : ℕ) (bits : RBBits) {okvsTable : List Block}
    (hrow : ∀ c < columns, (slice okvsTable (c * rowSize) rowSize).length = rowSize) (js : List ℕ)
    {out : List Block} (hout : out.length = rowSize) :
    decodeBandPtr columns start bits rowSize okvsTable js out =
      .ok (decodeBand columns start bits (fun col => slice okvsTable (col * rowSize) rowSize)
        js out) := by
  induction js generalizing out with
  | nil => rfl
  | cons j js ih =>
    rw [decodeBandPtr, decodeBand]
    dsimp only
    split_ifs with hb hcol
    · exact ih hout
    · rfl
    · have hlen := hrow _ (not_le.mp hcol)
      rw [rbXorPtr, hout, List.take_of_length_le hlen.le]
      simp only [ne_eq, not_true_eq_false, throwIf_false, ok_bind, pure_eq_ok]
      exact ih (by simp [hout, hlen])

/-- Inside the table the break is not taken, and the loop adds up the rows of the band. -/
theorem valVec_decodeBand (start : ℕ) (bits : RBBits) {rowAt : ℕ → List Block}
    (hrow : ∀ c < columns, (rowAt c).length = rowSize) (js : List ℕ)
    (hjs : ∀ j ∈ js, start + j < columns) {out : List Block} (hout : out.length = rowSize) :
    valVec (decodeBand columns start bits rowAt js out) = valVec out +
      (js.map fun j => bitVal (rbBit bits j) • valVec (rowAt (start + j))).sum := by
  induction js generalizing out with
  | nil => simp [decodeBand]
  | cons j js ih =>
    have hjs' : ∀ j ∈ js, start + j < columns := fun j hj => hjs j (by simp [hj])
    have hcol := hjs j (by simp)
    have hlen := hrow _ hcol
    rw [decodeBand, List.map_cons, List.sum_cons]
    cases hb : rbBit bits j with
    | false => simpa using ih hjs' hout
    | true =>
      have hx : (xorRow out (rowAt (start + j))).length = rowSize := by simp [hout, hlen]
      have hsum := ih hjs' hx
      rw [valVec_xorRow (hout.trans hlen.symm)] at hsum
      simpa [not_le.mpr hcol, add_assoc] using hsum

theorem slice_table {table : List (List Block)} (h : Shape columns rowSize table) {c : ℕ}
    (hc : c < columns) : slice table.flatten (c * rowSize) rowSize = table.getD c [] := by
  have hc' : c < table.length := h.length ▸ hc
  rw [slice_flatten h.width hc', List.getD_eq_getElem _ _ hc']

theorem length_slice_table {table : List (List Block)} (h : Shape columns rowSize table) {c : ℕ}
    (hc : c < columns) : (slice table.flatten (c * rowSize) rowSize).length = rowSize := by
  rw [slice_table h hc]
  exact h.getD hc

/-- The sizes of a flat table of `columns` rows. -/
theorem flatten_table_sizes {table : List (List Block)} (h : Shape columns rowSize table)
    (hcols : 0 < columns) (hpos : 0 < rowSize) :
    table.flatten.isEmpty = false ∧ table.flatten.length % rowSize = 0 ∧
      table.flatten.length / rowSize = columns := by
  have hlen : table.flatten.length = columns * rowSize := by
    rw [length_flatten_rows h.width, h.length]
  refine ⟨?_, by rw [hlen, Nat.mul_mod_left], by rw [hlen, Nat.mul_div_cancel _ hpos]⟩
  rw [List.isEmpty_eq_false_iff, ← List.length_pos_iff, hlen]
  exact Nat.mul_pos hcols hpos

section Rows
variable {F : Type} (env : Env) (params : RBParams F)

/-- The loop of the decoder for one key, on the row it finds in the output. -/
def decodeOnto (columns bandWidth rowSize : ℕ) (okvsTable : List Block) (key : Block)
    (out : List Block) : List Block :=
  decodeBand columns (keyBand env params columns bandWidth key).1
    (keyBand env params columns bandWidth key).2
    (fun col => slice okvsTable (col * rowSize) rowSize) (List.range bandWidth) out

/-- The row the decoder computes for one key. -/
def decodeRow (columns bandWidth rowSize : ℕ) (okvsTable : List Block) (key : Block) : List Block :=
  decodeOnto env params columns bandWidth rowSize okvsTable key (List.replicate rowSize zeroBlock)

theorem length_decodeOnto (bandWidth : ℕ) {table : List (List Block)}
    (h : Shape columns rowSize table) (key : Block) {out : List Block}
    (hout : out.length = rowSize) :
    (decodeOnto env params columns bandWidth rowSize table.flatten key out).length = rowSize :=
  length_decodeBand _ _ (fun _ hc => length_slice_table h hc) _ hout

theorem length_decodeRow (bandWidth : ℕ) {table : List (List Block)}
    (h : Shape columns rowSize table) (key : Block) :
    (decodeRow env params columns bandWidth rowSize table.flatten key).length = rowSize :=
  length_decodeOnto env params bandWidth h key List.length_replicate

/-- The decoded row of a key is what its band reads from the table. -/
theorem valVec_decodeRow (h1 : 1 ≤ bandWidth) (hbw : bandWidth ≤ 256) (hc : bandWidth ≤ columns)
    {table : List (List Block)} (h : Shape columns rowSize table) (key : Block) :
    valVec (decodeRow env params columns bandWidth rowSize table.flatten key) =
      read (tableVec columns table) (keyVec env params columns bandWidth key) := by
  obtain ⟨htrim, hfit⟩ := keyBand_spec env params h1 hbw hc key
  have hzero : valVec (List.replicate rowSize zeroBlock) = 0 := valVec_replicate_zero rowSize
  rw [decodeRow, decodeOnto, valVec_decodeBand _ _ (fun _ hcol => length_slice_table h hcol)
    (List.range bandWidth) (fun j hj => by rw [List.mem_range] at hj; omega) List.length_replicate,
    hzero, zero_add, keyVec, read_bandVec htrim hfit, ← List.sum_toFinset _ List.nodup_range,
    List.toFinset_range]
  refine Finset.sum_congr rfl fun j hj => ?_
  rw [Finset.mem_range] at hj
  rw [slice_table h (by omega)]

/-- The decoder finds the value of every encoded pair. -/
theorem Encodes.decodeRow_eq (h1 : 1 ≤ bandWidth) (hbw : bandWidth ≤ 256)
    (hc : bandWidth ≤ columns) {setKeys : List Block} {setValues table : List (List Block)}
    (h : Encodes env params columns bandWidth rowSize setKeys setValues table)
    (hw : ∀ v ∈ setValues, v.length = rowSize) {key : Block} {value : List Block}
    (hkv : (key, value) ∈ setKeys.zip setValues) :
    decodeRow env params columns bandWidth rowSize table.flatten key = value := by
  apply valVec_inj
  · rw [length_decodeRow env params bandWidth h.shape, hw _ (List.of_mem_zip hkv).2]
  · rw [valVec_decodeRow env params h1 hbw hc h.shape, h.reads _ hkv]

/-- Every slot of the output is rewritten from zero by the band of its own key. -/
theorem mapIdx_decodeOnto (columns bandWidth rowSize : ℕ) (okvsTable setKeys : List Block) :
    (List.replicate setKeys.length (List.replicate rowSize zeroBlock)).mapIdx
      (fun i out =>
        decodeOnto env params columns bandWidth rowSize okvsTable (setKeys.getD i 0) out) =
      setKeys.map (decodeRow env params columns bandWidth rowSize okvsTable) := by
  apply List.ext_getElem (by simp)
  intro i hi hi'
  rw [List.length_map] at hi'
  rw [List.getElem_mapIdx, List.getElem_map, List.getElem_replicate,
    List.getD_eq_getElem _ _ hi', decodeRow]

variable [Double F]

theorem rbDecodeWidth_eq_ok {n w : ℕ} : rbDecodeWidth columns n params = .ok w ↔
    (params.columns = 0 ∨ params.columns = columns) ∧ rbTableW n columns params = .ok w ∧
      w ≤ 256 ∧ w ≤ columns := by
  simp only [rbDecodeWidth, bind_eq_ok, throwIf_eq_ok, pure_eq_ok, Except.ok.injEq, not_and_or,
    not_not, not_lt]
  constructor
  · rintro ⟨-, hcols, w, hw, -, hbw, -, hc, rfl⟩
    exact ⟨hcols, hw, hbw, hc⟩
  · rintro ⟨hcols, hw, hbw, hc⟩
    exact ⟨(), hcols, w, hw, (), hbw, (), hc, rfl⟩

/-- The flat decoder checks the shape and then computes each row from its own key. -/
theorem rbDecodeFlat_bind {table : List (List Block)} (h : Shape columns rowSize table)
    (hcols : 0 < columns) (hpos : 0 < rowSize) (setKeys : List Block) :
    rbDecodeFlat env table.flatten rowSize setKeys params =
      rbDecodeWidth columns setKeys.length params >>= fun bandWidth =>
        .ok (setKeys.map
          (decodeRow env params columns bandWidth rowSize table.flatten)).flatten := by
  obtain ⟨hne, hmod, hdiv⟩ := flatten_table_sizes h hcols hpos
  have hbody : rbDecodeFlat env table.flatten rowSize setKeys params =
      rbDecodeWidth columns setKeys.length params >>= fun bandWidth =>
        forRanges (rbRanges env setKeys.length params.multiThread params.workerThreads)
          (fun out i => rbBand env params columns bandWidth (setKeys.getD i 0) >>= fun band =>
            .ok (splice out (i * rowSize) (decodeBand columns band.1 band.2
              (fun col => slice table.flatten (col * rowSize) rowSize) (List.range bandWidth)
              (slice out (i * rowSize) rowSize))))
          (List.replicate (setKeys.length * rowSize) zeroBlock) := by
    rw [rbDecodeFlat, hne, rbDecodeWidth]
    simp only [hdiv, hmod, hpos.ne', ne_eq, not_true_eq_false, or_self, throwIf_false, ok_bind,
      Bool.false_eq_true, if_false, bind_assoc, pure_eq_ok]
  rw [hbody]
  cases hwidth : rbDecodeWidth columns setKeys.length params with
  | error e => rfl
  | ok bandWidth =>
    obtain ⟨-, -, hbw, -⟩ := (rbDecodeWidth_eq_ok params).mp hwidth
    have hloop := foldl_splice (h := fun i out =>
        decodeOnto env params columns bandWidth rowSize table.flatten (setKeys.getD i 0) out)
      (shape_replicate setKeys.length rowSize).width
      (fun i _ r hr => length_decodeOnto env params bandWidth h (setKeys.getD i 0) hr)
    rw [List.length_replicate, List.flatten_replicate_replicate, mapIdx_decodeOnto] at hloop
    rw [ok_bind, ok_bind, forRanges_rbRanges, foldlM_eq_ok
      (g := fun out i => splice out (i * rowSize) (decodeOnto env params columns bandWidth rowSize
        table.flatten (setKeys.getD i 0) (slice out (i * rowSize) rowSize))), hloop]
    intro out i _
    rw [rbBand_eq_ok env params hbw]
    rfl

/-- The decoder throws nothing on a table of the resolved shape. -/
theorem rbDecodeFlat_eq (hcols : 0 < columns) (hbw : bandWidth ≤ 256) (hc : bandWidth ≤ columns)
    (hpos : 0 < rowSize) {table : List (List Block)} (h : Shape columns rowSize table)
    {setKeys : List Block} (hparams : params.columns = 0 ∨ params.columns = columns)
    (hwidth : rbTableW setKeys.length columns params = .ok bandWidth) :
    rbDecodeFlat env table.flatten rowSize setKeys params =
      .ok (setKeys.map (decodeRow env params columns bandWidth rowSize table.flatten)).flatten := by
  rw [rbDecodeFlat_bind env params h hcols hpos,
    (rbDecodeWidth_eq_ok params).mpr ⟨hparams, hwidth, hbw, hc⟩, ok_bind]

end Rows

end PqPsi.Okvs
