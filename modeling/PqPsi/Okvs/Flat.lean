import PqPsi.Okvs.Encoding

/-!
# The flat encoder refines the nested one

The flat encoder keeps all right-hand sides in one buffer and XORs segments of
it in place. The segments of different rows do not meet, so that each step of
it is a step of the nested encoder on the rows loaded from the buffer, and the
flat table is the nested one row after row.
-/
namespace PqPsi.Okvs
open Lib.Buffers Lib.Exceptions Lib.Ranges

variable {bandWidth rowSize columns : ℕ}

/-- Segments of one width that do not meet. -/
def Apart (rowSize a b : ℕ) : Prop := a + rowSize ≤ b ∨ b + rowSize ≤ a

theorem Apart.symm {a b : ℕ} (h : Apart rowSize a b) : Apart rowSize b a := Or.symm h

/-- Pairwise disjoint segments of a buffer. -/
structure Segments (rowSize len : ℕ) (offs : List ℕ) : Prop where
  apart : offs.Pairwise (Apart rowSize)
  inside : ∀ a ∈ offs, a + rowSize ≤ len

/-- Only the segments at `offs` may have changed. -/
structure Frame (rowSize : ℕ) (buf buf' : List Block) (offs : List ℕ) : Prop where
  length : buf'.length = buf.length
  keeps : ∀ a, (∀ b ∈ offs, Apart rowSize a b) → slice buf' a rowSize = slice buf a rowSize

/-- A flat row with its right-hand side read from the buffer. -/
def loadRow (rowSize : ℕ) (buf : List Block) (row : RBFlatRow) : RBRow :=
  ⟨row.start, row.bits, slice buf row.rhs rowSize⟩

/-- XOR in place of two segments that do not meet. -/
theorem rbXorAt_eq {buf : List Block} {a b n : ℕ} (ha : a + n ≤ buf.length)
    (hb : b + n ≤ buf.length) (hd : Apart n a b) :
    rbXorAt buf a b n = splice buf a (xorRow (slice buf a n) (slice buf b n)) := by
  have hk : ∀ k ≤ n, (rbXorAt buf a b k).length = buf.length ∧
      ∀ i, (rbXorAt buf a b k)[i]? = if a ≤ i ∧ i < a + k then
        some (buf.getD i 0 ^^^ buf.getD (b + (i - a)) 0) else buf[i]? := by
    intro k hk
    induction k with
    | zero => exact ⟨rfl, fun i => by rw [if_neg (by omega)]; rfl⟩
    | succ k ih =>
      obtain ⟨hlen, hget⟩ := ih (by omega)
      have hstep : rbXorAt buf a b (k + 1) = (rbXorAt buf a b k).set (a + k)
          ((rbXorAt buf a b k).getD (a + k) 0 ^^^ (rbXorAt buf a b k).getD (b + k) 0) := by
        simp [rbXorAt, List.range_succ]
      have hread : ∀ i, ¬ (a ≤ i ∧ i < a + k) → (rbXorAt buf a b k).getD i 0 = buf.getD i 0 := by
        intro i hi
        rw [List.getD_eq_getElem?_getD, List.getD_eq_getElem?_getD, hget, if_neg hi]
      rw [hstep, hread _ (by omega), hread (b + k) (by unfold Apart at hd; omega)]
      refine ⟨by rw [List.length_set, hlen], fun i => ?_⟩
      rw [List.getElem?_set]
      by_cases hi : a + k = i
      · rw [if_pos hi, hlen, if_pos (by omega), if_pos (by omega), ← hi, Nat.add_sub_cancel_left]
      · rw [if_neg hi, hget]
        by_cases hin : a ≤ i ∧ i < a + k
        · rw [if_pos hin, if_pos (by omega)]
        · rw [if_neg hin, if_neg (by omega)]
  have hla := length_slice ha
  have hlb := length_slice hb
  have hlx : (xorRow (slice buf a n) (slice buf b n)).length = n := by simp [hla, hlb]
  apply List.ext_getElem?
  intro i
  rw [(hk n le_rfl).2 i, splice_getElem? (by omega), hlx]
  split_ifs with hi
  · have hia : i < buf.length := by omega
    have hib : b + (i - a) < buf.length := by omega
    rw [xorRow, List.getElem?_zipWith, slice_getElem?, slice_getElem?, if_pos (by omega),
      if_pos (by omega), show a + (i - a) = i by omega, List.getElem?_eq_getElem hia,
      List.getElem?_eq_getElem hib, List.getD_eq_getElem _ _ hia, List.getD_eq_getElem _ _ hib]
  · rfl

/-- After an in-place XOR the target holds the sum and every disjoint segment is unchanged. -/
theorem frame_rbXorAt {buf : List Block} {a b : ℕ} (ha : a + rowSize ≤ buf.length)
    (hb : b + rowSize ≤ buf.length) (hd : Apart rowSize a b) :
    slice (rbXorAt buf a b rowSize) a rowSize =
        xorRow (slice buf a rowSize) (slice buf b rowSize) ∧
      Frame rowSize buf (rbXorAt buf a b rowSize) [a] := by
  have hlx : (xorRow (slice buf a rowSize) (slice buf b rowSize)).length = rowSize := by
    simp [length_slice ha, length_slice hb]
  rw [rbXorAt_eq ha hb hd]
  refine ⟨?_, length_splice (by omega), fun c hc => slice_splice_disjoint (by omega) ?_⟩
  · have hfit : a + (xorRow (slice buf a rowSize) (slice buf b rowSize)).length ≤ buf.length := by
      omega
    have hs := slice_splice_same hfit
    rwa [hlx] at hs
  · have hca := hc a (by simp)
    rw [hlx]
    exact hca

theorem loadRow_frame {buf buf' : List Block} {offs : List ℕ} (h : Frame rowSize buf buf' offs)
    {row : RBFlatRow} (hd : ∀ b ∈ offs, Apart rowSize row.rhs b) :
    loadRow rowSize buf' row = loadRow rowSize buf row := by
  rw [loadRow, loadRow, h.keeps _ hd]

theorem Frame.trans {buf buf' buf'' : List Block} {offs offs' : List ℕ}
    (h : Frame rowSize buf buf' offs) (h' : Frame rowSize buf' buf'' offs') :
    Frame rowSize buf buf'' (offs ++ offs') := by
  refine ⟨h'.length.trans h.length, fun a ha => ?_⟩
  rw [h'.keeps a fun b hb => ha b (by simp [hb]), h.keeps a fun b hb => ha b (by simp [hb])]

theorem Frame.mono {buf buf' : List Block} {offs offs' : List ℕ}
    (h : Frame rowSize buf buf' offs) (hsub : ∀ b ∈ offs, b ∈ offs') :
    Frame rowSize buf buf' offs' := ⟨h.length, fun a ha => h.keeps a fun b hb => ha b (hsub b hb)⟩

theorem Frame.refl (rowSize : ℕ) (buf : List Block) (offs : List ℕ) :
    Frame rowSize buf buf offs := ⟨rfl, fun _ _ => rfl⟩

theorem run_lift_eq_ok {σ α : Type} {x : Except Err α} {a : α} {s s' : σ} :
    (liftM x : RB σ α).run s = .ok (a, s') ↔ x = .ok a ∧ s = s' := by
  simp [bind_eq_ok]

theorem run_lift_ok {σ α : Type} (a : α) (s : σ) :
    (liftM (.ok a : Except Err α) : RB σ α).run s = .ok (a, s) := rfl

theorem xorRhsNested_eq_ok {a b sum : List Block} :
    (xorRhsNested a b).run () = .ok (sum, ()) ↔ a.length = b.length ∧ xorRow a b = sum := by
  rw [xorRhsNested, run_lift_eq_ok]
  simp [rbXor, bind_eq_ok]

theorem xorRhsFlat_run (buf : List Block) (a b : ℕ) :
    (xorRhsFlat rowSize a b).run buf = .ok (a, rbXorAt buf a b rowSize) := rfl

/-- The inner loop on a buffer does what the nested loop does on the loaded rows. -/
theorem eliminateBelow_flat {row : RBFlatRow} {lead pivot : ℕ} {rows : List RBFlatRow}
    {buf : List Block} {nested : List RBRow}
    (hseg : Segments rowSize buf.length (row.rhs :: rows.map BandRow.rhs))
    (hrun : (eliminateBelow bandWidth xorRhsNested (loadRow rowSize buf row) lead pivot
      (rows.map (loadRow rowSize buf))).run () = .ok (nested, ())) :
    ∃ rows' buf', (eliminateBelow bandWidth (xorRhsFlat rowSize) row lead pivot rows).run buf =
        .ok (rows', buf') ∧ nested = rows'.map (loadRow rowSize buf') ∧
      rows'.map BandRow.rhs = rows.map BandRow.rhs ∧
      Frame rowSize buf buf' (rows.map BandRow.rhs) := by
  induction rows generalizing buf nested with
  | nil =>
    obtain rfl : [] = nested := by simpa [eliminateBelow] using hrun
    exact ⟨[], buf, rfl, rfl, rfl, .refl _ _ _⟩
  | cons r rs ih =>
    have hap := hseg.apart
    simp only [List.map_cons, List.pairwise_cons, List.mem_cons, forall_eq_or_imp] at hap
    obtain ⟨⟨hrowr, hrowrs⟩, hrrs, hrs⟩ := hap
    have hin := hseg.inside
    simp only [List.map_cons, List.mem_cons, forall_eq_or_imp] at hin
    have hseg' : Segments rowSize buf.length (row.rhs :: rs.map BandRow.rhs) :=
      ⟨List.pairwise_cons.mpr ⟨hrowrs, hrs⟩, List.forall_mem_cons.mpr ⟨hin.1, hin.2.2⟩⟩
    rw [List.map_cons, eliminateBelow] at hrun
    rw [eliminateBelow]
    by_cases hbreak : r.start > pivot
    · obtain rfl : loadRow rowSize buf r :: rs.map (loadRow rowSize buf) = nested := by
        simpa [loadRow, hbreak] using hrun
      exact ⟨r :: rs, buf, by simp [hbreak], rfl, rfl, .refl _ _ _⟩
    by_cases hskip : pivot - r.start ≥ bandWidth ∨ (!rbBit r.bits (pivot - r.start)) = true
    · rw [if_neg (by exact hbreak), if_pos (by exact hskip)] at hrun
      simp only [StateT.run_bind, bind_eq_ok] at hrun
      obtain ⟨⟨ns, ⟨⟩⟩, hns, hret⟩ := hrun
      obtain ⟨rs', buf', hflat, rfl, hrhs, hframe⟩ := ih hseg' hns
      obtain rfl : loadRow rowSize buf r :: rs'.map (loadRow rowSize buf') = nested := by
        simpa using hret
      refine ⟨r :: rs', buf', ?_, ?_, by simp [hrhs],
        hframe.mono fun b hb => List.mem_cons_of_mem _ hb⟩
      · rw [if_neg hbreak, if_pos hskip]
        simp [hflat]
      · rw [List.map_cons, loadRow_frame hframe hrrs]
    · rw [if_neg (by exact hbreak), if_neg (by exact hskip)] at hrun
      simp only [StateT.run_bind, bind_eq_ok] at hrun
      obtain ⟨⟨bits, ⟨⟩⟩, hbits, ⟨sum, ⟨⟩⟩, hsum, ⟨ns, ⟨⟩⟩, hns, hret⟩ := hrun
      have hx : rbXorShifted r.bits (pivot - r.start) row.bits lead bandWidth = .ok bits :=
        (run_lift_eq_ok.mp hbits).1
      obtain ⟨-, rfl⟩ := xorRhsNested_eq_ok.mp hsum
      obtain ⟨hsame, hone⟩ := frame_rbXorAt hin.2.1 hin.1 hrowr.symm
      set buf₁ := rbXorAt buf r.rhs row.rhs rowSize with hbuf₁
      -- neither the pivot row nor the rows behind `r` have moved
      have hload : loadRow rowSize buf₁ row = loadRow rowSize buf row :=
        loadRow_frame hone (by simpa using hrowr)
      have hloads : rs.map (loadRow rowSize buf₁) = rs.map (loadRow rowSize buf) := by
        refine List.map_congr_left fun r' hr' => loadRow_frame hone ?_
        simpa using (hrrs _ (List.mem_map_of_mem hr')).symm
      rw [← hone.length] at hseg'
      rw [← hloads, ← hload] at hns
      obtain ⟨rs', buf', hflat, rfl, hrhs, hframe⟩ := ih hseg' hns
      obtain rfl : (⟨r.start, bits, xorRow (slice buf r.rhs rowSize) (slice buf row.rhs rowSize)⟩ ::
          rs'.map (loadRow rowSize buf') : List RBRow) = nested := by
        simpa [loadRow] using hret
      refine ⟨⟨r.start, bits, r.rhs⟩ :: rs', buf', ?_, ?_, by simp [hrhs], hone.trans hframe⟩
      · rw [if_neg hbreak, if_neg hskip]
        simp only [StateT.run_bind, hx, run_lift_ok, ok_bind, xorRhsFlat_run]
        rw [← hbuf₁, hflat]
        rfl
      · rw [List.map_cons, loadRow, hframe.keeps _ hrrs, hsame]

/-- Forward elimination on a buffer does what nested elimination does on the loaded rows. -/
theorem eliminate_flat (n : ℕ) {rows : List RBFlatRow} {buf : List Block}
    {nested : Option (List (RBRow × ℕ))}
    (hseg : Segments rowSize buf.length (rows.map BandRow.rhs))
    (hrun : (eliminate bandWidth xorRhsNested n (rows.map (loadRow rowSize buf))).run () =
      .ok (nested, ())) :
    ∃ reduced buf', (eliminate bandWidth (xorRhsFlat rowSize) n rows).run buf =
        .ok (reduced, buf') ∧
      nested = reduced.map (List.map fun e => (loadRow rowSize buf' e.1, e.2)) ∧
      Frame rowSize buf buf' (rows.map BandRow.rhs) := by
  induction n generalizing rows buf nested with
  | zero =>
    obtain rfl : some [] = nested := by simpa [eliminate] using hrun
    exact ⟨some [], buf, by simp [eliminate], rfl, .refl _ _ _⟩
  | succ n ih =>
    cases rows with
    | nil =>
      obtain rfl : some [] = nested := by simpa [eliminate] using hrun
      exact ⟨some [], buf, by simp [eliminate], rfl, .refl _ _ _⟩
    | cons row rows =>
      rw [List.map_cons, eliminate] at hrun
      rw [eliminate]
      by_cases hlead : rbLead row.bits bandWidth = bandWidth
      · obtain rfl : none = nested := by simpa [loadRow, hlead] using hrun
        exact ⟨none, buf, by simp [hlead], rfl, .refl _ _ _⟩
      · rw [if_neg (by exact hlead)] at hrun
        simp only [StateT.run_bind, bind_eq_ok] at hrun
        obtain ⟨⟨ns, ⟨⟩⟩, hns, ⟨rest, ⟨⟩⟩, hrest, hret⟩ := hrun
        obtain ⟨rows', buf₁, hflat, rfl, hrhs, hframe⟩ := eliminateBelow_flat hseg hns
        simp only [loadRow] at hflat
        have hap := List.pairwise_cons.mp hseg.apart
        have hseg' : Segments rowSize buf₁.length (rows'.map BandRow.rhs) := by
          rw [hrhs, hframe.length]
          exact ⟨hap.2, fun a ha => hseg.inside a (List.mem_cons_of_mem _ ha)⟩
        obtain ⟨rest', buf', hflat', rfl, hframe'⟩ := ih hseg' hrest
        rw [hrhs] at hframe'
        refine ⟨rest'.map fun rest => (row, row.start + rbLead row.bits bandWidth) :: rest, buf',
          ?_, ?_, (hframe.trans hframe').mono fun b hb => ?_⟩
        · rw [if_neg hlead]
          simp only [StateT.run_bind, hflat, ok_bind, hflat']
          rfl
        · have hrow : loadRow rowSize buf' row = loadRow rowSize buf row := by
            rw [loadRow_frame hframe' hap.1, loadRow_frame hframe hap.1]
          obtain rfl : _ = nested := by simpa using hret
          rw [Option.map_map]
          congr 1
          funext rest
          simp only [Function.comp, List.map_cons, hrow]
          rfl
        · rcases List.mem_append.mp hb with hb | hb <;> exact List.mem_cons_of_mem _ hb

theorem sumBand_flat {table : List (List Block)} (h : Shape columns rowSize table) {start : ℕ}
    (bits : RBBits) (p : ℕ) {sum : List Block} (hsum : sum.length = rowSize) (n : ℕ)
    (hfit : start + n ≤ columns) :
    sumBand n start bits p
      (fun sum col => rbXorPtr sum (slice table.flatten (col * rowSize) rowSize) rowSize) sum =
    sumBand n start bits p (fun sum col => rbXor sum (table.getD col [])) sum := by
  induction n with
  | zero => rfl
  | succ n ih =>
    have hfit' : start + n ≤ columns := by omega
    obtain ⟨s, hrun, hlen, -⟩ := sumBand_spec h bits p hsum n hfit'
    have hc : start + n < table.length := by rw [h.length]; omega
    have hcol := h.width _ (List.getElem_mem hc)
    rw [sumBand_succ, sumBand_succ, ih hfit', hrun, ok_bind, ok_bind,
      slice_flatten h.width hc, List.getD_eq_getElem _ _ hc, rbXorPtr, rbXor, hlen, hcol,
      List.take_of_length_le hcol.le]
    simp

/-- A loop over rows of type `ρ` that settles in a flat table what the back fill settles in the
table of rows. -/
theorem foldrM_backFill {ρ : Type} {load : ρ → RBRow}
    {step : ρ × ℕ → List Block → Except Err (List Block)} {reduced : List (ρ × ℕ)}
    {table T : List (List Block)} (htable : Shape columns rowSize table)
    (hok : ∀ e ∈ reduced, RowOk columns bandWidth rowSize (load e.1) ∧ e.2 < columns)
    (hstep : ∀ e ∈ reduced, ∀ (T : List (List Block)) (s : List Block),
      sumBand bandWidth (load e.1).start (load e.1).bits e.2
        (fun sum col => rbXorPtr sum (slice T.flatten (col * rowSize) rowSize) rowSize)
        (load e.1).rhs = .ok s → s.length = rowSize →
      step e T.flatten = .ok (splice T.flatten (e.2 * rowSize) s))
    (hrun : backFill bandWidth (reduced.map fun e => (load e.1, e.2)) table = .ok T) :
    reduced.foldrM step table.flatten = .ok T.flatten ∧ Shape columns rowSize T := by
  induction reduced generalizing T with
  | nil =>
    obtain rfl : table = T := by simpa [backFill] using hrun
    exact ⟨rfl, htable⟩
  | cons e reduced ih =>
    rw [List.map_cons, backFill_cons] at hrun
    obtain ⟨T₁, hT₁, hrun⟩ := bind_eq_ok.mp hrun
    obtain ⟨s, hs, hrun⟩ := bind_eq_ok.mp hrun
    obtain rfl : T₁.set e.2 s = T := by simpa using hrun
    obtain ⟨hflat, hshape⟩ := ih (fun e he => hok e (by simp [he]))
      (fun e he => hstep e (by simp [he])) hT₁
    obtain ⟨hrow, hp⟩ := hok e (by simp)
    obtain ⟨s', hs', hlen, -⟩ :=
      sumBand_spec hshape (load e.1).bits e.2 hrow.width bandWidth hrow.fits
    obtain rfl : s' = s := Except.ok.inj (hs'.symm.trans hs)
    have hsum := sumBand_flat hshape (load e.1).bits e.2 hrow.width bandWidth hrow.fits
    refine ⟨?_, hshape.set _ hlen⟩
    rw [← splice_flatten hshape.width (by rw [hshape.length]; exact hp) hlen, List.foldrM_cons,
      hflat, ok_bind, hstep e (by simp) T₁ s' (hsum.trans hs') hlen]

/-- The flat back fill writes the nested table row after row. -/
theorem backFillFlat_eq {buf : List Block} {reduced : List (RBFlatRow × ℕ)}
    {table T : List (List Block)} (htable : Shape columns rowSize table)
    (hok : ∀ e ∈ reduced, RowOk columns bandWidth rowSize (loadRow rowSize buf e.1) ∧
      e.2 < columns)
    (hrun : backFill bandWidth (reduced.map fun e => (loadRow rowSize buf e.1, e.2)) table =
      .ok T) :
    backFillFlat bandWidth rowSize buf reduced table.flatten = .ok T.flatten := by
  refine (foldrM_backFill htable hok (fun e _ T s hs _ => ?_) hrun).1
  simp only [loadRow] at hs
  simp only [hs, ok_bind, pure_eq_ok]

/-- So does the back fill with right-hand sides that the rows own. -/
theorem backFillOwned_eq {reduced : List (RBRow × ℕ)} {table T : List (List Block)}
    (htable : Shape columns rowSize table)
    (hok : ∀ e ∈ reduced, RowOk columns bandWidth rowSize e.1 ∧ e.2 < columns)
    (hrun : backFill bandWidth reduced table = .ok T) :
    backFillOwned bandWidth rowSize reduced table.flatten = .ok T.flatten := by
  have hmap : reduced.map (fun e => (id e.1, e.2)) = reduced := by simp
  rw [← hmap] at hrun
  refine (foldrM_backFill htable hok (fun e _ T s hs hlen => ?_) hrun).1
  simp only [id] at hs
  simp only [hs, ok_bind, pure_eq_ok, List.take_of_length_le hlen.le]

section Encode
variable {F : Type} {env : Env} {params : RBParams F}

theorem segments_multiples (rowSize n : ℕ) :
    Segments rowSize (n * rowSize) ((List.range n).map (· * rowSize)) := by
  refine ⟨?_, ?_⟩
  · rw [List.pairwise_map]
    refine List.pairwise_lt_range.imp fun {a b} hab => .inl ?_
    rw [← Nat.succ_mul]
    exact Nat.mul_le_mul_right _ hab
  · intro a ha
    obtain ⟨i, hi, rfl⟩ := List.mem_map.mp ha
    rw [← Nat.succ_mul]
    exact Nat.mul_le_mul_right _ (List.mem_range.mp hi)

theorem Segments.perm {len : ℕ} {offs offs' : List ℕ} (h : Segments rowSize len offs)
    (hp : offs'.Perm offs) : Segments rowSize len offs' :=
  ⟨(hp.pairwise_iff Apart.symm).mpr h.apart, fun a ha => h.inside a (hp.subset ha)⟩

theorem map_loadRow_keyRow (env : Env) (params : RBParams F) (columns bandWidth rowSize : ℕ)
    (setKeys setValues : List Block) :
    (sortRows (setKeys.mapIdx fun i key =>
      keyRow env params columns bandWidth key (i * rowSize))).map (loadRow rowSize setValues) =
    sortRows (List.zipWith (keyRow env params columns bandWidth) setKeys
      (rowsOf setValues rowSize setKeys.length)) := by
  have hmap : (setKeys.mapIdx fun i key =>
      keyRow env params columns bandWidth key (i * rowSize)).map (loadRow rowSize setValues) =
      List.zipWith (keyRow env params columns bandWidth) setKeys
        (rowsOf setValues rowSize setKeys.length) := by
    apply List.ext_getElem (by simp [rowsOf])
    intro i hi hi'
    simp [rowsOf, loadRow, keyRow]
  rw [← hmap]
  exact List.map_insertionSort _ _ _ _ fun a _ b _ => Iff.rfl

variable [Double F]

/-- The flat encoder returns the flag of the nested encoder and its table row after row;
a failed encoding leaves the output buffer alone. -/
theorem rbEncodeFlat_eq {setKeys setValues : List Block} (okvsTable : List Block)
    (hpos : 0 < rowSize) (hlen : setValues.length = setKeys.length * rowSize) :
    rbEncodeFlat env setKeys setValues rowSize okvsTable params =
      (rbEncode env setKeys (rowsOf setValues rowSize setKeys.length) [] params).map fun r =>
        (r.1, if r.1 then r.2.flatten else okvsTable) := by
  by_cases hne : setKeys = []
  · simp [rbEncodeFlat, rbEncode, hne, Except.map]
  cases hinfo : rbInfoOf env setKeys.length params with
  | error e =>
    simp [rbEncodeFlat, rbEncode, hne, hinfo, hpos.ne', hlen, Except.map]
  | ok info =>
    obtain ⟨h1, hbw, hc⟩ := rbInfoOf_bounds hinfo
    have : NeZero info.columns := ⟨by omega⟩
    have hlen' : setKeys.length = (rowsOf setValues rowSize setKeys.length).length := by
      simp [rowsOf]
    have hw := length_of_mem_rowsOf hlen
    have hload := map_loadRow_keyRow env params info.columns info.bandWidth rowSize setKeys setValues
    obtain ⟨nested, hrun, -, hsome⟩ := eliminate_keyRows env params h1 hbw hc setKeys hw
    rw [rbEncode_eq [] hne hinfo hlen' hw hpos, hrun, ok_bind]
    set rows := sortRows (setKeys.mapIdx fun i key =>
      keyRow env params info.columns info.bandWidth key (i * rowSize)) with hdef
    rw [← hload] at hrun
    have hseg : Segments rowSize setValues.length (rows.map BandRow.rhs) := by
      rw [hlen]
      refine (segments_multiples rowSize setKeys.length).perm ?_
      have hrhs : (setKeys.mapIdx fun i key =>
          keyRow env params info.columns info.bandWidth key (i * rowSize)).map BandRow.rhs =
          (List.range setKeys.length).map (· * rowSize) := by
        apply List.ext_getElem (by simp)
        intro i hi hi'
        simp [keyRow]
      rw [← hrhs]
      exact (List.perm_insertionSort _ _).map _
    obtain ⟨reduced, buf', hflat, rfl, -⟩ := eliminate_flat _ hseg hrun
    rw [List.length_map] at hflat
    unfold rbEncodeFlat
    rw [if_neg (by simpa using hne), hinfo, ok_bind,
      rbRowsFlat_eq_ok env params hbw hc hne hlen hpos, ok_bind, ← hdef]
    simp only [hpos.ne', hlen, ne_eq, not_true_eq_false, or_self, throwIf_false, ok_bind, hflat]
    cases reduced with
    | none => rfl
    | some l =>
      have hs := hsome _ rfl
      obtain ⟨T, hT, -⟩ := backFill_spec hs.ok hs.echelon
      have hok : ∀ e ∈ l, RowOk info.columns info.bandWidth rowSize (loadRow rowSize buf' e.1) ∧
          e.2 < info.columns := fun e he => hs.ok (loadRow rowSize buf' e.1, e.2)
        (List.mem_map_of_mem (f := fun e => (loadRow rowSize buf' e.1, e.2)) he)
      have hfill := backFillFlat_eq (shape_replicate info.columns rowSize) hok hT
      rw [List.flatten_replicate_replicate] at hfill
      simp [hfill, hT, Except.map]

/-- The flat encoder on rows written one after another. -/
theorem rbEncodeFlat_flatten {setKeys : List Block} {setValues : List (List Block)}
    (okvsTable : List Block) (hpos : 0 < rowSize) (hlen : setKeys.length = setValues.length)
    (hw : ∀ v ∈ setValues, v.length = rowSize) :
    rbEncodeFlat env setKeys setValues.flatten rowSize okvsTable params =
      (rbEncode env setKeys setValues [] params).map fun r =>
        (r.1, if r.1 then r.2.flatten else okvsTable) := by
  have hsize : setValues.flatten.length = setKeys.length * rowSize := by
    rw [length_flatten_rows hw, hlen]
  rw [rbEncodeFlat_eq okvsTable hpos hsize, hlen, rowsOf_flatten hw]

end Encode

end PqPsi.Okvs
