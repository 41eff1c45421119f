import PqPsi.Kemeleon.CipherImage

/-!
# The distribution of encoded ciphertexts

Encoding the compression of uniform coefficients gives every code string with
the same probability. In the first part the choice of a preimage undoes the
uneven classes of the compression. In the second part zero is the only class
of a different size, and rejecting zeros with probability one over that size
makes it count as much as the others.
-/
namespace PqPsi.Kemeleon
open Lib Lib.BitStream Lib.Draws
open scoped Classical NNReal ENNReal

/-- One call of the encoder on the compression of uniform coefficients. -/
def encodeUniform (mode : Mode) : Draws Err (Option (List Byte)) := do
  let info := makeInfo mode
  let u ← draws "empty range" q info.vecSize
  let v ← draws "empty range" q n
  encodeCipher mode (packBits (u.map (compressValue · info.du)) info.du ++
    packBits (v.map (compressValue · info.dv)) info.dv)

section Rejection
variable {bitsPerValue : ℕ}

/-- The probability that an entry of the second part is kept. -/
noncomputable def keep (bitsPerValue want : ℕ) : ℝ≥0 :=
  if want = 0 then
    ((q + 2 ^ bitsPerValue - 1) / 2 ^ bitsPerValue - 1 : ℕ) /
      ((q + 2 ^ bitsPerValue - 1) / 2 ^ bitsPerValue : ℕ)
  else 1

theorem prob_shouldRejectZero (hbits : bitsPerValue ≤ 11) :
    (shouldRejectZero bitsPerValue).prob (.ok false) = keep bitsPerValue 0 := by
  obtain ⟨p, hp, hp2, hreject⟩ := shouldRejectZero_eq hbits
  rw [hreject, prob_uniform_bind (by omega), keep, if_pos rfl, ← hp]
  obtain ⟨m, rfl⟩ : ∃ m, p = m + 1 := ⟨p - 1, by omega⟩
  rw [Finset.sum_range_succ']
  simp [prob_pure]

theorem prob_rejectLoop (hbits : bitsPerValue ≤ 11) (src : List Byte) (is : List ℕ) :
    (rejectLoop src bitsPerValue is).prob (.ok false) =
      (is.map fun i => keep bitsPerValue (readBits src bitsPerValue (i * bitsPerValue))).prod := by
  induction is with
  | nil => simp [rejectLoop, prob_pure]
  | cons i is ih =>
    rw [rejectLoop, prob_bind_single (a := false)]
    · rw [List.map_cons, List.prod_cons]
      simp only [Bool.false_eq_true, if_false, ih]
      congr 1
      split_ifs with hzero
      · rw [hzero, prob_shouldRejectZero hbits]
      · rw [keep, if_neg hzero, prob_pure, if_pos rfl]
    · intro b _ hb
      have htrue : b = true := by simpa using hb
      simp [htrue, prob_pure]

theorem prob_rejectZeroEntries (hbits : bitsPerValue ≤ 11) (src : List Byte) (count : ℕ) :
    (rejectZeroEntries src bitsPerValue count).prob (.ok false) =
      ((unpackBits src bitsPerValue count).map (keep bitsPerValue)).prod := by
  rw [rejectZeroEntries, prob_rejectLoop hbits, unpackBits, List.map_map]
  rfl

/-- Keeping a zero makes up for the larger class it stands for. -/
theorem class_mul_keep {h want : ℕ} (hh : 2 ^ bitsPerValue * h = 1664) (hpos : 0 < bitsPerValue)
    (hbits : bitsPerValue ≤ 11) (hwant : want < 2 ^ bitsPerValue) :
    ((preimages bitsPerValue want).length : ℝ≥0) * keep bitsPerValue want =
      (q / 2 ^ bitsPerValue : ℕ) := by
  rw [length_preimages_eq hh hpos hbits hwant, keep]
  by_cases hzero : want = 0
  · have htwo : 2 ≤ 2 ^ bitsPerValue := Nat.pow_le_pow_right two_pos hpos
    have hceil : (q + 2 ^ bitsPerValue - 1) / 2 ^ bitsPerValue = q / 2 ^ bitsPerValue + 1 := by
      have hq : q = 2 ^ bitsPerValue * (2 * h) + 1 := by
        rw [Nat.mul_left_comm, hh]
        rfl
      have hsum : 2 ^ bitsPerValue * (2 * h) + 1 + 2 ^ bitsPerValue - 1 =
          2 ^ bitsPerValue * (2 * h + 1) := by
        rw [Nat.mul_succ]
        omega
      rw [hq, hsum, Nat.mul_div_cancel_left _ (by omega), Nat.mul_add_div (by omega),
        Nat.div_eq_of_lt (by omega), Nat.add_zero]
    have hne : ((q / 2 ^ bitsPerValue + 1 : ℕ) : ℝ≥0) ≠ 0 :=
      Nat.cast_ne_zero.mpr (Nat.succ_ne_zero _)
    rw [if_pos hzero, if_pos hzero, hceil, Nat.add_sub_cancel, mul_div_assoc',
      mul_div_cancel_left₀ _ hne]
  · rw [if_neg hzero, if_neg hzero, mul_one, Nat.add_zero]

end Rejection

section Weights
variable {bitsPerValue : ℕ}

theorem card_class (bitsPerValue want : ℕ) :
    ((Finset.range q).filter fun x => compressValue x bitsPerValue = want).card =
      (preimages bitsPerValue want).length := by
  symm
  apply length_preimages_eq_card
  intro x
  rw [Finset.mem_filter, Finset.mem_range]

/-- The probability that `y` is picked for the compression of `x`. -/
noncomputable def pickWeight (bitsPerValue y x : ℕ) : ℝ≥0 :=
  if compressValue x bitsPerValue = compressValue y bitsPerValue then
    ((preimages bitsPerValue (compressValue y bitsPerValue)).length : ℝ≥0)⁻¹
  else 0

theorem prob_pick (hpos : 0 < bitsPerValue) (hbits : bitsPerValue ≤ 11) {y : ℕ} (hy : y < q)
    (zero : Err) (x : ℕ) :
    (choice zero (preimages bitsPerValue (compressValue x bitsPerValue))).prob (.ok y) =
      pickWeight bitsPerValue y x := by
  rw [prob_choice (length_preimages_pos hpos hbits (compressValue_lt _ _)) (nodup_preimages _ _),
    pickWeight]
  by_cases hxy : compressValue x bitsPerValue = compressValue y bitsPerValue
  · rw [if_pos hxy, hxy, if_pos (mem_preimages.mpr ⟨hy, rfl⟩)]
  · rw [if_neg hxy, if_neg]
    intro hmem
    exact hxy (mem_preimages.mp hmem).2.symm

/-- The picks undo the compression on average. -/
theorem sum_pickWeight (hpos : 0 < bitsPerValue) (hbits : bitsPerValue ≤ 11) (y : ℕ) :
    ∑ x ∈ Finset.range q, pickWeight bitsPerValue y x = 1 := by
  have hclass := length_preimages_pos hpos hbits (compressValue_lt y bitsPerValue)
  have hne : ((preimages bitsPerValue (compressValue y bitsPerValue)).length : ℝ≥0) ≠ 0 :=
    Nat.cast_ne_zero.mpr hclass.ne'
  simp only [pickWeight]
  rw [← Finset.sum_filter, Finset.sum_const, card_class, nsmul_eq_mul, mul_inv_cancel₀ hne]

/-- The probability that `x` compresses to `want` and is kept. -/
noncomputable def keepWeight (bitsPerValue want x : ℕ) : ℝ≥0 :=
  if compressValue x bitsPerValue = want then keep bitsPerValue want else 0

theorem sum_keepWeight {h want : ℕ} (hh : 2 ^ bitsPerValue * h = 1664) (hpos : 0 < bitsPerValue)
    (hbits : bitsPerValue ≤ 11) (hwant : want < 2 ^ bitsPerValue) :
    ∑ x ∈ Finset.range q, keepWeight bitsPerValue want x = (q / 2 ^ bitsPerValue : ℕ) := by
  simp only [keepWeight]
  rw [← Finset.sum_filter, Finset.sum_const, card_class, nsmul_eq_mul,
    class_mul_keep hh hpos hbits hwant]

theorem prod_keepWeight {ws v : List ℕ} (hlen : ws.length = v.length) :
    (List.zipWith (fun f x => f x) (ws.map (keepWeight bitsPerValue)) v).prod =
      if v.map (compressValue · bitsPerValue) = ws then (ws.map (keep bitsPerValue)).prod else 0 := by
  induction ws generalizing v with
  | nil =>
    cases v with
    | nil => simp
    | cons x v => simp at hlen
  | cons w ws ih =>
    cases v with
    | nil => simp at hlen
    | cons x v =>
      simp only [List.map_cons, List.zipWith_cons_cons, List.prod_cons, List.cons.injEq,
        ih (by simpa using hlen), keepWeight]
      by_cases hx : compressValue x bitsPerValue = w
      · simp [hx]
      · simp [hx]

theorem prod_pickWeight (hpos : 0 < bitsPerValue) (hbits : bitsPerValue ≤ 11) {y u : List ℕ}
    (hy : ∀ t ∈ y, t < q) (hlen : u.length = y.length) (zero : Err) :
    (List.zipWith (fun w t => (choice zero (preimages bitsPerValue w)).prob (.ok t))
      (u.map (compressValue · bitsPerValue)).reverse y.reverse).prod =
      (List.zipWith (fun f x => f x) (y.map (pickWeight bitsPerValue)) u).prod := by
  rw [← List.reverse_zipWith (by rw [List.length_map, hlen]), List.prod_reverse]
  congr 1
  induction u generalizing y with
  | nil => simp
  | cons x u ih =>
    cases y with
    | nil => simp at hlen
    | cons t y =>
      rw [List.map_cons, List.map_cons, List.zipWith_cons_cons, List.zipWith_cons_cons,
        prob_pick hpos hbits (hy t (by simp)),
        ih (fun t' ht' => hy t' (by simp [ht'])) (by simpa using hlen)]

end Weights

section Experiment
variable {mode : Mode} {r c2 : List Byte}

/-- After the picks, one vector and one second part lead to the code. -/
theorem prob_finishCipher {c2' : List Byte} {picked : Option (List Byte)}
    (hlen : ∀ r', picked = some r' → r'.length = r.length) :
    (finishCipher mode c2' picked).prob (.ok (some (r ++ c2))) =
      if picked = some r ∧ c2' = c2 then
        ((unpackBits c2 (makeInfo mode).dv n).map (keep (makeInfo mode).dv)).prod
      else 0 := by
  have hdv : (makeInfo mode).dv ≤ 11 := by cases mode <;> decide
  split_ifs with h
  · obtain ⟨rfl, rfl⟩ := h
    rw [finishCipher, prob_bind_single (a := false), prob_rejectZeroEntries hdv]
    · simp [prob_pure]
    · intro b _ hb
      have htrue : b = true := by simpa using hb
      simp [htrue, prob_pure]
  · apply prob_eq_zero
    rw [outcome_finishCipher]
    rintro ⟨r', hr', heq⟩
    obtain ⟨rfl, rfl⟩ := List.append_inj heq (hlen r' hr').symm
    exact h ⟨hr', rfl⟩

/-- One code string, seen from the coefficients that the ciphertext compresses. -/
theorem prob_encodeCipher_pack {y u v : List ℕ} (hr : r.length = (makeInfo mode).vecBytes)
    (hfit : ofBytes r < 2 ^ (makeInfo mode).vecBits) (hc2 : c2.length = (makeInfo mode).c2Bytes)
    (hylen : y.length = (makeInfo mode).vecSize) (hy : ∀ t ∈ y, t < q)
    (hval : Nat.ofDigits q y = ofBytes r) (hu : u.length = (makeInfo mode).vecSize)
    (hv : v.length = n) :
    (encodeCipher mode (packBits (u.map (compressValue · (makeInfo mode).du)) (makeInfo mode).du ++
      packBits (v.map (compressValue · (makeInfo mode).dv)) (makeInfo mode).dv)).prob
        (.ok (some (r ++ c2))) =
      (List.zipWith (fun f x => f x) (y.map (pickWeight (makeInfo mode).du)) u).prod *
        (List.zipWith (fun f x => f x) ((unpackBits c2 (makeInfo mode).dv n).map
          (keepWeight (makeInfo mode).dv)) v).prod := by
  obtain ⟨hpos, hbits⟩ := du_bounds mode
  have hdv := dv_pos mode
  have h8₁ := eight_mul_c1Bytes mode
  have h8₂ := eight_mul_c2Bytes mode
  have hc1 : (packBits (u.map (compressValue · (makeInfo mode).du)) (makeInfo mode).du).length =
      (makeInfo mode).c1Bytes := by
    rw [length_packBits, List.length_map, hu]
    omega
  have hc2' : (packBits (v.map (compressValue · (makeInfo mode).dv)) (makeInfo mode).dv).length =
      (makeInfo mode).c2Bytes := by
    rw [length_packBits, List.length_map, hv]
    omega
  have hunpack := unpackBits_packBits_compress hpos u
  rw [hu] at hunpack
  have hsecond : packBits (v.map (compressValue · (makeInfo mode).dv)) (makeInfo mode).dv = c2 ↔
      v.map (compressValue · (makeInfo mode).dv) = unpackBits c2 (makeInfo mode).dv n := by
    have hpackv := unpackBits_packBits_compress hdv v
    rw [hv] at hpackv
    constructor
    · intro h
      rw [← hpackv, h]
    · intro h
      rw [h, packBits_unpackBits hdv (by rw [hc2, h8₂])]
  have hexport : exportVec (Nat.ofDigits q y) (makeInfo mode).vecBits = some r :=
    exportVec_eq_some.mpr ⟨hr, hval.symm, hval ▸ hfit⟩
  have hlen : ∀ x r', exportVec x (makeInfo mode).vecBits = some r' → r'.length = r.length :=
    fun x r' h => (exportVec_eq_some.mp h).1.trans hr.symm
  rw [encodeCipher_eq hc1 hc2', hunpack, prob_mapM_bind_single _ y.reverse,
    prod_pickWeight hpos hbits hy (hu.trans hylen.symm), prob_finishCipher (hlen _),
    List.reverse_reverse, hexport]
  · simp only [true_and, hsecond]
    rw [prod_keepWeight (by rw [length_unpackBits, hv])]
  · rw [List.length_reverse, List.length_reverse, List.length_map, hu, hylen]
  · -- other picks are other digits, and give another integer
    intro vs hvs hne
    have hws : ∀ want ∈ (u.map (compressValue · (makeInfo mode).du)).reverse,
        want < 2 ^ (makeInfo mode).du := by
      intro want hw
      obtain ⟨x, -, rfl⟩ := List.mem_map.mp (List.mem_reverse.mp hw)
      exact compressValue_lt x _
    obtain ⟨hlt, hmap⟩ := (outcome_picks hpos hbits hws).mp hvs
    rw [prob_finishCipher (hlen _), if_neg]
    rintro ⟨hother, -⟩
    apply hne
    have hvslen : vs.reverse.length = y.length := by
      have hmaplen := congrArg List.length hmap
      rw [List.length_map, List.length_reverse, List.length_map, hu] at hmaplen
      rw [List.length_reverse, hmaplen, hylen]
    have heq := Nat.ofDigits_inj_of_len_eq (by decide) hvslen
      (fun t ht => hlt t (List.mem_reverse.mp ht)) hy
      ((exportVec_eq_some.mp hother).2.1.symm.trans hval.symm)
    rw [← heq, List.reverse_reverse]

theorem mean_pickWeight (y : List ℕ) (hylen : y.length = (makeInfo mode).vecSize) :
    mean q (makeInfo mode).vecSize (fun u =>
      (List.zipWith (fun f x => f x) (y.map (pickWeight (makeInfo mode).du)) u).prod) =
      (q : ℝ≥0)⁻¹ ^ (makeInfo mode).vecSize := by
  obtain ⟨hpos, hbits⟩ := du_bounds mode
  have hmean := mean_prod q (y.map (pickWeight (makeInfo mode).du))
  rw [List.length_map, hylen] at hmean
  rw [hmean, List.map_map, List.prod_eq_pow_card, List.length_map, hylen]
  intro a ha
  obtain ⟨t, -, rfl⟩ := List.mem_map.mp ha
  rw [Function.comp_apply, sum_pickWeight hpos hbits, one_div]

theorem mean_keepWeight (mode : Mode) (c2 : List Byte) :
    mean q n (fun v => (List.zipWith (fun f x => f x) ((unpackBits c2 (makeInfo mode).dv n).map
      (keepWeight (makeInfo mode).dv)) v).prod) =
      ((q / 2 ^ (makeInfo mode).dv : ℕ) / (q : ℝ≥0)) ^ n := by
  obtain ⟨h, hh⟩ : ∃ h, 2 ^ (makeInfo mode).dv * h = 1664 := by
    cases mode with
    | mlKem512 => exact ⟨104, rfl⟩
    | mlKem768 => exact ⟨104, rfl⟩
    | mlKem1024 => exact ⟨52, rfl⟩
  have hdv : (makeInfo mode).dv ≤ 11 := by cases mode <;> decide
  have hmean := mean_prod q ((unpackBits c2 (makeInfo mode).dv n).map
    (keepWeight (makeInfo mode).dv))
  rw [List.length_map, length_unpackBits] at hmean
  rw [hmean, List.map_map, List.prod_eq_pow_card, List.length_map, length_unpackBits]
  intro a ha
  obtain ⟨want, hw, rfl⟩ := List.mem_map.mp ha
  rw [Function.comp_apply, sum_keepWeight hh (dv_pos mode) hdv (unpackBits_lt want hw)]

end Experiment

/-- Encoded ciphertexts are uniform: every code string has the same probability. -/
theorem encodeUniform_apply (mode : Mode) {r c2 : List Byte}
    (hr : r.length = (makeInfo mode).vecBytes) (hfit : ofBytes r < 2 ^ (makeInfo mode).vecBits)
    (hc2 : c2.length = (makeInfo mode).c2Bytes) :
    (encodeUniform mode).toPMF (.ok (some (r ++ c2))) =
      (q : ℝ≥0∞)⁻¹ ^ (256 * (makeInfo mode).k) *
        ((q / 2 ^ (makeInfo mode).dv : ℕ) / (q : ℝ≥0∞)) ^ 256 := by
  have hq : 0 < q := by decide
  have hqne : (q : ℝ≥0) ≠ 0 := Nat.cast_ne_zero.mpr hq.ne'
  have hsize : 256 * (makeInfo mode).k = (makeInfo mode).vecSize := by cases mode <;> rfl
  obtain ⟨y, hy⟩ := exists_decodeVec (two_pow_vecBits_le mode)
    (hr.trans (makeInfo_vecBytes mode)) hfit
  obtain ⟨-, -, hylen, hylt, hval⟩ := (decodeVec_eq_some (two_pow_vecBits_le mode)).mp hy
  have hprob : (encodeUniform mode).prob (.ok (some (r ++ c2))) =
      (q : ℝ≥0)⁻¹ ^ (makeInfo mode).vecSize *
        ((q / 2 ^ (makeInfo mode).dv : ℕ) / (q : ℝ≥0)) ^ n := by
    rw [encodeUniform, prob_draws_bind hq, ← mean_pickWeight y hylen, ← mean_mul]
    apply mean_congr
    intro u hu _
    rw [prob_draws_bind hq, mul_comm, ← mean_keepWeight mode c2, ← mean_mul]
    apply mean_congr
    intro v hv _
    rw [prob_encodeCipher_pack hr hfit hc2 hylen hylt hval hu hv, mul_comm]
  rw [toPMF_apply, hprob, hsize, ENNReal.coe_mul, ENNReal.coe_pow, ENNReal.coe_pow,
    ENNReal.coe_inv hqne, ENNReal.coe_div hqne, ENNReal.coe_natCast, ENNReal.coe_natCast, n]

theorem encodeUniform_apply_zeros :
    (encodeUniform .mlKem512).toPMF (.ok (some (List.replicate (makeInfo .mlKem512).vecBytes 0 ++
      List.replicate (makeInfo .mlKem512).c2Bytes 0))) =
      (q : ℝ≥0∞)⁻¹ ^ (256 * (makeInfo .mlKem512).k) *
        ((q / 2 ^ (makeInfo .mlKem512).dv : ℕ) / (q : ℝ≥0∞)) ^ 256 := by
  have hzero : ofBytes (List.replicate (makeInfo .mlKem512).vecBytes 0) <
      2 ^ (makeInfo .mlKem512).vecBits := by
    rw [ofBytes_lt_iff]
    intro p _
    exact bitAt_replicate_zero _ _
  exact encodeUniform_apply .mlKem512 List.length_replicate hzero List.length_replicate

end PqPsi.Kemeleon
