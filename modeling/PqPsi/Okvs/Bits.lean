import PqPsi.Okvs.Rows

/-!
# Bit-level meaning of the limb operations

Every operation on masks is described by what it does to bit `j` of the
256-bit string. The limb boundaries appear only in the proofs of this module.
-/
namespace PqPsi.Okvs

theorem rbBit_eq {bits : RBBits} {idx : ℕ} (h : idx / 64 < 4) :
    rbBit bits idx = (bits ⟨idx / 64, h⟩).getLsbD (idx % 64) := by
  rw [rbBit, dif_pos h, Bool.eq_iff_iff, bne_iff_ne, ne_eq, ← BitVec.toNat_inj]
  have ht : (bits ⟨idx / 64, h⟩ >>> (idx % 64) &&& 1#64).toNat =
      (bits ⟨idx / 64, h⟩).toNat / 2 ^ (idx % 64) % 2 := by
    simp [Nat.shiftRight_eq_div_pow, Nat.and_one_is_mod]
  rw [ht, BitVec.getLsbD, Nat.testBit_eq_decide_div_mod_eq]
  simp

theorem rbBit_of_ge {bits : RBBits} {idx : ℕ} (h : 256 ≤ idx) : rbBit bits idx = false := by
  rw [rbBit, dif_neg (by omega)]

theorem rbBit_limb (bits : RBBits) (i : Fin 4) {r : ℕ} (hr : r < 64) :
    rbBit bits (64 * i.val + r) = (bits i).getLsbD r := by
  have hdiv : (64 * i.val + r) / 64 = i.val := by omega
  have hmod : (64 * i.val + r) % 64 = r := by omega
  have hi := i.isLt
  rw [rbBit_eq (by omega), hmod]
  congr 2
  exact Fin.ext hdiv

/-- Two operations agree when they agree on each bit of each limb. -/
theorem rbBit_congr_limb {bits : RBBits} {P : ℕ → Bool} {j : ℕ} (hj : j < 256)
    (h : ∀ (i : Fin 4) (r : ℕ), r < 64 → (bits i).getLsbD r = P (64 * i.val + r)) :
    rbBit bits j = P j := by
  have hd : j = 64 * (⟨j / 64, by omega⟩ : Fin 4).val + j % 64 := by
    simp only
    omega
  rw [hd, rbBit_limb _ _ (by omega), h _ _ (by omega)]

theorem eq_of_rbBit {a b : RBBits} (h : ∀ j < 256, rbBit a j = rbBit b j) : a = b := by
  funext i
  apply BitVec.eq_of_getLsbD_eq
  intro r hr
  have hi := i.isLt
  rw [← rbBit_limb a i hr, ← rbBit_limb b i hr]
  exact h _ (by omega)

@[simp] theorem rbBit_zero (j : ℕ) : rbBit 0 j = false := by
  by_cases hj : j < 256
  · exact rbBit_congr_limb (P := fun _ => false) hj (by simp)
  · exact rbBit_of_ge (by omega)

private theorem getLsbD_lowMask {n : ℕ} (hn : n < 64) (r : ℕ) :
    ((1#64 <<< n) - 1#64).getLsbD r = decide (r < n) := by
  have hp : 2 ^ n < 2 ^ 64 := Nat.pow_lt_pow_right (by omega) hn
  have hpos : 0 < 2 ^ n := Nat.two_pow_pos n
  have ht : ((1#64 <<< n) - 1#64).toNat = 2 ^ n - 1 := by
    rw [BitVec.toNat_sub, BitVec.toNat_shiftLeft, BitVec.toNat_ofNat, Nat.one_mod_two_pow (by omega),
      Nat.shiftLeft_eq, one_mul, Nat.mod_eq_of_lt hp]
    omega
  rw [BitVec.getLsbD, ht, Nat.testBit_two_pow_sub_one]

theorem rbTrimBits_eq_ok (bits : RBBits) {width : ℕ} (h : width ≤ 256) :
    ∃ t, rbTrimBits bits width = .ok t ∧
      ∀ j, rbBit t j = (decide (j < width) && rbBit bits j) := by
  unfold rbTrimBits
  rw [if_neg (by omega)]
  split_ifs with hw
  · refine ⟨bits, rfl, fun j => ?_⟩
    by_cases hj : j < 256
    · simp [hw, hj]
    · simp [rbBit_of_ge (by omega : 256 ≤ j)]
  · refine ⟨_, rfl, fun j => ?_⟩
    by_cases hj : j < 256
    · refine rbBit_congr_limb (P := fun j => decide (j < width) && rbBit bits j) hj ?_
      intro i r hr
      simp only [rbBit_limb bits i hr]
      have hmask := getLsbD_lowMask (Nat.mod_lt width (by omega : 64 > 0)) r
      by_cases hr0 : width % 64 = 0
      · simp only [hr0, ne_eq, not_true_eq_false, false_and, if_false, Nat.add_zero]
        split_ifs with h1
        · rw [decide_eq_false (by omega), BitVec.getLsbD_zero, Bool.false_and]
        · rw [decide_eq_true (by omega), Bool.true_and]
      · simp only [hr0, ne_eq, not_false_eq_true, true_and, if_true]
        split_ifs with h1 h2
        · rw [decide_eq_false (by omega), BitVec.getLsbD_zero, Bool.false_and]
        · rw [BitVec.getLsbD_and, hmask, Bool.and_comm]
          congr 1
          rw [decide_eq_decide]
          omega
        · rw [decide_eq_true (by omega), Bool.true_and]
    · rw [rbBit_of_ge (by omega), rbBit_of_ge (by omega), Bool.and_false]

theorem rbBit_zeroBelow (bits : RBBits) (idx j : ℕ) :
    rbBit (rbZeroBelow bits idx) j = (decide (idx ≤ j) && rbBit bits j) := by
  by_cases hj : j < 256
  · refine rbBit_congr_limb (P := fun j => decide (idx ≤ j) && rbBit bits j) hj ?_
    intro i r hr
    simp only [rbBit_limb bits i hr, rbZeroBelow]
    split_ifs with h1 h2
    · rw [decide_eq_false (by omega), BitVec.getLsbD_zero, Bool.false_and]
    · rw [BitVec.getLsbD_and, BitVec.getLsbD_not, getLsbD_lowMask (by omega), Bool.and_comm]
      congr 1
      rw [← decide_not, decide_eq_true hr, Bool.true_and, decide_eq_decide]
      omega
    · rw [decide_eq_true (by omega), Bool.true_and]
  · rw [rbBit_of_ge (by omega), rbBit_of_ge (by omega), Bool.and_false]

theorem getLsbD_orLimb (out : RBBits) (dst : ℕ) (x : U64) (k : Fin 4) (r : ℕ) :
    (orLimb out dst x k).getLsbD r = ((out k).getLsbD r || (decide (k.val = dst) && x.getLsbD r)) := by
  unfold orLimb
  split_ifs with h <;> simp [h]

/-- A loop whose turns only set bits sets a bit exactly when some turn does. -/
theorem getLsbD_foldl_or {step : RBBits → Fin 4 → RBBits} {sets : Fin 4 → Fin 4 → ℕ → Bool}
    (hstep : ∀ out i k r, r < 64 →
      (step out i k).getLsbD r = ((out k).getLsbD r || sets i k r))
    (l : List (Fin 4)) (out : RBBits) (k : Fin 4) {r : ℕ} (hr : r < 64) :
    (l.foldl step out k).getLsbD r = ((out k).getLsbD r || l.any fun i => sets i k r) := by
  induction l generalizing out with
  | nil => simp
  | cons i l ih => rw [List.foldl_cons, ih, hstep _ _ _ _ hr, List.any_cons, Bool.or_assoc]

/-- A turn of the left shift: limb `i` reaches limb `i + shift / 64` with its low bits and the next
one with its high bits. -/
theorem getLsbD_shiftLeftLimb (bits : RBBits) (shift : ℕ) (out : RBBits) (i k : Fin 4) (r : ℕ)
    (hr : r < 64) :
    (shiftLeftLimb bits (shift / 64) (shift % 64) out i k).getLsbD r =
      ((out k).getLsbD r ||
        (decide (k.val = i.val + shift / 64 ∧ shift % 64 ≤ r) &&
            (bits i).getLsbD (r - shift % 64) ||
          decide (k.val = i.val + shift / 64 + 1 ∧ shift % 64 ≠ 0) &&
            (bits i).getLsbD (64 - shift % 64 + r))) := by
  unfold shiftLeftLimb
  split_ifs with h0 hb
  · simp [h0]
  · rw [getLsbD_orLimb, getLsbD_orLimb, BitVec.getLsbD_shiftLeft, BitVec.getLsbD_ushiftRight,
      Bool.or_assoc]
    by_cases h1 : r < shift % 64
    · simp [h1, hb, not_le.mpr h1]
    · simp [h1, hb, hr, not_lt.mp h1]
  · rw [getLsbD_orLimb, BitVec.getLsbD_shiftLeft]
    simp only [not_not] at hb
    simp [hb, hr]

theorem rbBit_shiftLeft (bits : RBBits) {shift j : ℕ} (hj : j < 256) :
    rbBit (rbShiftLeft bits shift) j = (decide (shift ≤ j) && rbBit bits (j - shift)) := by
  unfold rbShiftLeft
  split_ifs with hs
  · rw [rbBit_zero, decide_eq_false (by omega), Bool.false_and]
  refine rbBit_congr_limb (P := fun j => decide (shift ≤ j) && rbBit bits (j - shift)) hj ?_
  intro k r hr
  rw [getLsbD_foldl_or (getLsbD_shiftLeftLimb bits shift) _ _ _ hr]
  have hk := k.isLt
  simp only [Pi.zero_apply]
  rw [Bool.eq_iff_iff, BitVec.ofNat_eq_ofNat, BitVec.getLsbD_zero, Bool.false_or, List.any_eq_true]
  simp only [List.mem_finRange, true_and, Bool.or_eq_true, Bool.and_eq_true, decide_eq_true_eq]
  constructor
  · rintro ⟨i, ⟨⟨hi, hle⟩, hbit⟩ | ⟨⟨hi, hne⟩, hbit⟩⟩
    · refine ⟨by omega, ?_⟩
      rw [← rbBit_limb bits i (by omega)] at hbit
      convert hbit using 2
      omega
    · have hlt : 64 - shift % 64 + r < 64 := BitVec.lt_of_getLsbD hbit
      refine ⟨by omega, ?_⟩
      rw [← rbBit_limb bits i hlt] at hbit
      convert hbit using 2
      omega
  · rintro ⟨hle, hbit⟩
    by_cases hc : shift % 64 ≤ r
    · refine ⟨⟨k.val - shift / 64, by omega⟩, .inl ⟨⟨by simp only; omega, hc⟩, ?_⟩⟩
      rw [← rbBit_limb bits _ (by omega)]
      convert hbit using 2
      simp only
      omega
    · refine ⟨⟨k.val - shift / 64 - 1, by omega⟩, .inr ⟨⟨by simp only; omega, by omega⟩, ?_⟩⟩
      rw [← rbBit_limb bits _ (by omega)]
      convert hbit using 2
      simp only
      omega

/-- A turn of the right shift: limb `i` fills limb `i - shift / 64`, with bits of its own and of the
limb above it. -/
theorem getLsbD_shiftRightLimb (bits : RBBits) (shift : ℕ) (out : RBBits) (i k : Fin 4) (r : ℕ)
    (hr : r < 64) :
    (shiftRightLimb bits (shift / 64) (shift % 64) out i k).getLsbD r =
      ((out k).getLsbD r || (decide (i.val = k.val + shift / 64) &&
        rbBit bits (64 * i.val + (shift % 64 + r)))) := by
  have hi := i.isLt
  unfold shiftRightLimb
  by_cases h0 : i.val < shift / 64
  · rw [if_pos h0, decide_eq_false (by omega), Bool.false_and, Bool.or_false]
  have hdst : decide (k.val = i.val - shift / 64) = decide (i.val = k.val + shift / 64) := by
    rw [decide_eq_decide]
    omega
  rw [if_neg h0]
  by_cases hc : shift % 64 + r < 64
  · -- the bit comes from limb `i` itself
    rw [rbBit_limb bits i hc]
    split_ifs with hb
    · rw [getLsbD_orLimb, getLsbD_orLimb, BitVec.getLsbD_shiftLeft, BitVec.getLsbD_ushiftRight,
        decide_eq_true (by omega : r < 64 - shift % 64), hdst]
      simp
    · rw [getLsbD_orLimb, BitVec.getLsbD_ushiftRight, hdst]
  · -- the bit comes from the next limb, if there is one
    have hlow : (bits i).getLsbD (shift % 64 + r) = false := BitVec.getLsbD_of_ge _ _ (by omega)
    split_ifs with hb
    · have hnext : 64 * i.val + (shift % 64 + r) =
          64 * (⟨i.val + 1, hb.2⟩ : Fin 4).val + (r - (64 - shift % 64)) := by
        simp only
        omega
      rw [getLsbD_orLimb, getLsbD_orLimb, BitVec.getLsbD_shiftLeft, BitVec.getLsbD_ushiftRight,
        hlow, hdst, hnext, rbBit_limb bits _ (by omega),
        decide_eq_false (by omega : ¬ r < 64 - shift % 64)]
      simp [hr]
    · rw [getLsbD_orLimb, BitVec.getLsbD_ushiftRight, hlow, rbBit_of_ge (by omega)]
      simp

theorem rbBit_shiftRight (bits : RBBits) {shift j : ℕ} (hj : j < 256) :
    rbBit (rbShiftRight bits shift) j = rbBit bits (j + shift) := by
  unfold rbShiftRight
  split_ifs with hs
  · rw [rbBit_zero, rbBit_of_ge (by omega)]
  refine rbBit_congr_limb (P := fun j => rbBit bits (j + shift)) hj ?_
  intro k r hr
  rw [getLsbD_foldl_or (getLsbD_shiftRightLimb bits shift) _ _ _ hr]
  have hk := k.isLt
  simp only [Pi.zero_apply]
  rw [Bool.eq_iff_iff, BitVec.ofNat_eq_ofNat, BitVec.getLsbD_zero, Bool.false_or, List.any_eq_true]
  simp only [List.mem_finRange, true_and, Bool.and_eq_true, decide_eq_true_eq]
  constructor
  · rintro ⟨i, hi, hbit⟩
    convert hbit using 2
    omega
  · intro hbit
    have hlt : 64 * k.val + r + shift < 256 := by
      by_contra hge
      rw [rbBit_of_ge (by omega)] at hbit
      exact absurd hbit (by simp)
    refine ⟨⟨k.val + shift / 64, by omega⟩, rfl, ?_⟩
    convert hbit using 2
    simp only
    omega

/-- `RBXorShifted`, bit by bit: below `width` the source string from `srcOff` on is
added from `dstOff` on. -/
theorem rbXorShifted_eq_ok (dst src : RBBits) (dstOff srcOff : ℕ) {width : ℕ} (hw : width ≤ 256) :
    ∃ out, rbXorShifted dst dstOff src srcOff width = .ok out ∧
      ∀ j, rbBit out j = xor (rbBit dst j)
        (decide (j < width ∧ dstOff ≤ j) && rbBit src (j - dstOff + srcOff)) := by
  unfold rbXorShifted
  obtain ⟨t, ht, hbit⟩ := rbTrimBits_eq_ok (if srcOff ≤ dstOff then
    rbShiftLeft (rbZeroBelow src srcOff) (dstOff - srcOff)
    else rbShiftRight (rbZeroBelow src srcOff) (srcOff - dstOff)) hw
  refine ⟨fun i => dst i ^^^ t i, by simp [ht], fun j => ?_⟩
  by_cases hj : j < 256
  · have hx : rbBit (fun i => dst i ^^^ t i) j = xor (rbBit dst j) (rbBit t j) := by
      rw [rbBit_eq (by omega), rbBit_eq (by omega), rbBit_eq (by omega), BitVec.getLsbD_xor]
    rw [hx, hbit, Bool.decide_and, Bool.and_assoc]
    congr 2
    split_ifs with hle
    · rw [rbBit_shiftLeft _ hj, rbBit_zeroBelow]
      by_cases hd : dstOff ≤ j
      · rw [decide_eq_true (by omega : dstOff - srcOff ≤ j),
          decide_eq_true (by omega : srcOff ≤ j - (dstOff - srcOff)), decide_eq_true hd]
        simp only [Bool.true_and]
        congr 1
        omega
      · rw [decide_eq_false hd, Bool.false_and]
        by_cases hs : dstOff - srcOff ≤ j
        · rw [decide_eq_false (by omega : ¬ srcOff ≤ j - (dstOff - srcOff)), Bool.false_and,
            Bool.and_false]
        · rw [decide_eq_false hs, Bool.false_and]
    · rw [rbBit_shiftRight _ hj, rbBit_zeroBelow]
      by_cases hd : dstOff ≤ j
      · rw [decide_eq_true (by omega : srcOff ≤ j + (srcOff - dstOff)), decide_eq_true hd]
        congr 2
        omega
      · rw [decide_eq_false hd, decide_eq_false (by omega : ¬ srcOff ≤ j + (srcOff - dstOff))]
        simp
  · rw [rbBit_of_ge (by omega), rbBit_of_ge (by omega), decide_eq_false (by omega)]
    simp

/-- `RBXorShifted` over its whole domain, with the source index read as an integer: below
`width` a bit changes exactly where the shifted index falls inside `[srcOff, 256)`. -/
theorem rbXorShifted_bits (dst src : RBBits) (dstOff srcOff width : ℕ)
    (_hd : dstOff < 256) (hs : srcOff < 256) (hw : width ≤ 256) :
    ∃ out, rbXorShifted dst dstOff src srcOff width = .ok out ∧
      ∀ j : ℕ, j < 256 → rbBit out j =
        if j < width then
          if (j : ℤ) - dstOff + srcOff ∈ Set.Ico (srcOff : ℤ) 256 then
            xor (rbBit dst j) (rbBit src ((j : ℤ) - dstOff + srcOff).toNat)
          else rbBit dst j
        else rbBit dst j := by
  obtain ⟨out, hout, hbit⟩ := rbXorShifted_eq_ok dst src dstOff srcOff hw
  refine ⟨out, hout, fun j hj => ?_⟩
  rw [hbit j]
  by_cases hjw : j < width
  · rw [if_pos hjw]
    by_cases hjd : dstOff ≤ j
    · have hidx : ((j : ℤ) - dstOff + srcOff).toNat = j - dstOff + srcOff := by omega
      rw [decide_eq_true ⟨hjw, hjd⟩, Bool.true_and, hidx]
      split_ifs with hin
      · rfl
      · -- the index runs past the array, where the model reads no bit
        have hge : 256 ≤ j - dstOff + srcOff := by
          simp only [Set.mem_Ico, not_and, not_lt] at hin
          omega
        rw [rbBit_of_ge hge, Bool.xor_false]
    · have hout' : (j : ℤ) - dstOff + srcOff ∉ Set.Ico (srcOff : ℤ) 256 := by
        simp only [Set.mem_Ico, not_and]
        omega
      rw [if_neg hout', decide_eq_false (fun h => hjd h.2), Bool.false_and, Bool.xor_false]
  · rw [if_neg hjw, decide_eq_false (fun h => hjw h.1), Bool.false_and, Bool.xor_false]

/-- A left shift across two limbs that is cut at bit 200. -/
theorem rbXorShifted_bits_sample :
    ∃ out, rbXorShifted ![1#64, 2#64, 3#64, 4#64] 130 ![5#64, 6#64, 7#64, 8#64] 3 200 = .ok out ∧
      ∀ j : ℕ, j < 256 → rbBit out j =
        if j < 200 then
          if (j : ℤ) - (130 : ℕ) + (3 : ℕ) ∈ Set.Ico ((3 : ℕ) : ℤ) 256 then
            xor (rbBit ![1#64, 2#64, 3#64, 4#64] j)
              (rbBit ![5#64, 6#64, 7#64, 8#64] ((j : ℤ) - (130 : ℕ) + (3 : ℕ)).toNat)
          else rbBit ![1#64, 2#64, 3#64, 4#64] j
        else rbBit ![1#64, 2#64, 3#64, 4#64] j :=
  rbXorShifted_bits _ _ 130 3 200 (by decide) (by decide) (by decide)

/-- A mask without bits from `width` on. -/
def Trimmed (width : ℕ) (bits : RBBits) : Prop := ∀ j, width ≤ j → rbBit bits j = false

/-- `RBLead` finds the first set bit, and reports `width` exactly for the empty mask. -/
theorem rbLead_spec {width : ℕ} (bits : RBBits) (ht : Trimmed width bits) :
    (rbLead bits width = width ∧ ∀ j, rbBit bits j = false) ∨
      (rbLead bits width < width ∧ rbBit bits (rbLead bits width) = true ∧
        ∀ j < rbLead bits width, rbBit bits j = false) := by
  unfold rbLead
  cases hf : (List.finRange 4).find? fun i => bits i != 0#64 with
  | none =>
    left
    refine ⟨rfl, fun j => ?_⟩
    have hz : bits = 0 := by
      funext i
      simpa using List.find?_eq_none.mp hf i (List.mem_finRange i)
    rw [hz, rbBit_zero]
  | some i =>
    right
    simp only
    have hne : bits i ≠ 0#64 := by simpa using List.find?_some hf
    have hlt : (bits i).ctz.toNat < 64 := by
      have h := BitVec.ctz_lt_iff_ne_zero.mpr hne
      simpa using BitVec.lt_def.mp h
    have hset : rbBit bits (i.val * 64 + (bits i).ctz.toNat) = true := by
      rw [Nat.mul_comm, rbBit_limb bits i hlt]
      exact BitVec.getLsbD_true_ctz_of_ne_zero hne
    refine ⟨?_, hset, fun j hj => ?_⟩
    · by_contra hge
      rw [ht _ (not_lt.mp hge)] at hset
      exact absurd hset (by simp)
    · have hi := i.isLt
      have hj4 : j / 64 < 4 := by omega
      rw [rbBit_eq hj4]
      by_cases hsame : j / 64 = i.val
      · have hfin : (⟨j / 64, hj4⟩ : Fin 4) = i := Fin.ext hsame
        rw [hfin]
        exact BitVec.getLsbD_false_of_lt_ctz (by omega)
      · -- an earlier limb: the scan passed it, so it is zero
        have hz : bits ⟨j / 64, hj4⟩ = 0#64 := by
          have hscan := (List.find?_eq_some_iff_getElem.mp hf).2
          obtain ⟨n, hn, hget, hbefore⟩ := hscan
          have hni : n = i.val := by
            have hv := congrArg Fin.val hget
            simpa using hv
          have hlt' : j / 64 < n := by omega
          have hb := hbefore (j / 64) hlt'
          simpa using hb
        rw [hz, BitVec.getLsbD_zero]

theorem rbEnsureBits_of_bit {bits : RBBits} {j : ℕ} (h : rbBit bits j = true) :
    rbEnsureBits bits = bits := by
  unfold rbEnsureBits
  split_ifs with hh
  · rfl
  · have hz : bits = 0 := by
      simp only [rbHasBits, bne_iff_ne, ne_eq, not_not, BitVec.or_eq_zero_iff] at hh
      funext i
      fin_cases i <;> simp [hh]
    rw [hz, rbBit_zero] at h
    exact absurd h (by decide)

theorem rbEnsureBits_of_empty {bits : RBBits} (h : ∀ j, rbBit bits j = false) (j : ℕ) :
    rbBit (rbEnsureBits bits) j = decide (j = 0) := by
  have hz : bits = 0 := eq_of_rbBit fun j _ => by rw [h j, rbBit_zero]
  subst hz
  by_cases hj : j < 256
  · refine rbBit_congr_limb (P := fun j => decide (j = 0)) hj fun i r hr => ?_
    change ((Function.update (0 : RBBits) 0 1#64) i).getLsbD r = _
    by_cases hi : i = 0
    · subst hi
      cases r with
      | zero => simp
      | succ r => simp [BitVec.getLsbD_one]
    · have hi' : i.val ≠ 0 := fun h => hi (Fin.ext h)
      rw [Function.update_of_ne hi, decide_eq_false (by omega)]
      simp
  · rw [rbBit_of_ge (by omega), decide_eq_false (by omega)]

/-- A band mask is never empty and stays inside the band. -/
theorem rbEnsureBits_spec {bits : RBBits} {width : ℕ} (h1 : 1 ≤ width) (ht : Trimmed width bits) :
    Trimmed width (rbEnsureBits bits) ∧ ∃ j, rbBit (rbEnsureBits bits) j = true := by
  by_cases h : ∃ j, rbBit bits j = true
  · obtain ⟨j, hj⟩ := h
    rw [rbEnsureBits_of_bit hj]
    exact ⟨ht, j, hj⟩
  · have hempty : ∀ j, rbBit bits j = false := by simpa using h
    refine ⟨fun j hj => ?_, 0, by rw [rbEnsureBits_of_empty hempty]; rfl⟩
    rw [rbEnsureBits_of_empty hempty, decide_eq_false (by omega)]

end PqPsi.Okvs
