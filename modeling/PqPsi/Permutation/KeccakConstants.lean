import PqPsi.Permutation.KeccakSteps

/-!
# The round constants of KeccakTools

The state of the shift register is a power of `X` modulo the feedback
polynomial, and the register returns to its start after 255 steps. So the
table of 255 constants holds those of every round.
-/
namespace PqPsi.Permutation.Keccak
open Lib Lib.BitPoly Polynomial
open scoped Lib.KeccakP
open Lib.KeccakP (feedback rc roundConstant)

section Register

theorem feedback_eq : feedback = X ^ 8 + toPoly 0x71#8 := by
  rw [feedback, toPoly]
  simp [Finset.sum_range_succ]
  ring

theorem feedback_monic : feedback.Monic := by
  rw [feedback_eq]
  exact monic_X_pow_add (degree_toPoly_lt _)

theorem degree_feedback : feedback.degree = 8 := by
  rw [feedback_eq, degree_add_eq_left_of_degree_lt (by rw [degree_X_pow]; exact degree_toPoly_lt _),
    degree_X_pow]
  rfl

/-- The state after `t` steps. -/
def lfsrState (t : ℕ) : Byte := (fun s => (lfsr86540 s).2)^[t] 1

theorem lfsrState_succ (t : ℕ) : lfsrState (t + 1) = (lfsr86540 (lfsrState t)).2 :=
  Function.iterate_succ_apply' _ _ _

/-- The highest bit of a byte, alone. -/
theorem toPoly_top (s : Byte) : toPoly (s >>> 7) = if s &&& 0x80 != 0 then 1 else 0 := by
  have htop : (s &&& 0x80 != 0) = s.getLsbD 7 := by
    revert s
    decide
  ext i
  rw [coeff_toPoly, BitVec.getLsbD_ushiftRight, htop]
  by_cases hi : i = 0
  · rw [hi, Nat.add_zero]
    cases s.getLsbD 7 <;> simp [ofBool]
  · rw [BitVec.getLsbD_of_ge s _ (by omega)]
    split_ifs <;> simp [ofBool, coeff_one, hi]

/-- One step multiplies by `X`. -/
theorem X_mul_toPoly (s : Byte) :
    ∃ c : Poly, X * toPoly s = toPoly (lfsr86540 s).2 + feedback * c := by
  have hshift := X_pow_mul_toPoly s (show 1 ≤ 8 by decide)
  rw [pow_one, show 8 - 1 = 7 from rfl, toPoly_top] at hshift
  rw [hshift, lfsr86540]
  split_ifs with h
  · refine ⟨1, ?_⟩
    have htwo : toPoly 0x71#8 + toPoly 0x71#8 = 0 := CharTwo.add_self_eq_zero _
    rw [toPoly_xor, feedback_eq]
    linear_combination -htwo
  · exact ⟨0, by ring⟩

theorem toPoly_lfsrState (t : ℕ) : toPoly (lfsrState t) = X ^ t %ₘ feedback := by
  have hdeg : ∀ s : Byte, (toPoly s).degree < feedback.degree := by
    intro s
    rw [degree_feedback]
    exact degree_toPoly_lt s
  have hpow : ∃ c : Poly, toPoly (lfsrState t) + feedback * c = X ^ t := by
    induction t with
    | zero => exact ⟨0, by rw [mul_zero, add_zero]; exact toPoly_unit (w := 8) (i := 0) (by decide)⟩
    | succ t ih =>
      obtain ⟨c, hc⟩ := ih
      obtain ⟨d, hd⟩ := X_mul_toPoly (lfsrState t)
      refine ⟨X * c + d, ?_⟩
      rw [lfsrState_succ, pow_succ', ← hc]
      linear_combination -hd
  obtain ⟨c, hc⟩ := hpow
  exact (div_modByMonic_unique c _ feedback_monic ⟨hc, hdeg _⟩).2.symm

/-- The bit that leaves the register in step `t`. -/
theorem ofBool_lfsr (t : ℕ) : ofBool (lfsr86540 (lfsrState t)).1 = rc t := by
  have hbit := BitLinear.shiftRight_and_one (lfsrState t) 0
  rw [BitVec.ushiftRight_zero] at hbit
  rw [rc, ← toPoly_lfsrState, coeff_toPoly, ← hbit]
  rfl

theorem rc_add_period (t n : ℕ) : rc (t + 255 * n) = rc t := by
  have hperiod : lfsrState 255 = lfsrState 0 := by decide +kernel
  have hturn : ∀ t, lfsrState (t + 255) = lfsrState t := by
    intro t
    rw [lfsrState, Function.iterate_add_apply]
    exact congrArg _ hperiod
  have hstate : lfsrState (t + 255 * n) = lfsrState t := by
    induction n with
    | zero => rfl
    | succ n ih => rw [Nat.mul_succ, ← Nat.add_assoc, hturn, ih]
  rw [← ofBool_lfsr, hstate, ofBool_lfsr]

end Register

section Table

/-- The register and the word after `n` turns of the inner loop. -/
theorem roundConstantBit_turns (t n : ℕ) :
    ((List.range n).foldl roundConstantBit (lfsrState t, 0)).1 = lfsrState (t + n) ∧
      ∀ p < 64, ofBool (((List.range n).foldl roundConstantBit (lfsrState t, 0)).2.getLsbD p) =
        ∑ j ∈ Finset.range n, if p = 2 ^ j - 1 then rc (t + j) else 0 := by
  induction n with
  | zero => exact ⟨rfl, fun p _ => by simp [ofBool]⟩
  | succ n ih =>
    obtain ⟨hstate, hbits⟩ := ih
    rw [List.range_succ, List.foldl_append, List.foldl_cons, List.foldl_nil]
    generalize (List.range n).foldl roundConstantBit (lfsrState t, 0) = s at hstate hbits ⊢
    constructor
    · rw [roundConstantBit, hstate]
      exact (lfsrState_succ (t + n)).symm
    · intro p hp
      have hunit : (1#64 <<< (2 ^ n - 1)).getLsbD p = decide (p = 2 ^ n - 1) := by
        have h : (BitLinear.unit (2 ^ n - 1) : LaneValue).getLsbD p =
            decide (p < 64 ∧ p = 2 ^ n - 1) := BitLinear.getLsbD_unit _ p
        simpa only [BitLinear.unit, hp, true_and] using h
      have hrc : ofBool (lfsr86540 s.1).1 = rc (t + n) := by rw [hstate, ofBool_lfsr]
      have hword : (roundConstantBit s n).2 =
          if (lfsr86540 s.1).1 then s.2 ^^^ 1#64 <<< (2 ^ n - 1) else s.2 := rfl
      rw [Finset.sum_range_succ, ← hbits p hp, hword]
      cases hout : (lfsr86540 s.1).1 with
      | true =>
        rw [hout] at hrc
        rw [if_pos rfl, BitVec.getLsbD_xor, ofBool_xor, hunit, ← hrc]
        by_cases hpn : p = 2 ^ n - 1 <;> simp [hpn, ofBool]
      | false =>
        rw [hout] at hrc
        rw [if_neg Bool.false_ne_true, ← hrc]
        simp [ofBool]

/-- The word behind constant `ir`, before it is masked. -/
def constantWord (ir : ℕ) : LaneValue :=
  ((List.range 7).foldl roundConstantBit (lfsrState (7 * ir), 0)).2

theorem roundConstantStep_turns (mask : LaneValue) (n : ℕ) :
    (List.range n).foldl (fun s _ => roundConstantStep mask s) (0x01, []) =
      (lfsrState (7 * n), (List.range n).map fun ir => constantWord ir &&& mask) := by
  induction n with
  | zero => rfl
  | succ n ih =>
    have hstate := (roundConstantBit_turns (7 * n) 7).1
    rw [List.range_succ, List.foldl_append, ih, List.foldl_cons, List.foldl_nil, roundConstantStep,
      List.map_append]
    exact Prod.ext hstate rfl

namespace KeccakF
variable (k : KeccakF)

/-- The table holds the constants of all rounds. -/
theorem getRoundConstant_eq (ir : ℕ) :
    k.getRoundConstant ir = constantWord (ir % 255) &&& k.mask := by
  have hlt := Nat.mod_lt ir (show 0 < 255 by norm_num)
  have hind : (((ir : ℤ).tmod 255 + 255).tmod 255).toNat = ir % 255 := by
    have hfirst : (ir : ℤ).tmod 255 = (ir : ℤ) % 255 := Int.tmod_eq_emod_of_nonneg (by omega)
    rw [hfirst, Int.tmod_eq_emod_of_nonneg (by omega)]
    omega
  rw [getRoundConstant, hind, roundConstants, initializeRoundConstants, roundConstantStep_turns]
  simp [hlt]

theorem ofBool_getRoundConstant (ir : ℕ) (z : ZMod k.laneSize) :
    ofBool ((k.getRoundConstant ir).getLsbD z.val) = roundConstant ir z := by
  have hz := ZMod.val_lt z
  rw [getRoundConstant_eq, BitVec.getLsbD_and, getLsbD_mask, decide_eq_true hz, Bool.and_true,
    constantWord, (roundConstantBit_turns _ _).2 _ (hz.trans_le k.laneSize_le), roundConstant]
  refine Finset.sum_congr rfl fun j _ => ?_
  have hperiod := rc_add_period (7 * (ir % 255) + j) (7 * (ir / 255))
  have hsplit : 7 * (ir % 255) + j + 255 * (7 * (ir / 255)) = j + 7 * ir := by omega
  rw [← hperiod, hsplit]

theorem refines_iota (ir : ℕ) : k.Refines (fun A => k.iota A ir) (KeccakP.iota ir) := by
  intro A hA
  constructor
  · intro i p hp
    have hrc : (k.getRoundConstant ir).getLsbD p = false := by
      rw [getRoundConstant_eq, BitVec.getLsbD_and, getLsbD_mask,
        decide_eq_false (not_lt.mpr hp), Bool.and_false]
    have hlane : ∀ x y, (lane A x y).getLsbD p = false := fun x y => hA _ p hp
    rw [← index_getX_getY i, lane_index, lane_iota]
    split_ifs <;> simp [hlane, hrc]
  · funext x y z
    rw [bits, lane_iota, KeccakP.iota]
    split_ifs with h
    · rw [BitVec.getLsbD_xor, ofBool_xor, ofBool_getRoundConstant]
      rfl
    · rw [add_zero]
      rfl

end KeccakF

end Table

end PqPsi.Permutation.Keccak
