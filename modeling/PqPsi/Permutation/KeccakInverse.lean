import PqPsi.Permutation.KeccakBytes
import PqPsi.Permutation.KeccakConstants

/-!
# The Keccak permutations and their inverses

As long as the range of rounds fits the integers of the loops, `operator()`
computes Keccak-p on the bits of the buffer, and `inverse` undoes it. A width
that is no multiple of eight leaves spare bits in the last byte, which both
clear.
-/
namespace PqPsi.Permutation.Keccak
open Lib Lib.BitPoly Lib.BitStream Lib.Buffers

namespace KeccakF
variable (k : KeccakF)

section Rounds

/-- The rounds have numbers that neither loop wraps. -/
def RoundsFit : Prop := 0 ≤ k.startRoundIndex ∧ k.startRoundIndex + k.nrRounds ≤ 2 ^ 31

instance : Decidable k.RoundsFit := inferInstanceAs (Decidable (_ ∧ _))

/-- Behind the largest `int` the numbers go on from the smallest one. -/
theorem toInt_eq (u : ℕ) : toInt u =
    if u % 2 ^ 32 < 2 ^ 31 then ((u % 2 ^ 32 : ℕ) : ℤ) else ((u % 2 ^ 32 : ℕ) : ℤ) - 2 ^ 32 := by
  rw [toInt, BitVec.toInt_eq_toNat_cond, BitVec.toNat_ofNat]
  split_ifs <;> omega

variable {k}

theorem forwardRounds_eq (hk : k.RoundsFit) :
    k.forwardRounds = (List.range' k.startRoundIndex.toNat k.nrRounds).map fun (n : ℕ) => (n : ℤ) := by
  obtain ⟨hlow, hhigh⟩ := hk
  have hfirst : toUnsigned k.startRoundIndex = k.startRoundIndex.toNat := by
    rw [toUnsigned, Int.emod_eq_of_lt hlow (by omega)]
  have hcount : (k.startRoundIndex.toNat + k.nrRounds) % 2 ^ 32 - k.startRoundIndex.toNat =
      k.nrRounds := by omega
  rw [forwardRounds]
  simp only [hfirst, hcount]
  refine List.map_congr_left fun n hn => ?_
  rw [List.mem_range'_1] at hn
  rw [toInt_eq, if_pos (by omega)]
  omega

theorem inverseRounds_eq (hk : k.RoundsFit) : k.inverseRounds =
    ((List.range' k.startRoundIndex.toNat k.nrRounds).map fun (n : ℕ) => (n : ℤ)).reverse := by
  obtain ⟨hlow, hhigh⟩ := hk
  have hfirst : toUnsigned k.startRoundIndex = k.startRoundIndex.toNat := by
    rw [toUnsigned, Int.emod_eq_of_lt hlow (by omega)]
  have hlast : toInt (k.startRoundIndex.toNat + k.nrRounds + (2 ^ 32 - 1)) =
      k.startRoundIndex + k.nrRounds - 1 := by
    rw [toInt_eq]
    split_ifs <;> omega
  have hcount : (k.startRoundIndex + k.nrRounds - 1 + 1 - k.startRoundIndex).toNat = k.nrRounds := by
    omega
  rw [inverseRounds]
  simp only [hfirst, hlast, hcount]
  rw [List.range'_eq_map_range, List.map_map, ← List.map_reverse]
  refine List.map_congr_left fun n _ => ?_
  simp only [Function.comp_apply, Nat.cast_add, Int.toNat_of_nonneg hlow]

theorem refines_round (ir : ℕ) : k.Refines (fun A => k.round A ir) (fun a => KeccakP.round a ir) :=
  (k.refines_iota ir).comp (k.refines_chi.comp (k.refines_pi.comp
    (k.refines_rho.comp k.refines_theta)))

theorem refines_inverseRound (ir : ℕ) :
    k.Refines (fun A => k.inverseRound A ir) (KeccakP.unround k.kernel ir) :=
  k.refines_inverseTheta.comp (k.refines_inverseRho.comp (k.refines_inversePi.comp
    (k.refines_inverseChi.comp (k.refines_iota ir))))

theorem refines_forward (hk : k.RoundsFit) :
    k.Refines k.forward (KeccakP.perm k.startRoundIndex.toNat k.nrRounds) := by
  have hrun := Refines.foldl (l := List.range' k.startRoundIndex.toNat k.nrRounds)
    fun ir _ => k.refines_round ir
  intro A hA
  rw [forward, forwardRounds_eq hk, List.foldl_map]
  exact hrun A hA

theorem refines_inverse (hk : k.RoundsFit) :
    k.Refines k.inverse (KeccakP.unperm k.kernel k.startRoundIndex.toNat k.nrRounds) := by
  have hrun := Refines.foldl (l := (List.range' k.startRoundIndex.toNat k.nrRounds).reverse)
    fun ir _ => k.refines_inverseRound ir
  intro A hA
  rw [inverse, inverseRounds_eq hk, ← List.map_reverse, List.foldl_map]
  have h := hrun A hA
  simp only [List.foldl_reverse] at h ⊢
  exact h

end Rounds

section Buffer
variable {k}

/-- A step on the lanes, between reading the buffer and writing it. -/
def onBytes (k : KeccakF) (f : State → State) (s : List Byte) : List Byte :=
  k.fromLanesToBytes (f (k.fromBytesToLanes s)) s

/-- The bits of the buffer as a string. -/
def bitString (s : List Byte) (p : ℕ) : ZMod 2 := ofBool (bitAt s p)

theorem bits_fromBytesToLanes (s : List Byte) :
    k.bits (k.fromBytesToLanes s) = KeccakP.ofString (bitString s) := by
  funext x y z
  have hindex : (index x.val y.val).val = 5 * y.val + x.val := by
    revert x y
    decide
  rw [bits, lane, getLsbD_fromBytesToLanes, decide_eq_true (ZMod.val_lt z), Bool.true_and, hindex,
    Nat.mul_comm]
  rfl

variable {f g : State → State} {F G : KeccakP.Bits k.laneSize → KeccakP.Bits k.laneSize}
  {s : List Byte}

theorem onBytes_spec (hf : k.Refines f F) (hs : (k.width + 7) / 8 ≤ s.length) :
    (k.onBytes f s).length = s.length ∧
      KeccakP.ofString (bitString (k.onBytes f s)) = F (KeccakP.ofString (bitString s)) ∧
      ∀ p, k.width ≤ p → bitAt (k.onBytes f s) p = bitAt (k.clearSpare s) p := by
  obtain ⟨hmask, hbits⟩ := hf _ (k.masked_fromBytesToLanes s)
  refine ⟨length_fromLanesToBytes hmask hs, ?_, fun p hp => ?_⟩
  · rw [← bits_fromBytesToLanes, ← bits_fromBytesToLanes, ← hbits, onBytes,
      fromBytesToLanes_fromLanesToBytes hmask]
  · rw [onBytes, bitAt_fromLanesToBytes hmask, bitAt_clearSpare hs, if_neg (not_lt.mpr hp)]
    simp only [not_lt.mpr hp, false_or]

/-- Two steps that are inverse on bits give back the buffer. -/
theorem onBytes_onBytes (hf : k.Refines f F) (hg : k.Refines g G) (h : ∀ a, G (F a) = a)
    (hs : (k.width + 7) / 8 ≤ s.length) : k.onBytes g (k.onBytes f s) = k.clearSpare s := by
  obtain ⟨hmaskf, hbitsf⟩ := hf _ (k.masked_fromBytesToLanes s)
  obtain ⟨hmaskg, hbitsg⟩ := hg _ hmaskf
  have hlanes : g (f (k.fromBytesToLanes s)) = k.fromBytesToLanes s := by
    apply k.bits_injective hmaskg (k.masked_fromBytesToLanes s)
    rw [hbitsg, hbitsf, h]
  have hlen := length_fromLanesToBytes hmaskf hs
  have hclear : (k.clearSpare s).length = s.length := by
    rw [clearSpare]
    split_ifs <;> simp
  have hmask := k.masked_fromBytesToLanes s
  rw [onBytes, onBytes, fromBytesToLanes_fromLanesToBytes hmaskf, hlanes]
  apply ext_bitAt
  · rw [length_fromLanesToBytes hmask (by omega), hlen, hclear]
  · intro p _
    rw [bitAt_fromLanesToBytes hmask, bitAt_fromLanesToBytes hmaskf, bitAt_clearSpare hs]
    by_cases hp : p < k.width
    · have hmod := Nat.mod_lt p k.laneSize_pos
      have hdiv : p / k.laneSize < 25 := by
        rw [Nat.div_lt_iff_lt_mul k.laneSize_pos, ← k.width_eq]
        exact hp
      have hplace : p / k.laneSize * k.laneSize + p % k.laneSize = p := Nat.div_add_mod' p _
      rw [if_pos hp, getLsbD_fromBytesToLanes, decide_eq_true hmod, Bool.true_and, Fin.val_ofNat,
        Nat.mod_eq_of_lt hdiv, hplace]
      simp [hp]
    · rw [if_neg hp, if_neg hp, ← Bool.and_assoc, Bool.and_self]
      simp [hp]

theorem apply_spec (hk : k.RoundsFit) (hs : (k.width + 7) / 8 ≤ s.length) :
    (k.apply s).length = s.length ∧
      KeccakP.ofString (bitString (k.apply s)) =
        KeccakP.perm (w := k.laneSize) k.startRoundIndex.toNat k.nrRounds
          (KeccakP.ofString (bitString s)) ∧
      ∀ p, k.width ≤ p → bitAt (k.apply s) p = bitAt (k.clearSpare s) p :=
  onBytes_spec (refines_forward hk) hs

theorem length_invert (hk : k.RoundsFit) (hs : (k.width + 7) / 8 ≤ s.length) :
    (k.invert s).length = s.length :=
  (onBytes_spec (refines_inverse hk) hs).1

theorem invert_apply_cancel (hk : k.RoundsFit) (hs : (k.width + 7) / 8 ≤ s.length) :
    k.invert (k.apply s) = k.clearSpare s :=
  onBytes_onBytes (refines_forward hk) (refines_inverse hk)
    (KeccakP.unperm_perm k.kernel_undoes k.startRoundIndex.toNat k.nrRounds) hs

theorem apply_invert_cancel (hk : k.RoundsFit) (hs : (k.width + 7) / 8 ≤ s.length) :
    k.apply (k.invert s) = k.clearSpare s :=
  onBytes_onBytes (refines_inverse hk) (refines_forward hk)
    (KeccakP.perm_unperm k.kernel_undoes k.startRoundIndex.toNat k.nrRounds) hs

end Buffer

section Results
variable {k}

/-- `operator()` computes Keccak-p on the first bits of the buffer, for every width and every
range of rounds that fits. The rest keeps its bytes, but the spare bits are cleared. -/
theorem apply_eq_perm (hk : k.RoundsFit) {s : List Byte} (hs : (k.width + 7) / 8 ≤ s.length) :
    (k.apply s).length = s.length ∧
      KeccakP.ofString (bitString (k.apply s)) =
        KeccakP.perm (w := k.laneSize) k.startRoundIndex.toNat k.nrRounds
          (KeccakP.ofString (bitString s)) ∧
      ∀ p, k.width ≤ p → bitAt (k.apply s) p = bitAt (k.clearSpare s) p :=
  apply_spec hk hs

/-- Five rounds from the third on, at the width of 100 bits. -/
def fiveRounds : KeccakF := ⟨100, 3, 5, 16, rfl⟩

theorem apply_eq_perm_fiveRounds :
    (fiveRounds.apply (List.replicate 13 0xA5#8)).length = 13 ∧
      KeccakP.ofString (bitString (fiveRounds.apply (List.replicate 13 0xA5#8))) =
        KeccakP.perm (w := fiveRounds.laneSize) 3 5
          (KeccakP.ofString (bitString (List.replicate 13 0xA5#8))) ∧
      ∀ p, 100 ≤ p → bitAt (fiveRounds.apply (List.replicate 13 0xA5#8)) p =
        bitAt (fiveRounds.clearSpare (List.replicate 13 0xA5#8)) p :=
  apply_eq_perm (k := fiveRounds) (by decide) (by decide)

end Results

end KeccakF

end PqPsi.Permutation.Keccak
