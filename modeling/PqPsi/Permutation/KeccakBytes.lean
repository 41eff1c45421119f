import PqPsi.Lib.Words
import PqPsi.Permutation.Keccak
import PqPsi.Permutation.KeccakBits

/-!
# The bytes of a Keccak state

Reading the lanes from bytes and writing them back keeps every bit below the
width at its place, whether the lanes are packed into bytes or span several
of them.
-/
namespace PqPsi.Permutation.Keccak
open Lib.BitStream Lib.Buffers Lib.Words

namespace KeccakF
variable (k : KeccakF)

section Reading

/-- The bytes of a longer lane, first byte lowest. -/
theorem getLsbD_foldl_or (byte : ℕ → Byte) (n : ℕ) {p : ℕ} (hp : p < 64) :
    ((List.range n).foldl (fun (out : LaneValue) j => out ||| (byte j).setWidth 64 <<< (8 * j))
      0).getLsbD p = (decide (p / 8 < n) && (byte (p / 8)).getLsbD (p % 8)) := by
  induction n with
  | zero => simp
  | succ n ih =>
    rw [List.range_succ, List.foldl_append, List.foldl_cons, List.foldl_nil, BitVec.getLsbD_or, ih,
      getLsbD_byteAt (byte n) n hp]
    by_cases hn : p / 8 = n
    · simp [hn]
    · have hlt : p / 8 < n + 1 ↔ p / 8 < n := by omega
      simp [hn, hlt]

/-- A lane starts at its multiple of the lane size. -/
theorem getLsbD_fromBytesToLanes (input : List Byte) (i : Fin 25) (p : ℕ) :
    ((k.fromBytesToLanes input) i).getLsbD p =
      (decide (p < k.laneSize) && bitAt input (i.val * k.laneSize + p)) := by
  have hi := i.isLt
  have hsize := k.laneSize_cases
  have hle := k.laneSize_le
  by_cases hp : p < k.laneSize
  · rw [decide_eq_true hp, Bool.true_and, fromBytesToLanes, bitAt]
    split_ifs with hsmall
    · have hdiv : (i.val * k.laneSize + p) / 8 = i.val * k.laneSize / 8 ∧
          (i.val * k.laneSize + p) % 8 = i.val * k.laneSize % 8 + p := by
        simp only [List.mem_cons, List.not_mem_nil, or_false] at hsmall
        rcases hsmall with h | h | h | h <;> rw [h] at hp ⊢ <;> omega
      have h64 : p < 64 := by omega
      simp only [BitVec.getLsbD_and, getLsbD_mask, hp, decide_true, Bool.and_true,
        BitVec.getLsbD_setWidth, h64, Bool.true_and, BitVec.getLsbD_ushiftRight, hdiv]
    · have hdiv : (i.val * k.laneSize + p) / 8 = i.val * k.laneSize / 8 + p / 8 ∧
          (i.val * k.laneSize + p) % 8 = p % 8 ∧ p / 8 < k.laneSize / 8 := by
        simp only [List.mem_cons, List.not_mem_nil, or_false, not_or] at hsmall
        rcases hsize with h | h | h | h | h | h | h <;> rw [h] at hp hsmall ⊢ <;> omega
      rw [getLsbD_foldl_or (fun j => input.getD (i.val * k.laneSize / 8 + j) 0) _ (by omega), hdiv.1,
        hdiv.2.1, decide_eq_true hdiv.2.2, Bool.true_and]
  · rw [decide_eq_false hp, Bool.false_and, fromBytesToLanes]
    split_ifs with hsmall
    · simp only [BitVec.getLsbD_and, getLsbD_mask, decide_eq_false hp, Bool.and_false]
    · by_cases h64 : p < 64
      · have hlt : ¬ p / 8 < k.laneSize / 8 := by
          simp only [List.mem_cons, List.not_mem_nil, or_false, not_or] at hsmall
          rcases hsize with h | h | h | h | h | h | h <;> rw [h] at hp hsmall ⊢ <;> omega
        rw [getLsbD_foldl_or (fun j => input.getD (i.val * k.laneSize / 8 + j) 0) _ h64,
          decide_eq_false hlt, Bool.false_and]
      · exact BitVec.getLsbD_of_ge _ _ (not_lt.mp h64)

theorem masked_fromBytesToLanes (input : List Byte) : k.Masked (k.fromBytesToLanes input) := by
  intro i p hp
  rw [getLsbD_fromBytesToLanes, decide_eq_false (not_lt.mpr hp), Bool.false_and]

end Reading

section Writing

/-- The bytes after `n` lanes were packed into them. -/
theorem bitAt_packed {A : State} (hA : k.Masked A) (hsmall : k.laneSize ∈ [1, 2, 4, 8]) {n : ℕ}
    (hn : n ≤ 25) :
    let out := (List.range n).foldl
      (fun out i => out.modify (i * k.laneSize / 8)
        (· ||| (A (Fin.ofNat 25 i) <<< (i * k.laneSize % 8)).setWidth 8))
      (List.replicate ((25 * k.laneSize + 7) / 8) (0 : Byte))
    out.length = (25 * k.laneSize + 7) / 8 ∧
      ∀ p, bitAt out p = (decide (p < n * k.laneSize) &&
        (A (Fin.ofNat 25 (p / k.laneSize))).getLsbD (p % k.laneSize)) := by
  have hL : k.laneSize = 1 ∨ k.laneSize = 2 ∨ k.laneSize = 4 ∨ k.laneSize = 8 := by
    simpa using hsmall
  induction n with
  | zero => simp
  | succ n ih =>
    obtain ⟨hlen, hbits⟩ := ih (by omega)
    rw [List.range_succ, List.foldl_append, List.foldl_cons, List.foldl_nil]
    set out := (List.range n).foldl _ _ with hout
    refine ⟨by rw [List.length_modify, hlen], fun p => ?_⟩
    have hbyte : n * k.laneSize / 8 < out.length := by
      rw [hlen]
      rcases hL with h | h | h | h <;> rw [h] <;> omega
    rw [bitAt_modify hbyte]
    by_cases hp : p / 8 = n * k.laneSize / 8
    · have hold : (out.getD (n * k.laneSize / 8) 0).getLsbD (p % 8) = bitAt out p := by
        rw [bitAt, hp]
      have hp8 : p % 8 < 8 := Nat.mod_lt _ (by norm_num)
      have hp64 : p % 8 < 64 := by omega
      rw [if_pos hp, BitVec.getLsbD_or, hold, hbits, BitVec.getLsbD_setWidth,
        BitVec.getLsbD_shiftLeft, decide_eq_true hp8, decide_eq_true hp64]
      rcases lt_or_ge p (n * k.laneSize) with hlow | hlow
      · -- a lane packed before
        have hlt : p % 8 < n * k.laneSize % 8 := by omega
        have hnew : p < (n + 1) * k.laneSize := by rw [Nat.succ_mul]; omega
        simp [hlow, hlt, hnew]
      · have hge : ¬ p % 8 < n * k.laneSize % 8 := by omega
        have hsub : p % 8 - n * k.laneSize % 8 = p - n * k.laneSize := by omega
        by_cases hnew : p < (n + 1) * k.laneSize
        · have hdiv : p / k.laneSize = n ∧ p % k.laneSize = p - n * k.laneSize := by
            rcases hL with h | h | h | h <;> rw [h] at hlow hnew ⊢ <;> omega
          simp [not_lt.mpr hlow, hge, hsub, hnew, hdiv]
        · have hout : k.laneSize ≤ p - n * k.laneSize := by rw [Nat.succ_mul] at hnew; omega
          simp [not_lt.mpr hlow, hnew, hsub, hA _ _ hout]
    · have hsame : p < (n + 1) * k.laneSize ↔ p < n * k.laneSize := by
        rcases hL with h | h | h | h <;> rw [h] at hp ⊢ <;> omega
      rw [if_neg hp, hbits]
      simp only [hsame]

/-- The bytes of one longer lane. -/
def laneRow (A : State) (i : ℕ) : List Byte :=
  (List.range (k.laneSize / 8)).map fun j => (A (Fin.ofNat 25 i) >>> (8 * j) &&& 0xFF).setWidth 8

theorem getLsbD_laneRow (A : State) (i : ℕ) {p : ℕ} (hp : p / 8 < k.laneSize / 8) :
    bitAt (k.laneRow A i) p = (A (Fin.ofNat 25 i)).getLsbD p := by
  have hmod := Nat.mod_lt p (show 0 < 8 by norm_num)
  have hff : (0xFF : LaneValue).getLsbD (p % 8) = true := by
    interval_cases p % 8 <;> rfl
  have h64 : p % 8 < 64 := by omega
  have hle : ¬ 64 ≤ p := by have h := k.laneSize_le; omega
  rw [bitAt, laneRow, List.getD_eq_getElem _ _ (by simpa using hp), List.getElem_map,
    List.getElem_range, BitVec.getLsbD_setWidth, BitVec.getLsbD_and, BitVec.getLsbD_ushiftRight, hff,
    decide_eq_true hmod, Nat.div_add_mod, Bool.true_and, Bool.and_true]

theorem length_laneBytes {A : State} (hA : k.Masked A) :
    (k.laneBytes A).length = (k.width + 7) / 8 := by
  rw [laneBytes, k.width_eq]
  split_ifs with hsmall
  · exact (k.bitAt_packed hA hsmall le_rfl).1
  · have hsize := k.laneSize_cases
    simp only [List.mem_cons, List.not_mem_nil, or_false, not_or] at hsmall
    have hrows : ∀ r ∈ (List.range 25).map (k.laneRow A), r.length = k.laneSize / 8 := by
      simp [laneRow]
    have hlen := length_flatten_rows hrows
    rw [List.length_map, List.length_range] at hlen
    exact hlen.trans (by omega)

theorem bitAt_laneBytes {A : State} (hA : k.Masked A) (p : ℕ) :
    bitAt (k.laneBytes A) p = (decide (p < k.width) &&
      (A (Fin.ofNat 25 (p / k.laneSize))).getLsbD (p % k.laneSize)) := by
  have hlen := k.length_laneBytes hA
  rw [k.width_eq] at hlen ⊢
  by_cases hsmall : k.laneSize ∈ [1, 2, 4, 8]
  · rw [laneBytes, if_pos hsmall]
    exact (k.bitAt_packed hA hsmall le_rfl).2 p
  · have hL : k.laneSize = 16 ∨ k.laneSize = 32 ∨ k.laneSize = 64 := by
      have hsize := k.laneSize_cases
      simp only [List.mem_cons, List.not_mem_nil, or_false, not_or] at hsmall
      omega
    by_cases hp : p < 25 * k.laneSize
    · have hrows : ∀ r ∈ (List.range 25).map (k.laneRow A), r.length = k.laneSize / 8 := by
        simp [laneRow]
      have hsplit : p / k.laneSize < 25 ∧ p % k.laneSize / 8 < k.laneSize / 8 ∧
          p / 8 = p / k.laneSize * (k.laneSize / 8) + p % k.laneSize / 8 ∧
          p % 8 = p % k.laneSize % 8 := by
        rcases hL with h | h | h <;> rw [h] at hp ⊢ <;> omega
      obtain ⟨hi, hj, hdiv, hmod⟩ := hsplit
      have hslice := slice_flatten hrows (show p / k.laneSize < _ by simpa using hi)
      have hbyte := slice_getElem? ((List.range 25).map (k.laneRow A)).flatten
        (p / k.laneSize * (k.laneSize / 8)) (k.laneSize / 8) (p % k.laneSize / 8)
      rw [hslice, if_pos hj, ← hdiv, List.getElem_map, List.getElem_range] at hbyte
      rw [decide_eq_true hp, Bool.true_and, ← k.getLsbD_laneRow A _ hj, bitAt, bitAt, hmod,
        List.getD_eq_getElem?_getD, List.getD_eq_getElem?_getD, hbyte, laneBytes, if_neg hsmall]
      rfl
    · rw [decide_eq_false hp, Bool.false_and]
      exact bitAt_of_ge (by omega)

end Writing

section Buffer
/-- The bits of the last byte above the width are cleared. -/
def clearSpare (s : List Byte) : List Byte :=
  if k.width % 8 = 0 then s
  else s.modify (k.width / 8) (· &&& 0xFF#8 >>> (8 - k.width % 8))

variable {k} {A : State} {s : List Byte}

theorem bitAt_clearSpare (hs : (k.width + 7) / 8 ≤ s.length) (p : ℕ) :
    bitAt (k.clearSpare s) p =
      (decide (p < k.width ∨ 8 * ((k.width + 7) / 8) ≤ p) && bitAt s p) := by
  rw [clearSpare]
  split_ifs with h8
  · rw [decide_eq_true (by omega), Bool.true_and]
  · have hmod := Nat.mod_lt p (show 0 < 8 by norm_num)
    rw [bitAt_modify (by omega)]
    by_cases hp : p / 8 = k.width / 8
    · have hmask : ∀ r < 8, ∀ q < 8, (0xFF#8 >>> (8 - r)).getLsbD q = decide (q < r) := by
        decide
      have hlt : p % 8 < k.width % 8 ↔ p < k.width ∨ 8 * ((k.width + 7) / 8) ≤ p := by omega
      rw [if_pos hp, BitVec.getLsbD_and, hmask _ (Nat.mod_lt _ (by norm_num)) _ hmod, Bool.and_comm,
        ← hp]
      simp only [hlt]
      rfl
    · have hout : p < k.width ∨ 8 * ((k.width + 7) / 8) ≤ p := by omega
      rw [if_neg hp, decide_eq_true hout, Bool.true_and]

section Masked
variable (hA : k.Masked A)
include hA

theorem length_fromLanesToBytes (hs : (k.width + 7) / 8 ≤ s.length) : (k.fromLanesToBytes A s).length = s.length := by
  have hlen := k.length_laneBytes hA
  exact length_splice (by omega)

theorem bitAt_fromLanesToBytes (p : ℕ) : bitAt (k.fromLanesToBytes A s) p =
    if p < k.width then (A (Fin.ofNat 25 (p / k.laneSize))).getLsbD (p % k.laneSize)
    else decide (8 * ((k.width + 7) / 8) ≤ p) && bitAt s p := by
  have hlen := k.length_laneBytes hA
  rw [fromLanesToBytes, splice, List.take_zero, List.nil_append, Nat.zero_add, bitAt_append,
    bitAt_laneBytes k hA, hlen]
  by_cases hp : p < k.width
  · rw [if_pos (by omega), if_pos hp, decide_eq_true hp, Bool.true_and]
  · rw [if_neg hp, decide_eq_false hp, Bool.false_and]
    by_cases hlast : p < 8 * ((k.width + 7) / 8)
    · rw [if_pos hlast, decide_eq_false (by omega), Bool.false_and]
    · have hback : (p - 8 * ((k.width + 7) / 8)) / 8 + (k.width + 7) / 8 = p / 8 ∧
          (p - 8 * ((k.width + 7) / 8)) % 8 = p % 8 := by omega
      rw [if_neg hlast, decide_eq_true (by omega), Bool.true_and, bitAt, bitAt,
        List.getD_eq_getElem?_getD, List.getElem?_drop, Nat.add_comm, hback.1, hback.2,
        ← List.getD_eq_getElem?_getD]

/-- The lanes come back from the bytes. -/
theorem fromBytesToLanes_fromLanesToBytes : k.fromBytesToLanes (k.fromLanesToBytes A s) = A := by
  apply State.ext
  funext i
  apply BitVec.eq_of_getLsbD_eq
  intro p _
  have hi := i.isLt
  rw [getLsbD_fromBytesToLanes]
  by_cases hp : p < k.laneSize
  · have hlt : i.val * k.laneSize + p < k.width := by
      have hmul : (i.val + 1) * k.laneSize ≤ 25 * k.laneSize := Nat.mul_le_mul_right _ (by omega)
      rw [Nat.succ_mul] at hmul
      rw [k.width_eq]
      omega
    have hdiv : (i.val * k.laneSize + p) / k.laneSize = i.val := by
      rw [Nat.mul_comm, Nat.mul_add_div k.laneSize_pos, Nat.div_eq_of_lt hp, Nat.add_zero]
    have hmod : (i.val * k.laneSize + p) % k.laneSize = p := by
      rw [Nat.mul_comm, Nat.mul_add_mod, Nat.mod_eq_of_lt hp]
    have hfin : Fin.ofNat 25 i.val = i := Fin.ext (Nat.mod_eq_of_lt hi)
    rw [bitAt_fromLanesToBytes hA, if_pos hlt, hdiv, hmod, hfin, decide_eq_true hp,
      Bool.true_and]
  · rw [decide_eq_false hp, Bool.false_and, hA i p (not_lt.mp hp)]

end Masked

end Buffer

end KeccakF

end PqPsi.Permutation.Keccak
