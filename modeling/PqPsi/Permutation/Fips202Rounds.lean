import PqPsi.Permutation.Fips202
import PqPsi.Permutation.KeccakInverse

/-!
# Two implementations of Keccak-f[1600]

`F` and the class `KeccakF` of KeccakTools compute the same function. The walk
through the lanes meets each of them except lane 0 exactly once, and one round
consumes seven bits of the register.
-/
namespace PqPsi.Permutation.Fips202
open Lib Lib.Buffers
open scoped Lib.KeccakP
open Keccak (KeccakF index getX getY lfsrState lfsr86540 constantWord roundConstantBit)

/-- The object of KeccakTools for 1600 bits. -/
def tools : KeccakF := ⟨1600, 0, 24, 24, rfl⟩

theorem keccakFNominal_eq : Keccak.keccakFNominal 1600 = .ok tools := rfl

/-- The lanes as KeccakTools holds them. -/
def toTools (s : State) : Keccak.State := ⟨fun p => lane s p.val⟩

@[simp] theorem toTools_apply (s : State) (p : Fin 25) : toTools s p = lane s p.val := rfl

theorem lane_mapFinIdx (s : State) (f : (p : ℕ) → U64 → p < 25 → U64) {p : ℕ} (hp : p < 25) :
    lane (s.mapFinIdx f) p = f p (lane s p) hp := by
  rw [lane, lane, vector_getD _ hp, vector_getD _ hp, Vector.getElem_mapFinIdx]

section Theta

theorem mask_tools : tools.mask = BitVec.allOnes 64 := by decide

theorem rol_tools (L : U64) {n : ℕ} (hpos : 0 < n) (hlt : n < 64) : tools.rol L n = R L n := by
  have hsize : tools.laneSize = 64 := rfl
  have hmod : (n : ℤ).tmod (64 : ℕ) = n := Int.tmod_eq_of_lt (by omega) (by exact_mod_cast hlt)
  have hoffset : ¬ (n : ℤ) < 0 := by omega
  rw [KeccakF.rol, hsize]
  simp only [hmod, hoffset, if_false, Int.toNat_natCast, hpos.ne', mask_tools, BitVec.and_allOnes,
    ne_eq, not_false_eq_true, if_true]
  rfl

theorem columns_getD (s : State) (x : Fin 5) :
    (columns s).getD x.val 0 = KeccakF.columns (toTools s) x := by
  rw [vector_getD _ x.isLt, columns, Vector.getElem_ofFn]
  fin_cases x <;> exact congrArg (· ^^^ _ ^^^ _ ^^^ _ ^^^ _) (BitVec.zero_xor)

theorem theta_eq (s : State) : toTools (theta s) = tools.theta (toTools s) := by
  have hnext : ∀ p : Fin 25, (Keccak.index1 (getX p + 1)).val = (p.val % 5 + 1) % 5 := by decide
  have hprev : ∀ p : Fin 25, (Keccak.index1 (getX p - 1)).val = (p.val % 5 + 4) % 5 := by decide
  have hrol : ∀ L : U64, tools.rol L 1 = R L 1 := fun L => rol_tools L (by decide) (by decide)
  apply Keccak.State.ext
  funext p
  rw [toTools_apply, theta, lane_mapFinIdx s _ p.isLt, KeccakF.theta]
  simp only [← columns_getD, hnext, hprev, hrol, toTools_apply]
  rw [BitVec.xor_comm (R _ _)]

end Theta

section Walk

/-- The bytes `x`, `y`, `r` after `j` turns. -/
def coords : ℕ → Byte × Byte × Byte
  | 0 => (1, 0, 0)
  | j + 1 =>
    let (x, y, r) := coords j
    (y, BitVec.ofNat 8 ((2 * x.toNat + 3 * y.toNat) % 5), r + BitVec.ofNat 8 (j + 1))

/-- The place reached after `j` turns. -/
def pos (j : ℕ) : ℕ := (coords j).1.toNat + 5 * (coords j).2.1.toNat

/-- The distance by which the word from there is rotated. -/
def distance (j : ℕ) : ℕ := (coords (j + 1)).2.2.toNat % 64

theorem pos_lt : ∀ j < 25, pos j < 25 := by decide +kernel

theorem pos_injective : ∀ i < 24, ∀ j < 24, pos (i + 1) = pos (j + 1) → i = j := by decide +kernel

/-- Every lane but the first is on the way. -/
theorem exists_pos : ∀ p < 25, p = 0 ∨ ∃ i < 24, p = pos (i + 1) := by decide +kernel

theorem pos_ne_zero : ∀ i < 24, 0 ≠ pos (i + 1) := by decide +kernel

/-- No word is shifted by 0 or by 64. -/
theorem distance_bounds : ∀ i < 24, 0 < distance i ∧ distance i < 64 := by decide +kernel

theorem rhoOffsets_pos : ∀ i < 24, tools.rhoOffsets (Fin.ofNat 25 (pos i)) = distance i := by
  decide +kernel

/-- The walk in the form of the general one. -/
theorem step_turns (s : State) (n : ℕ) :
    let c := (List.range n).foldl (carry pos (fun j t => R t (distance j)) 0) (s, s.getD (pos 0) 0)
    (List.range n).foldl step ⟨s, lane s 1, 1, 0, 0⟩ =
      ⟨c.1, c.2, (coords n).1, (coords n).2.1, (coords n).2.2⟩ := by
  induction n with
  | zero => rfl
  | succ n ih =>
    simp only [List.range_succ, List.foldl_append, List.foldl_cons, List.foldl_nil] at ih ⊢
    rw [ih]
    rfl

/-- The place from which `pi` takes a lane. -/
def source (p : Fin 25) : Fin 25 :=
  index ((getX p : ZMod 5) + 3 * (getY p : ZMod 5)).val ((getX p : ℕ) : ZMod 5).val

theorem pi_apply (A : Keccak.State) (p : Fin 25) : Keccak.KeccakF.pi A p = A (source p) := by
  have hlane := KeccakF.lane_pi A (getX p) (getY p)
  have hself : Keccak.lane (Keccak.KeccakF.pi A) (getX p) (getY p) = Keccak.KeccakF.pi A p := by
    have hp := Keccak.lane_index (Keccak.KeccakF.pi A) (getX p) (getY p)
    rw [Keccak.index_getX_getY] at hp
    rw [hp]
    simp only [Int.cast_natCast]
  rw [← hself, hlane]
  rfl

theorem source_pos : ∀ i < 24, source (Fin.ofNat 25 (pos (i + 1))) = Fin.ofNat 25 (pos i) := by
  decide +kernel

theorem lane_rhoPi (s : State) :
    (∀ i < 24, lane (rhoPi s) (pos (i + 1)) = R (lane s (pos i)) (distance i)) ∧
      lane (rhoPi s) 0 = lane s 0 := by
  have hwalk : rhoPi s = ((List.range 24).foldl
      (carry pos (fun j t => R t (distance j)) 0) (s, s.getD (pos 0) 0)).1 := by
    rw [rhoPi, step_turns]
  obtain ⟨hput, hrest, -⟩ := carry_turns (g := fun j t => R t (distance j)) (d := 0) s
    (fun i hi => pos_lt (i + 1) (by omega)) pos_injective
  rw [← hwalk] at hput hrest
  exact ⟨hput, hrest 0 pos_ne_zero⟩

theorem rhoPi_eq (s : State) : toTools (rhoPi s) = Keccak.KeccakF.pi (tools.rho (toTools s)) := by
  obtain ⟨hput, hzero⟩ := lane_rhoPi s
  apply Keccak.State.ext
  funext p
  have hrho : ∀ q : Fin 25, tools.rho (toTools s) q = tools.rol (lane s q) (tools.rhoOffsets q) :=
    fun _ => rfl
  rw [toTools_apply, pi_apply, hrho]
  rcases exists_pos p p.isLt with hp | ⟨i, hi, hp⟩
  · have hfirst : source p = 0 ∧ tools.rhoOffsets 0 = 0 := by
      rw [show p = 0 from Fin.ext hp]
      decide +kernel
    have hrol : tools.rol (lane s 0) 0 = lane s 0 := by
      rw [KeccakF.rol, mask_tools]
      simp only [Int.zero_tmod, lt_irrefl, if_false, Int.toNat_zero, ne_eq, not_true_eq_false,
        BitVec.and_allOnes]
    rw [hp, hzero, hfirst.1, hfirst.2]
    exact hrol.symm
  · have hfin : p = Fin.ofNat 25 (pos (i + 1)) := by
      rw [← hp]
      exact (Fin.ofNat_val_eq_self p).symm
    have hval : (Fin.ofNat 25 (pos i)).val = pos i := Nat.mod_eq_of_lt (pos_lt i (by omega))
    obtain ⟨hpos, hlt⟩ := distance_bounds i hi
    rw [hp, hput i hi, hfin, source_pos i hi, rhoOffsets_pos i hi, rol_tools _ hpos hlt, hval]

end Walk

section Rows

theorem chi_eq (s : State) : toTools (chi s) = KeccakF.chi (toTools s) := by
  have hnext : ∀ p : Fin 25, (index (getX p + 1) (getY p)).val = (p.val % 5 + 1) % 5 + 5 * (p.val / 5) := by
    decide
  have hafter : ∀ p : Fin 25, (index (getX p + 2) (getY p)).val = (p.val % 5 + 2) % 5 + 5 * (p.val / 5) := by
    decide
  apply Keccak.State.ext
  funext p
  rw [toTools_apply, chi, lane_mapFinIdx s _ p.isLt, KeccakF.chi]
  simp only [toTools_apply, hnext, hafter]

end Rows

section Register

/-- The register of `F` tests the bit that the other one is about to shift out. -/
theorem iotaStep_eq (c : U64 × Byte) (j : ℕ) : iotaStep c j =
    (if (lfsr86540 c.2).1 then c.1 ^^^ 1#64 <<< (2 ^ j - 1) else c.1, (lfsr86540 c.2).2) := by
  have hbyte : ∀ R : Byte, R <<< 1 ^^^ 113 * (R >>> 7) = (lfsr86540 R).2 ∧
      (((lfsr86540 R).2 &&& 2 != 0) = (lfsr86540 R).1) := by decide
  obtain ⟨hnew, hbit⟩ := hbyte c.2
  rw [iotaStep]
  simp only [hnew, hbit]

/-- Adding the bits to the lane one by one adds the word of them. -/
theorem iotaStep_turns (L : U64) (s : Byte) (n : ℕ) :
    let c := (List.range n).foldl roundConstantBit (s, 0)
    (List.range n).foldl iotaStep (L, s) = (L ^^^ c.2, c.1) := by
  induction n with
  | zero => exact Prod.ext (BitVec.xor_zero).symm rfl
  | succ n ih =>
    simp only [List.range_succ, List.foldl_append, List.foldl_cons, List.foldl_nil] at ih ⊢
    generalize (List.range n).foldl roundConstantBit (s, 0) = c at ih ⊢
    have hnext : roundConstantBit c n = ((lfsr86540 c.1).2,
        if (lfsr86540 c.1).1 then c.2 ^^^ 1#64 <<< (2 ^ n - 1) else c.2) := rfl
    rw [ih, iotaStep_eq, hnext]
    split_ifs with h
    · rw [← BitVec.xor_assoc]
    · rfl

/-- One round of `F` on the lanes and the register is round `ir` of KeccakTools. -/
theorem round_eq (s : State) {ir : ℕ} (hir : ir < 255) :
    toTools (round (s, lfsrState (7 * ir))).1 = tools.round (toTools s) ir ∧
      (round (s, lfsrState (7 * ir))).2 = lfsrState (7 * (ir + 1)) := by
  have hturns := iotaStep_turns (lane (chi (rhoPi (theta s))) 0) (lfsrState (7 * ir)) 7
  have hstate := (Keccak.roundConstantBit_turns (7 * ir) 7).1
  have hround : round (s, lfsrState (7 * ir)) = ((chi (rhoPi (theta s))).setIfInBounds 0
      (lane (chi (rhoPi (theta s))) 0 ^^^ constantWord ir), lfsrState (7 * (ir + 1))) := by
    rw [round, hturns, hstate]
    rfl
  rw [hround]
  refine ⟨?_, rfl⟩
  have hconst : tools.getRoundConstant ir = constantWord ir := by
    rw [KeccakF.getRoundConstant_eq, mask_tools, BitVec.and_allOnes, Nat.mod_eq_of_lt hir]
  rw [KeccakF.round, ← theta_eq, ← rhoPi_eq, ← chi_eq, KeccakF.iota, hconst]
  generalize chi (rhoPi (theta s)) = A
  apply Keccak.State.ext
  funext p
  rw [toTools_apply, lane, vector_getD_setIfInBounds A (by decide), Keccak.State.set]
  simp only [Function.update_apply]
  by_cases hp : p = index 0 0
  · have hval : p.val = 0 := congrArg Fin.val hp
    rw [if_pos hp, if_pos hval]
    rfl
  · have hval : p.val ≠ 0 := fun h => hp (Fin.ext h)
    rw [if_neg hp, if_neg hval]
    rfl

theorem toTools_F (s : State) : toTools (F s) = tools.forward (toTools s) := by
  have hrounds : tools.forwardRounds = (List.range 24).map fun ir : ℕ => (ir : ℤ) := by decide
  have hrun : ∀ n ≤ 24,
      toTools ((List.range n).foldl (fun c _ => round c) (s, 1)).1 =
        (List.range n).foldl (fun A (ir : ℕ) => tools.round A ir) (toTools s) ∧
      ((List.range n).foldl (fun c _ => round c) (s, 1)).2 = lfsrState (7 * n) := by
    intro n hn
    induction n with
    | zero => exact ⟨rfl, rfl⟩
    | succ n ih =>
      obtain ⟨hlanes, hregister⟩ := ih (by omega)
      obtain ⟨hlanes', hregister'⟩ := round_eq
        ((List.range n).foldl (fun c _ => round c) (s, 1)).1 (show n < 255 by omega)
      rw [← hregister] at hlanes' hregister'
      simp only [List.range_succ, List.foldl_append, List.foldl_cons, List.foldl_nil]
      rw [← hlanes]
      exact ⟨hlanes', hregister'⟩
  rw [F, KeccakF.forward, hrounds, List.foldl_map]
  exact (hrun 24 le_rfl).1

end Register

end PqPsi.Permutation.Fips202
