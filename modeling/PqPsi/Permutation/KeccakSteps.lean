import PqPsi.Permutation.KeccakBits

/-!
# The step mappings of KeccakTools

Each step mapping of the forward and of the inverse rounds refines its
counterpart on bits.
-/
namespace PqPsi.Permutation.Keccak.KeccakF
open Lib Lib.BitPoly Lib.Convolution
open scoped Lib.KeccakP
open Lib.KeccakP (Bits parity effect Undoes)

variable (k : KeccakF)

section Columns

theorem lane_columns (A : State) (x : Fin 5) : columns A x =
    lane A (x.val : ZMod 5) 0 ^^^ lane A (x.val : ZMod 5) 1 ^^^ lane A (x.val : ZMod 5) 2 ^^^
      lane A (x.val : ZMod 5) 3 ^^^ lane A (x.val : ZMod 5) 4 := by
  simp only [columns, List.foldl_cons, List.foldl_nil, lane_index]
  rfl

/-- The vector `C` holds the parities of the columns. -/
theorem bits_columns (A : State) (x : ℤ) (z : ZMod k.laneSize) :
    ofBool ((columns A (index1 x)).getLsbD z.val) = parity (k.bits A) (x, z) := by
  have hx : (((index1 x).val : ℕ) : ZMod 5) = x := by
    have h : (((index1 x).val : ℤ) : ZMod 5) = ((x % 5 : ℤ) : ZMod 5) := by rw [val_index1]
    rw [Int.cast_natCast] at h
    exact h.trans (ZMod.intCast_mod x 5)
  have hsum : ∀ f : ZMod 5 → ZMod 2, ∑ y, f y = f 0 + f 1 + f 2 + f 3 + f 4 := Fin.sum_univ_five
  rw [lane_columns, hx, parity, hsum]
  simp only [BitVec.getLsbD_xor, ofBool_xor, bits]

theorem getLsbD_columns_of_ge {A : State} (hA : k.Masked A) (x : Fin 5) {p : ℕ}
    (hp : k.laneSize ≤ p) : (columns A x).getLsbD p = false := by
  have hlane : ∀ x y, (lane A x y).getLsbD p = false := fun x y => hA _ p hp
  simp only [lane_columns, BitVec.getLsbD_xor, hlane, Bool.xor_false]

theorem refines_theta : k.Refines k.theta KeccakP.theta := by
  intro A hA
  constructor
  · intro i p hp
    simp only [theta, BitVec.getLsbD_xor, hA i p hp, k.getLsbD_rol_of_ge _ _ hp,
      k.getLsbD_columns_of_ge hA _ hp, Bool.xor_false]
  · funext x y z
    simp only [bits, theta, lane_mk, BitVec.getLsbD_xor, ofBool_xor, ofBool_getLsbD_rol,
      bits_columns, getX_index, KeccakP.theta]
    push_cast
    rw [ZMod.natCast_zmod_val, add_comm (parity _ _), ← add_assoc]
    rfl

end Columns

section InverseTheta

/-- The bits of the folded table. -/
def kernel (p : ZMod 5 × ZMod k.laneSize) : ZMod 2 :=
  ofBool ((k.inversePositions p.1).getLsbD p.2.val)

/-- The words added to a lane, as a sum of bits. -/
theorem ofBool_foldl_xor {ι : Type*} (c : ι → Bool) (v : ι → LaneValue) (l : List ι) (L : LaneValue)
    (p : ℕ) : ofBool ((l.foldl (fun L d => if c d then L ^^^ v d else L) L).getLsbD p) =
      ofBool (L.getLsbD p) + (l.map fun d => ofBool (c d) * ofBool ((v d).getLsbD p)).sum := by
  induction l generalizing L with
  | nil => simp
  | cons d l ih =>
    rw [List.foldl_cons, ih, List.map_cons, List.sum_cons, ← add_assoc]
    congr 1
    cases c d with
    | true =>
      have hone : ofBool true = 1 := rfl
      rw [if_pos rfl, BitVec.getLsbD_xor, ofBool_xor, hone, one_mul]
    | false => simp [ofBool]

/-- The lanes, the vector `C` and the table after `n` turns of the loop. -/
structure AfterTurns (A : State) (n : ℕ)
    (s : State × (Fin 5 → LaneValue) × (Fin 5 → LaneValue)) : Prop where
  lanes_masked : k.Masked s.1
  lanes : ∀ x y z, k.bits s.1 x y z = k.bits A x y z +
    ∑ i ∈ Finset.range n, ∑ d, k.kernel (d, i) * parity (k.bits A) (x - d, z - i)
  columns_masked : ∀ x p, k.laneSize ≤ p → (s.2.1 x).getLsbD p = false
  parities : ∀ (x : ℤ) (z : ZMod k.laneSize),
    ofBool ((s.2.1 (index1 x)).getLsbD z.val) = parity (k.bits A) (x, z - n)
  table : ∀ d, s.2.2 d = k.inversePositions d >>> n

theorem afterTurns_zero {A : State} (hA : k.Masked A) :
    k.AfterTurns A 0 (A, columns A, k.inversePositions) where
  lanes_masked := hA
  lanes x y z := by rw [Finset.sum_range_zero, add_zero]
  columns_masked x _ hp := k.getLsbD_columns_of_ge hA x hp
  parities x z := by rw [bits_columns, Nat.cast_zero, sub_zero]
  table d := by rw [BitVec.ushiftRight_zero]

variable {k}

theorem AfterTurns.step {A : State} {n : ℕ} {s : State × (Fin 5 → LaneValue) × (Fin 5 → LaneValue)}
    (hn : n < k.laneSize) (h : k.AfterTurns A n s) : k.AfterTurns A (n + 1) (k.inverseThetaStep s) where
  lanes_masked i p hp := by
    have hfold := ofBool_foldl_xor (fun d => s.2.2 d &&& 1 != 0)
      (fun d => s.2.1 (index1 ((getX i : ℤ) - d.val))) (List.finRange 5) (s.1 i) p
    have hzero : ∀ d, (s.2.1 d).getLsbD p = false := fun d => h.columns_masked d p hp
    simp only [hzero, h.lanes_masked i p hp] at hfold
    apply ofBool_injective
    rw [inverseThetaStep, hfold]
    simp [ofBool]
  lanes x y z := by
    have hfold := ofBool_foldl_xor (fun d => s.2.2 d &&& 1 != 0)
      (fun d => s.2.1 (index1 ((x.val : ℤ) - d.val))) (List.finRange 5) (s.1 (index x.val y.val)) z.val
    have hterm : ∀ d : ZMod 5, ofBool ((s.2.2 : ZMod 5 → LaneValue) d &&& 1 != 0) *
        ofBool ((s.2.1 (index1 ((x.val : ℤ) - d.val))).getLsbD z.val) =
          k.kernel (d, n) * parity (k.bits A) (x - d, z - n) := by
      intro d
      have hx : (((x.val : ℤ) - (d.val : ℤ) : ℤ) : ZMod 5) = x - d := by simp
      have htable : ((s.2.2 : ZMod 5 → LaneValue) d &&& 1 != 0) = (k.inversePositions d).getLsbD n :=
        (congrArg (· &&& 1 != 0) (h.table d)).trans (BitLinear.shiftRight_and_one _ _)
      rw [htable, h.parities, hx, kernel, ZMod.val_natCast_of_lt hn]
    have hstep : k.bits (k.inverseThetaStep s).1 x y z = ofBool (((List.finRange 5).foldl
        (fun L d => if s.2.2 d &&& 1 != 0 then L ^^^ s.2.1 (index1 ((x.val : ℤ) - d.val)) else L)
        (s.1 (index x.val y.val))).getLsbD z.val) := by
      simp only [bits, inverseThetaStep, lane_mk, getX_index]
    rw [hstep, hfold, Finset.sum_range_succ, ← add_assoc, ← h.lanes]
    have hsum : ∀ f : ZMod 5 → ZMod 2, ((List.finRange 5).map f).sum = ∑ d, f d := fun f =>
      (Fin.sum_univ_def f).symm
    rw [← Finset.sum_congr rfl fun d _ => hterm d]
    exact congrArg _ (hsum _)
  columns_masked x p hp := k.getLsbD_rol_of_ge _ _ hp
  parities x z := by
    rw [inverseThetaStep, ofBool_getLsbD_rol, h.parities]
    congr 2
    push_cast
    ring
  table d := by
    have hstep : (k.inverseThetaStep s).2.2 d = s.2.2 d >>> 1 := rfl
    rw [hstep, h.table, BitVec.shiftRight_add]

theorem AfterTurns.run {A : State} (hA : k.Masked A) {n : ℕ} (hn : n ≤ k.laneSize) :
    k.AfterTurns A n ((List.range n).foldl (fun s _ => k.inverseThetaStep s)
      (A, columns A, k.inversePositions)) := by
  induction n with
  | zero => exact k.afterTurns_zero hA
  | succ n ih =>
    rw [List.range_succ, List.foldl_append]
    exact (ih (by omega)).step hn

variable (k)

/-- The loop adds the convolution of the column parities with the table. -/
theorem refines_inverseTheta : k.Refines k.inverseTheta (KeccakP.untheta k.kernel) := by
  intro A hA
  have hrun := AfterTurns.run hA (le_refl k.laneSize)
  refine ⟨hrun.lanes_masked, ?_⟩
  funext x y z
  have hlanes := hrun.lanes x y z
  rw [sum_range_residues fun i => ∑ d, k.kernel (d, i) * parity (k.bits A) (x - d, z - i),
    Finset.sum_comm] at hlanes
  rw [KeccakP.untheta, conv, Fintype.sum_prod_type]
  exact hlanes

/-- One object of each width. -/
def everyWidth : List KeccakF :=
  [25, 50, 100, 200, 400, 800, 1600].filterMap fun width => (keccakFNominal width).toOption

/-- The words of the kernel equation. -/
def TableUndoes : Prop := ∀ x : Fin 5,
  (k.inversePositions x ^^^ k.inversePositions (x - 1)) &&& k.mask ^^^
      k.rol (k.inversePositions (x + 1)) 1 =
    if x = 1 then 1#64 else if x = 4 then 1#64 <<< (1 % k.laneSize) else 0#64

instance : Decidable k.TableUndoes := inferInstanceAs (Decidable (∀ _, _))

theorem tableUndoes : k.TableUndoes := by
  have hall : ∀ k' ∈ everyWidth, k'.TableUndoes := by decide +kernel
  have hwidth : ∃ k' ∈ everyWidth, k'.width = k.width := by
    have hevery : ∀ width ∈ [25, 50, 100, 200, 400, 800, 1600],
        ∃ k' ∈ everyWidth, k'.width = width := by decide +kernel
    apply hevery
    rcases k.width_cases with h | h | h | h | h | h | h <;> simp [h]
  obtain ⟨k', hmem, heq⟩ := hwidth
  have hsize : k'.laneSize = k.laneSize := by rw [laneSize, laneSize, heq]
  have htable := hall k' hmem
  simp only [TableUndoes, inversePositions, rol, mask, hsize] at htable ⊢
  exact htable

/-- The bit `z` of the words that the table is checked against. -/
theorem ofBool_effect (x : ZMod 5) (z : ZMod k.laneSize) :
    ofBool ((if x = 1 then 1#64 else if x = 4 then 1#64 <<< (1 % k.laneSize)
      else 0#64).getLsbD z.val) = effect (x, z) := by
  have hz : z.val < 64 := (ZMod.val_lt z).trans_le k.laneSize_le
  have hzero : z.val = 0 ↔ z = 0 := ZMod.val_eq_zero z
  have hone : z.val = 1 % k.laneSize ↔ z = 1 := by
    rw [← ZMod.val_one_eq_one_mod, (ZMod.val_injective _).eq_iff]
  have hneg : (-1 : ZMod 5) = 4 := rfl
  have h14 : (1 : ZMod 5) ≠ 4 := by decide
  simp only [effect, Pi.add_apply, Pi.single_apply, Prod.mk.injEq, hneg]
  have hunit : ∀ i, (1#64 <<< i).getLsbD z.val = decide (z.val = i) := by
    intro i
    have h : (BitLinear.unit i : LaneValue).getLsbD z.val = decide (z.val < 64 ∧ z.val = i) :=
      BitLinear.getLsbD_unit i z.val
    simpa only [BitLinear.unit, hz, true_and] using h
  by_cases h1 : x = 1
  · have hbit : (1#64).getLsbD z.val = decide (z = 0) := by
      rw [← BitVec.shiftLeft_zero 1#64, hunit, decide_eq_decide]
      exact hzero
    rw [if_pos h1, hbit, ofBool]
    simp [h1, h14]
  · by_cases h4 : x = 4
    · rw [if_neg h1, if_pos h4, hunit, ofBool]
      simp [h4, hone, Ne.symm h14]
    · simp [h1, h4, ofBool]

/-- The folded table solves the kernel equation, for every width. -/
theorem kernel_undoes : Undoes k.kernel := by
  funext ⟨x, z⟩
  have hword := congrArg (fun L : LaneValue => ofBool (L.getLsbD z.val)) (k.tableUndoes x)
  have hmask : k.mask.getLsbD z.val = true := by
    rw [getLsbD_mask]
    exact decide_eq_true (ZMod.val_lt z)
  simp only [BitVec.getLsbD_xor, BitVec.getLsbD_and, hmask, Bool.and_true, ofBool_xor,
    ofBool_getLsbD_rol] at hword
  have heffect := hword.trans (k.ofBool_effect x z)
  have hdiff : ∀ d : ZMod 5 × ZMod k.laneSize, (x, z) - d = (x - d.1, z - d.2) := fun _ => rfl
  rw [conv_comm, Pi.add_apply, effect, conv_add_left, Pi.add_apply, conv_single, conv_single,
    hdiff, hdiff, ← effect, ← heffect, sub_zero, sub_neg_eq_add, Int.cast_one]
  exact (add_assoc _ _ _).symm

end InverseTheta

section Lanes

theorem rhoOffsets_eq (x y : ZMod 5) :
    k.rhoOffsets (index x.val y.val) = KeccakP.rhoOffset x y % k.laneSize := by
  have hsizes : ∀ w ∈ [1, 2, 4, 8, 16, 32, 64], ∀ x y : ZMod 5,
      initializeRhoOffsets w (index x.val y.val) = KeccakP.rhoOffset x y % w := by decide +kernel
  apply hsizes
  have h := k.laneSize_cases
  simp only [List.mem_cons, List.not_mem_nil, or_false]
  exact h

theorem refines_rho : k.Refines k.rho KeccakP.rho := by
  intro A _
  refine ⟨fun i p hp => k.getLsbD_rol_of_ge _ _ hp, ?_⟩
  funext x y z
  simp only [bits, rho, lane_mk, ofBool_getLsbD_rol, rhoOffsets_eq, KeccakP.rho]
  rw [Int.cast_natCast, ZMod.natCast_mod]
  rfl

theorem refines_inverseRho : k.Refines k.inverseRho KeccakP.unrho := by
  intro A _
  refine ⟨fun i p hp => k.getLsbD_rol_of_ge _ _ hp, ?_⟩
  funext x y z
  simp only [bits, inverseRho, lane_mk, ofBool_getLsbD_rol, rhoOffsets_eq, KeccakP.unrho]
  rw [Int.cast_neg, Int.cast_natCast, ZMod.natCast_mod, sub_neg_eq_add]
  rfl

theorem lane_pi (A : State) (x y : ZMod 5) : lane (pi A) x y = lane A (x + 3 * y) x := by
  fin_cases x <;> fin_cases y <;> rfl

theorem lane_inversePi (A : State) (x y : ZMod 5) :
    lane (inversePi A) x y = lane A y (2 * x + 3 * y) := by
  fin_cases x <;> fin_cases y <;> rfl

/-- Lanes that move as a whole keep their masks. -/
theorem masked_of_lane {A B : State} (hA : k.Masked A) (f : ZMod 5 → ZMod 5 → ZMod 5 × ZMod 5)
    (h : ∀ x y, lane B x y = lane A (f x y).1 (f x y).2) : k.Masked B := by
  intro i p hp
  rw [← index_getX_getY i, lane_index, h]
  exact hA _ p hp

theorem refines_pi : k.Refines pi KeccakP.pi := by
  intro A hA
  refine ⟨k.masked_of_lane hA (fun x y => (x + 3 * y, x)) (lane_pi A), ?_⟩
  funext x y z
  rw [bits, lane_pi]
  rfl

theorem refines_inversePi : k.Refines inversePi KeccakP.unpi := by
  intro A hA
  refine ⟨k.masked_of_lane hA (fun x y => (y, 2 * x + 3 * y)) (lane_inversePi A), ?_⟩
  funext x y z
  rw [bits, lane_inversePi]
  rfl

end Lanes

section Rows

/-- The complement of a bit. -/
theorem ofBool_not_and (a b : Bool) : ofBool (!a && b) = (ofBool a + 1) * ofBool b := by
  cases a <;> cases b <;> decide

theorem lane_chi (A : State) (x y : ZMod 5) :
    lane (chi A) x y = lane A x y ^^^ (~~~lane A (x + 1) y &&& lane A (x + 2) y) := by
  simp only [chi, lane_mk, getX_index, getY_index, lane_index]
  push_cast
  rw [ZMod.natCast_zmod_val, ZMod.natCast_zmod_val]

theorem refines_chi : k.Refines chi KeccakP.chi := by
  intro A hA
  constructor
  · intro i p hp
    simp only [chi, BitVec.getLsbD_xor, BitVec.getLsbD_and, hA _ p hp, Bool.and_false,
      Bool.xor_false]
  · funext x y z
    have hz : z.val < 64 := (ZMod.val_lt z).trans_le k.laneSize_le
    simp only [bits, lane_chi, BitVec.getLsbD_xor, BitVec.getLsbD_and, BitVec.getLsbD_not, hz,
      decide_true, Bool.true_and, ofBool_xor, ofBool_not_and]
    rfl

/-- Lane `(x, y)` after the last assignment to it in `inverseChi`. -/
def unchiLane (A : State) (x y : ZMod 5) : LaneValue :=
  lane A x y ^^^ (~~~lane A (x + 1) y &&&
    (lane A (x + 2) y ^^^ (~~~lane A (x + 3) y &&& lane A (x + 4) y)))

/-- The lane two places on has been assigned before, and what it then holds is good enough. -/
theorem unchiLane_eq (A : State) (x y : ZMod 5) :
    lane A x y ^^^ (unchiLane A (x + 2) y &&& ~~~lane A (x + 1) y) = unchiLane A x y := by
  have hbits : ∀ a b c d e : Bool, (a ^^ ((c ^^ (!d && (e ^^ (!a && b)))) && !b)) =
      (a ^^ (!b && (c ^^ (!d && e)))) := by decide
  have hturn : ∀ x : ZMod 5, x + 2 + 1 = x + 3 ∧ x + 2 + 2 = x + 4 ∧ x + 2 + 3 = x ∧
      x + 2 + 4 = x + 1 := by decide
  obtain ⟨h1, h2, h3, h4⟩ := hturn x
  rw [unchiLane, unchiLane, h1, h2, h3, h4]
  ext p hp
  simp only [BitVec.getElem_xor, BitVec.getElem_and, BitVec.getElem_not]
  exact hbits _ _ _ _ _

/-- What lane 0 holds between the two assignments to it. -/
def firstLane (A : State) (y : ZMod 5) : LaneValue := lane A 0 y ^^^ (lane A 2 y &&& ~~~lane A 1 y)

theorem firstLane_eq (A : State) (y : ZMod 5) :
    lane A 3 y ^^^ (firstLane A y &&& ~~~lane A 4 y) = unchiLane A 3 y := by
  have hturn : (3 : ZMod 5) + 1 = 4 ∧ (3 : ZMod 5) + 2 = 0 ∧ (3 : ZMod 5) + 3 = 1 ∧
      (3 : ZMod 5) + 4 = 2 := by decide
  obtain ⟨h1, h2, h3, h4⟩ := hturn
  rw [firstLane, unchiLane, h1, h2, h3, h4, BitVec.and_comm (lane A 2 y), BitVec.and_comm _ (~~~_)]

theorem lane_inverseChiStep (A B : State) (y₀ n : ℕ) (x y : ZMod 5) :
    lane (inverseChiStep (fun x => A (index x.val y₀)) y₀ B n) x y =
      if x = 3 * n ∧ y = y₀ then
        lane A (3 * n) y₀ ^^^ (lane B (3 * n + 2) y₀ &&& ~~~lane A (3 * n + 1) y₀)
      else lane B x y := by
  have hcopy : ∀ X : ℤ, A (index (index1 X).val y₀) = lane A X y₀ := by
    intro X
    have hX : ((((index1 X).val : ℕ) : ℤ) : ZMod 5) = X := by
      rw [val_index1]
      exact ZMod.intCast_mod X 5
    rw [lane_index, hX, Int.cast_natCast]
  have h3 : (5 : ℤ) - 2 = 3 := rfl
  rw [inverseChiStep]
  simp only [lane_set, hcopy, lane_index, h3]
  push_cast
  rfl

/-- Lane `x` gets its last value in one of the turns from 1 to `n`. -/
def Assigned (n : ℕ) (x : ZMod 5) : Prop := ∃ i ∈ List.range' 1 n, x = 3 * (i : ZMod 5)

instance (n : ℕ) (x : ZMod 5) : Decidable (Assigned n x) :=
  inferInstanceAs (Decidable (∃ i ∈ List.range' 1 n, _))

theorem assigned_succ (n : ℕ) (x : ZMod 5) :
    Assigned (n + 1) x ↔ x = 3 * ((n + 1 : ℕ) : ZMod 5) ∨ Assigned n x := by
  simp only [Assigned, List.range'_1_concat, List.mem_append, List.mem_singleton]
  constructor
  · rintro ⟨i, hi | rfl, hx⟩
    · exact .inr ⟨i, hi, hx⟩
    · exact .inl (by rw [hx, Nat.add_comm])
  · rintro (hx | ⟨i, hi, hx⟩)
    · exact ⟨1 + n, .inr rfl, by rw [hx, Nat.add_comm]⟩
    · exact ⟨i, .inl hi, hx⟩

/-- The row after turn `n`; the turns are counted from 0. -/
theorem lane_turns (A : State) (y₀ n : ℕ) (x y : ZMod 5) :
    lane ((List.range (n + 1)).foldl (inverseChiStep (fun x => A (index x.val y₀)) y₀) A) x y =
      if y = y₀ then
        if Assigned n x then unchiLane A x y else if x = 0 then firstLane A y else lane A x y
      else lane A x y := by
  induction n generalizing x y with
  | zero =>
    have hnone : ¬ Assigned 0 x := by rintro ⟨i, hi, -⟩; simp at hi
    rw [List.range_one, List.foldl_cons, List.foldl_nil, lane_inverseChiStep, if_neg hnone]
    by_cases hy : y = y₀
    · subst hy
      by_cases hx : x = 0 <;> simp [hx, firstLane]
    · simp [hy]
  | succ n ih =>
    rw [List.range_succ, List.foldl_append, List.foldl_cons, List.foldl_nil, lane_inverseChiStep]
    simp only [ih]
    by_cases hy : y = y₀
    · subst hy
      by_cases hx : x = 3 * ((n + 1 : ℕ) : ZMod 5)
      · have hdone : Assigned (n + 1) x := (assigned_succ n x).mpr (.inl hx)
        have hback : (3 * ((n + 1 : ℕ) : ZMod 5)) + 2 = 3 * (n : ZMod 5) := by
          have h5 : (5 : ZMod 5) = 0 := rfl
          push_cast
          linear_combination h5
        rw [if_pos ⟨hx, rfl⟩, if_pos trivial, if_pos rfl, if_pos hdone, ← hx]
        rw [← hx] at hback
        rcases Nat.eq_zero_or_pos n with rfl | hn
        · -- the second turn reads what the first one left in lane 0
          have hnone : ¬ Assigned 0 (x + 2) := by rintro ⟨i, hi, -⟩; simp at hi
          have h0 : x + 2 = 0 := by simpa using hback
          have h3 : x = 3 := by simpa using hx
          rw [if_neg hnone, if_pos h0, h3]
          exact firstLane_eq A y₀
        · have hlast : Assigned n (x + 2) := ⟨n, List.mem_range'_1.mpr (by omega), hback⟩
          rw [if_pos hlast, unchiLane_eq]
      · have hdone : Assigned (n + 1) x ↔ Assigned n x := by
          rw [assigned_succ]
          exact or_iff_right hx
        simp only [hx, hdone, false_and, if_false]
    · simp [hy]

theorem lane_inverseChiRow (A : State) (y₀ : ℕ) (x y : ZMod 5) :
    lane (inverseChiRow A y₀) x y = if y = y₀ then unchiLane A x y else lane A x y := by
  have hall : ∀ x, Assigned 5 x := by decide
  have h := lane_turns A y₀ 5 x y
  rwa [if_pos (hall x)] at h

/-- The rows below `y` after the loop over them. -/
theorem lane_rows (A : State) {n : ℕ} (hn : n ≤ 5) (x y : ZMod 5) :
    lane ((List.range n).foldl inverseChiRow A) x y =
      if y.val < n then unchiLane A x y else lane A x y := by
  induction n generalizing x y with
  | zero => rfl
  | succ n ih =>
    have hrow : ∀ x, lane ((List.range n).foldl inverseChiRow A) x (n : ZMod 5) = lane A x n := by
      intro x
      rw [ih (by omega), ZMod.val_natCast_of_lt (by omega), if_neg (lt_irrefl n)]
    rw [List.range_succ, List.foldl_append, List.foldl_cons, List.foldl_nil, lane_inverseChiRow]
    by_cases hy : y = n
    · have hval : y.val = n := by rw [hy, ZMod.val_natCast_of_lt (by omega)]
      rw [if_pos hy, if_pos (by omega), hy]
      simp only [unchiLane, hrow]
    · have hval : y.val ≠ n := by
        intro h
        exact hy (by rw [← h, ZMod.natCast_zmod_val])
      rw [if_neg hy, ih (by omega)]
      simp only [show y.val < n + 1 ↔ y.val < n by omega]

theorem lane_inverseChi (A : State) (x y : ZMod 5) : lane (inverseChi A) x y = unchiLane A x y := by
  rw [inverseChi, lane_rows A le_rfl, if_pos (ZMod.val_lt y)]

theorem refines_inverseChi : k.Refines inverseChi KeccakP.unchi := by
  intro A hA
  constructor
  · intro i p hp
    have hlane : ∀ x y, (lane A x y).getLsbD p = false := fun x y => hA _ p hp
    rw [← index_getX_getY i, lane_index, lane_inverseChi]
    simp only [unchiLane, BitVec.getLsbD_xor, BitVec.getLsbD_and, hlane, Bool.and_false,
      Bool.xor_false]
  · funext x y z
    have hz : z.val < 64 := (ZMod.val_lt z).trans_le k.laneSize_le
    simp only [bits, lane_inverseChi, unchiLane, BitVec.getLsbD_xor, BitVec.getLsbD_and,
      BitVec.getLsbD_not, hz, decide_true, Bool.true_and, ofBool_xor, ofBool_not_and]
    rfl

end Rows

section Constants

theorem lane_iota (A : State) (ir : ℤ) (x y : ZMod 5) : lane (k.iota A ir) x y =
    if x = 0 ∧ y = 0 then lane A x y ^^^ k.getRoundConstant ir else lane A x y := by
  have hset := lane_set A 0 0 (A (index 0 0) ^^^ k.getRoundConstant ir) x y
  rw [Int.cast_zero] at hset
  rw [iota, hset, lane_index, Int.cast_zero]
  split_ifs with h
  · rw [h.1, h.2]
  · rfl

end Constants

end PqPsi.Permutation.Keccak.KeccakF
