import PqPsi.Lib.KeccakP
import PqPsi.Permutation.Keccak

/-!
# The lanes of KeccakTools as bits

The object of any width computes the step mappings of Keccak-p and their
inverses. Each of them keeps the lanes inside the mask and acts on the bits as
the abstract mapping does.
-/
namespace PqPsi.Permutation.Keccak
open Lib Lib.BitPoly Lib.Convolution
open scoped Lib.KeccakP
open Lib.KeccakP (Bits parity effect Undoes)

section Places

theorem val_index1 (x : ℤ) : ((index1 x).val : ℤ) = x % 5 := by
  have hlow := Int.emod_nonneg x (show (5 : ℤ) ≠ 0 by norm_num)
  have hhigh := Int.emod_lt_of_pos x (show (0 : ℤ) < 5 by norm_num)
  have htmod : (if x.tmod 5 < 0 then x.tmod 5 + 5 else x.tmod 5) = x % 5 := by
    rw [Int.tmod_eq_emod]
    split_ifs <;> omega
  rw [index1]
  simp only [htmod, Fin.val_ofNat]
  omega

/-- Coordinates count modulo five. -/
theorem index1_eq_iff {x y : ℤ} : index1 x = index1 y ↔ (x : ZMod 5) = y := by
  rw [ZMod.intCast_eq_intCast_iff', ← Fin.val_inj, ← Nat.cast_inj (R := ℤ), val_index1, val_index1]
  rfl

theorem val_index (x y : ℤ) : (index x y).val = (index1 x).val + 5 * (index1 y).val := by
  have hx := (index1 x).isLt
  have hy := (index1 y).isLt
  rw [index, Fin.val_ofNat, Nat.mod_eq_of_lt (by omega)]

theorem index_eq_iff {x y x' y' : ℤ} :
    index x y = index x' y' ↔ (x : ZMod 5) = x' ∧ (y : ZMod 5) = y' := by
  have hx := (index1 x).isLt
  have hx' := (index1 x').isLt
  rw [← index1_eq_iff, ← index1_eq_iff, ← Fin.val_inj, ← Fin.val_inj, ← Fin.val_inj, val_index,
    val_index]
  omega

theorem index_getX_getY (i : Fin 25) : index (getX i) (getY i) = i := by
  revert i
  decide

/-- Lane `(x, y)` of a state. -/
def lane (A : State) (x y : ZMod 5) : LaneValue := A (index x.val y.val)

theorem lane_index (A : State) (x y : ℤ) : A (index x y) = lane A x y := by
  rw [lane]
  congr 1
  rw [index_eq_iff]
  simp

@[simp] theorem lane_mk (f : Fin 25 → LaneValue) (x y : ZMod 5) :
    lane ⟨f⟩ x y = f (index x.val y.val) := rfl

theorem lane_set (A : State) (a b : ℤ) (L : LaneValue) (x y : ZMod 5) :
    lane (A.set (index a b) L) x y = if x = a ∧ y = b then L else lane A x y := by
  have hplace : index x.val y.val = index a b ↔ x = a ∧ y = b := by
    rw [index_eq_iff]
    simp
  simp only [lane, State.set, Function.update_apply, hplace]

@[ext]
theorem ext_lane {A B : State} (h : ∀ x y, lane A x y = lane B x y) : A = B := by
  apply State.ext
  funext i
  rw [← index_getX_getY i, lane_index, lane_index, h]

@[simp] theorem getX_index (x y : ZMod 5) : getX (index x.val y.val) = x.val := by
  revert x y
  decide

@[simp] theorem getY_index (x y : ZMod 5) : getY (index x.val y.val) = y.val := by
  revert x y
  decide

end Places

namespace KeccakF
variable (k : KeccakF)

section Sizes

theorem width_cases : k.width = 25 ∨ k.width = 50 ∨ k.width = 100 ∨ k.width = 200 ∨
    k.width = 400 ∨ k.width = 800 ∨ k.width = 1600 := by
  have h := k.accepted
  unfold initializeNominalNumberOfRounds at h
  split at h <;> simp_all

theorem laneSize_cases : k.laneSize = 1 ∨ k.laneSize = 2 ∨ k.laneSize = 4 ∨ k.laneSize = 8 ∨
    k.laneSize = 16 ∨ k.laneSize = 32 ∨ k.laneSize = 64 := by
  have h := k.width_cases
  unfold laneSize
  omega

theorem width_eq : k.width = 25 * k.laneSize := by
  have h := k.width_cases
  unfold laneSize
  omega

theorem laneSize_pos : 0 < k.laneSize := by
  have h := k.laneSize_cases
  omega

theorem laneSize_le : k.laneSize ≤ 64 := by
  have h := k.laneSize_cases
  omega

instance : NeZero k.laneSize := ⟨k.laneSize_pos.ne'⟩

theorem getLsbD_mask (p : ℕ) : k.mask.getLsbD p = decide (p < k.laneSize) := by
  have hle := k.laneSize_le
  rw [mask, BitVec.getLsbD_ushiftRight, BitVec.getLsbD_allOnes]
  rw [decide_eq_decide]
  omega

end Sizes

section Abstraction

/-- The lanes have no bits behind `laneSize`. -/
def Masked (A : State) : Prop := ∀ i p, k.laneSize ≤ p → (A i).getLsbD p = false

/-- The bits of a state. -/
def bits (A : State) : Bits k.laneSize := fun x y z => ofBool ((lane A x y).getLsbD z.val)

theorem bits_injective {A B : State} (hA : k.Masked A) (hB : k.Masked B) (h : k.bits A = k.bits B) :
    A = B := by
  ext x y p
  have hbit : (lane A x y).getLsbD p = (lane B x y).getLsbD p := by
    by_cases hp : p < k.laneSize
    · have hxy := congrFun (congrFun (congrFun h x) y) (p : ZMod k.laneSize)
      simp only [bits, ZMod.val_natCast_of_lt hp] at hxy
      exact ofBool_injective hxy
    · rw [lane, lane, hA _ p (not_lt.mp hp), hB _ p (not_lt.mp hp)]
  exact hbit

/-- A step on masked states that acts on the bits as `F`. -/
def Refines (f : State → State) (F : Bits k.laneSize → Bits k.laneSize) : Prop :=
  ∀ A, k.Masked A → k.Masked (f A) ∧ k.bits (f A) = F (k.bits A)

variable {k}

theorem Refines.comp {f g : State → State} {F G : Bits k.laneSize → Bits k.laneSize}
    (hg : k.Refines g G) (hf : k.Refines f F) : k.Refines (fun A => g (f A)) (fun a => G (F a)) := by
  intro A hA
  obtain ⟨hmask, hbits⟩ := hf A hA
  obtain ⟨hmask', hbits'⟩ := hg (f A) hmask
  exact ⟨hmask', by rw [hbits', hbits]⟩

theorem Refines.foldl {ι : Type*} {f : State → ι → State}
    {F : Bits k.laneSize → ι → Bits k.laneSize} {l : List ι}
    (h : ∀ i ∈ l, k.Refines (fun A => f A i) (fun a => F a i)) :
    k.Refines (fun A => l.foldl f A) (fun a => l.foldl F a) := by
  induction l with
  | nil => exact fun A hA => ⟨hA, rfl⟩
  | cons i l ih =>
    intro A hA
    obtain ⟨hmask, hbits⟩ := h i List.mem_cons_self A hA
    obtain ⟨hmask', hbits'⟩ := ih (fun j hj => h j (List.mem_cons_of_mem _ hj)) (f A i) hmask
    simp only at hmask' hbits'
    rw [hbits] at hbits'
    exact ⟨hmask', hbits'⟩

end Abstraction

section Rotation

/-- The distance of a rotation as the loop body reduces it. -/
theorem reduce_offset (offset : ℤ) :
    (if offset.tmod k.laneSize < 0 then offset.tmod k.laneSize + k.laneSize
      else offset.tmod k.laneSize) = offset % k.laneSize := by
  have hpos := k.laneSize_pos
  have hlow := Int.emod_nonneg offset (show (k.laneSize : ℤ) ≠ 0 by omega)
  have hhigh := Int.emod_lt_of_pos offset (show (0 : ℤ) < k.laneSize by omega)
  rw [Int.tmod_eq_emod]
  split_ifs <;> omega

theorem getLsbD_rol_of_ge (L : LaneValue) (offset : ℤ) {p : ℕ} (hp : k.laneSize ≤ p) :
    (k.rol L offset).getLsbD p = false := by
  rw [rol]
  simp only [BitVec.getLsbD_and, getLsbD_mask, decide_eq_false (not_lt.mpr hp), Bool.and_false]

/-- A translated lane reads its bits from `offset` places back. -/
theorem getLsbD_rol (L : LaneValue) (offset : ℤ) {p : ℕ} (hp : p < k.laneSize) :
    (k.rol L offset).getLsbD p = L.getLsbD (((p : ℤ) - offset) % k.laneSize).toNat := by
  have hpos := k.laneSize_pos
  have hle := k.laneSize_le
  have hlow := Int.emod_nonneg offset (show (k.laneSize : ℤ) ≠ 0 by omega)
  have hhigh := Int.emod_lt_of_pos offset (show (0 : ℤ) < k.laneSize by omega)
  obtain ⟨r, hr⟩ := Int.eq_ofNat_of_zero_le hlow
  have hback : (((p : ℤ) - offset) % k.laneSize).toNat = if p < r then p + k.laneSize - r else p - r := by
    rw [← Int.sub_emod_emod, hr]
    split_ifs with hlt
    · rw [← Int.add_emod_right, Int.emod_eq_of_lt (by omega) (by omega)]
      omega
    · rw [Int.emod_eq_of_lt (by omega) (by omega)]
      omega
  rw [hr] at hhigh
  rw [hback, rol]
  simp only [reduce_offset, hr, Int.toNat_natCast]
  rw [BitVec.getLsbD_and, getLsbD_mask, decide_eq_true hp, Bool.and_true]
  by_cases hzero : r = 0
  · simp [hzero]
  · rw [if_pos hzero, BitVec.getLsbD_xor, BitVec.getLsbD_shiftLeft, BitVec.getLsbD_ushiftRight,
      BitVec.getLsbD_and, BitVec.getLsbD_and, getLsbD_mask, getLsbD_mask]
    by_cases hlt : p < r
    · have hsum : k.laneSize - r + p = p + k.laneSize - r := by omega
      have hin : p + k.laneSize - r < k.laneSize := by omega
      simp [hlt, hin, hsum]
    · have hout : ¬ k.laneSize - r + p < k.laneSize := by omega
      have hin : p - r < k.laneSize := by omega
      have h64 : p < 64 := by omega
      simp [hlt, hout, hin, h64]

theorem ofBool_getLsbD_rol (L : LaneValue) (offset : ℤ) (z : ZMod k.laneSize) :
    ofBool ((k.rol L offset).getLsbD z.val) = ofBool (L.getLsbD (z - offset).val) := by
  have hval : ((z - offset).val : ℤ) = ((z.val : ℤ) - offset) % k.laneSize := by
    rw [← ZMod.val_intCast]
    simp
  rw [getLsbD_rol _ L offset (ZMod.val_lt z), ← hval, Int.toNat_natCast]

end Rotation

end KeccakF

end PqPsi.Permutation.Keccak
