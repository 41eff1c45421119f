import Mathlib.Algebra.CharP.Two
import Mathlib.Algebra.Polynomial.Div
import Mathlib.Data.ZMod.Basic
import Mathlib.Tactic
import PqPsi.Lib.BitLinear

/-!
# Bit strings as polynomials over the field of two elements

Bit `i` of a string is the coefficient of `X ^ i`. The sum of two polynomials
is the XOR of the strings, joining strings joins polynomials, and a product
with a power of `X` is a shift whose overflow goes to the next string.
-/
namespace PqPsi.Lib.BitPoly
open BitLinear Polynomial

variable {u v w : ℕ}

/-- Polynomials over the field of two elements. -/
abbrev Poly := Polynomial (ZMod 2)

/-- A bit as a field element. -/
def ofBool (b : Bool) : ZMod 2 := if b then 1 else 0

theorem ofBool_xor (a b : Bool) : ofBool (xor a b) = ofBool a + ofBool b := by
  cases a <;> cases b <;> decide

theorem ofBool_injective : Function.Injective ofBool := by
  intro a b h
  cases a <;> cases b <;> first | rfl | exact absurd h (by decide)

noncomputable section

/-- The polynomial of a string. -/
def toPoly (x : BitVec w) : Poly := ∑ i ∈ Finset.range w, if x.getLsbD i then X ^ i else 0

@[simp] theorem coeff_toPoly (x : BitVec w) (i : ℕ) : (toPoly x).coeff i = ofBool (x.getLsbD i) := by
  have hterm : ∀ k, (if x.getLsbD k then (X : Poly) ^ k else 0).coeff i =
      if i = k then ofBool (x.getLsbD k) else 0 := by
    intro k
    cases hx : x.getLsbD k with
    | true => simp [coeff_X_pow, ofBool]
    | false => simp [ofBool]
  rw [toPoly, finsetSum_coeff, Finset.sum_congr rfl fun k _ => hterm k, Finset.sum_ite_eq]
  by_cases hi : i < w
  · rw [if_pos (Finset.mem_range.mpr hi)]
  · rw [if_neg (fun h => hi (Finset.mem_range.mp h)), BitVec.getLsbD_of_ge x i (by omega)]
    rfl

theorem toPoly_injective : Function.Injective (toPoly : BitVec w → Poly) := by
  intro x y h
  apply BitVec.eq_of_getLsbD_eq
  intro i _
  have hi := congrArg (fun p : Poly => p.coeff i) h
  simp only [coeff_toPoly] at hi
  exact ofBool_injective hi

theorem toPoly_xor (x y : BitVec w) : toPoly (x ^^^ y) = toPoly x + toPoly y := by
  ext i
  rw [coeff_add, coeff_toPoly, coeff_toPoly, coeff_toPoly, BitVec.getLsbD_xor, ofBool_xor]

@[simp] theorem toPoly_zero : toPoly (0#w) = 0 := by
  ext i
  rw [coeff_toPoly, BitVec.getLsbD_zero, coeff_zero]
  rfl

theorem degree_toPoly_lt (x : BitVec w) : (toPoly x).degree < w := by
  rw [degree_lt_iff_coeff_zero]
  intro i hi
  rw [coeff_toPoly, BitVec.getLsbD_of_ge x i hi]
  rfl

theorem toPoly_append (x : BitVec v) (y : BitVec w) :
    toPoly (x ++ y) = toPoly y + X ^ w * toPoly x := by
  ext i
  rw [coeff_add, coeff_X_pow_mul', coeff_toPoly, coeff_toPoly, coeff_toPoly, BitVec.getLsbD_append]
  by_cases hi : i < w
  · rw [if_pos hi, if_neg (by omega), add_zero]
  · rw [if_neg hi, if_pos (by omega), BitVec.getLsbD_of_ge y i (by omega)]
    exact (zero_add _).symm

/-- A shift within the width, with what it drops as a polynomial of its own. -/
theorem X_pow_mul_toPoly (x : BitVec w) {s : ℕ} (hs : s ≤ w) :
    X ^ s * toPoly x = toPoly (x <<< s) + X ^ w * toPoly (x >>> (w - s)) := by
  ext i
  rw [coeff_add, coeff_X_pow_mul', coeff_X_pow_mul', coeff_toPoly, coeff_toPoly, coeff_toPoly,
    BitVec.getLsbD_shiftLeft, BitVec.getLsbD_ushiftRight]
  by_cases hw : w ≤ i
  · have hback : w - s + (i - w) = i - s := by omega
    rw [if_pos (by omega), if_pos hw, hback, decide_eq_false (by omega : ¬ i < w)]
    simp [ofBool]
  · rw [if_neg hw, decide_eq_true (by omega : i < w)]
    by_cases hi : s ≤ i
    · simp [hi, not_lt.mpr hi]
    · simp [hi, ofBool]

theorem toPoly_unit {i : ℕ} (hi : i < w) : toPoly (unit i : BitVec w) = X ^ i := by
  ext j
  rw [coeff_toPoly, coeff_X_pow, getLsbD_unit]
  by_cases hj : j = i
  · simp [hj, hi, ofBool]
  · simp [hj, ofBool]

end

end PqPsi.Lib.BitPoly
