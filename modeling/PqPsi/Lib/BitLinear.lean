import Mathlib.Tactic

/-!
# Linear functions of bit strings

A string of bits is a vector over the field of two elements, with `^^^` as its
addition. A linear function is determined by its values on the unit strings,
and every bit of its result is a parity of bits of its argument.
-/
namespace PqPsi.Lib.BitLinear

variable {u v w : ℕ}

section Parity

/-- The sum of the first `n` bits. -/
def parity (p : ℕ → Bool) : ℕ → Bool
  | 0 => false
  | n + 1 => xor (parity p n) (p n)

theorem parity_congr {p q : ℕ → Bool} {n : ℕ} (h : ∀ i < n, p i = q i) :
    parity p n = parity q n := by
  induction n with
  | zero => rfl
  | succ n ih => rw [parity, parity, h n (by omega), ih fun i hi => h i (by omega)]

theorem parity_xor (p q : ℕ → Bool) (n : ℕ) :
    parity (fun i => xor (p i) (q i)) n = xor (parity p n) (parity q n) := by
  induction n with
  | zero => rfl
  | succ n ih =>
    simp only [parity, ih]
    rw [Bool.xor_assoc, Bool.xor_assoc, Bool.xor_left_comm (parity q n)]

/-- A sum with one term. -/
theorem parity_single (p : ℕ → Bool) (k n : ℕ) :
    parity (fun i => decide (i = k) && p i) n = (decide (k < n) && p k) := by
  induction n with
  | zero => simp [parity]
  | succ n ih =>
    rw [parity, ih]
    by_cases hk : n = k
    · simp [hk]
    · have hlt : k < n + 1 ↔ k < n := by omega
      simp [hk, hlt]

end Parity

section Units

/-- A shift and a mask read one bit. -/
theorem shiftRight_and_one (x : BitVec w) (i : ℕ) :
    ((x >>> i &&& 1#w) != 0#w) = x.getLsbD i := by
  rw [Bool.eq_iff_iff, bne_iff_ne, ne_eq, ← BitVec.toNat_inj]
  cases w with
  | zero => simp [BitVec.eq_nil x]
  | succ w =>
    have ht : (x >>> i &&& 1#(w + 1)).toNat = x.toNat / 2 ^ i % 2 := by
      simp [Nat.shiftRight_eq_div_pow, Nat.and_one_is_mod]
    rw [ht, BitVec.getLsbD, Nat.testBit_eq_decide_div_mod_eq]
    simp

/-- The string with one set bit. -/
def unit (i : ℕ) : BitVec w := 1#w <<< i

@[simp] theorem getLsbD_unit (i j : ℕ) : (unit i : BitVec w).getLsbD j = decide (j < w ∧ j = i) := by
  rw [unit, BitVec.getLsbD_shiftLeft, BitVec.getLsbD_one]
  by_cases hj : j < w
  · by_cases hi : j = i
    · have hw : 0 < w := by omega
      simp [hi, hw, hi ▸ hj]
    · simp only [hj, hi, decide_true, Bool.true_and, and_false, decide_false]
      by_cases hlt : j < i
      · simp [hlt]
      · have hne : ¬ j - i = 0 := by omega
        simp [hlt, hne]
  · simp [hj]

/-- The sum of the values at the set bits, as a loop over the bits computes it. -/
def combine (val : ℕ → BitVec v) (x : BitVec w) : BitVec v :=
  (List.range w).foldl (fun acc i => if x.getLsbD i then acc ^^^ val i else acc) 0

theorem getLsbD_combine (val : ℕ → BitVec v) (x : BitVec w) (j : ℕ) :
    (combine val x).getLsbD j = parity (fun i => x.getLsbD i && (val i).getLsbD j) w := by
  have hloop : ∀ n, ((List.range n).foldl
      (fun acc i => if x.getLsbD i then acc ^^^ val i else acc) (0 : BitVec v)).getLsbD j =
      parity (fun i => x.getLsbD i && (val i).getLsbD j) n := by
    intro n
    induction n with
    | zero => simp [parity]
    | succ n ih =>
      rw [List.range_succ, List.foldl_append, List.foldl_cons, List.foldl_nil, parity]
      cases hx : x.getLsbD n with
      | true => rw [if_pos rfl, BitVec.getLsbD_xor, ih, Bool.true_and]
      | false => rw [if_neg Bool.false_ne_true, ih, Bool.false_and, Bool.xor_false]
  exact hloop w

theorem combine_congr {val val' : ℕ → BitVec v} (h : ∀ i < w, val i = val' i) (x : BitVec w) :
    combine val x = combine val' x := by
  apply BitVec.eq_of_getLsbD_eq
  intro j _
  rw [getLsbD_combine, getLsbD_combine]
  exact parity_congr fun i hi => by rw [h i hi]

/-- Every string is the sum of its unit strings. -/
theorem combine_units (x : BitVec w) : combine unit x = x := by
  apply BitVec.eq_of_getLsbD_eq
  intro j hj
  have hterm : ∀ i < w, (x.getLsbD i && (unit i : BitVec w).getLsbD j) =
      (decide (i = j) && x.getLsbD i) := by
    intro i _
    rw [getLsbD_unit, Bool.and_comm]
    simp [hj, eq_comm]
  rw [getLsbD_combine, parity_congr hterm, parity_single, decide_eq_true hj, Bool.true_and]

end Units

section Linear

def Linear (f : BitVec w → BitVec v) : Prop := ∀ x y, f (x ^^^ y) = f x ^^^ f y

theorem combine_linear (val : ℕ → BitVec v) : Linear (combine val : BitVec w → BitVec v) := by
  intro x y
  apply BitVec.eq_of_getLsbD_eq
  intro j _
  rw [BitVec.getLsbD_xor, getLsbD_combine, getLsbD_combine, getLsbD_combine, ← parity_xor]
  exact parity_congr fun i _ => by rw [BitVec.getLsbD_xor, Bool.and_xor_distrib_right]

namespace Linear
variable {f : BitVec w → BitVec v}

theorem map_zero (hf : Linear f) : f 0#w = 0#v := by
  have h := hf 0#w 0#w
  rwa [BitVec.xor_self, BitVec.xor_self] at h

theorem map_combine (hf : Linear f) (val : ℕ → BitVec w) (x : BitVec u) :
    f (combine val x) = combine (fun i => f (val i)) x := by
  have hloop : ∀ (l : List ℕ) (acc : BitVec w),
      f (l.foldl (fun acc i => if x.getLsbD i then acc ^^^ val i else acc) acc) =
        l.foldl (fun acc i => if x.getLsbD i then acc ^^^ f (val i) else acc) (f acc) := by
    intro l
    induction l with
    | nil => intro acc; rfl
    | cons i l ih =>
      intro acc
      rw [List.foldl_cons, List.foldl_cons, ih]
      cases x.getLsbD i with
      | true => rw [if_pos rfl, if_pos rfl, hf]
      | false => rw [if_neg Bool.false_ne_true, if_neg Bool.false_ne_true]
  have hall := hloop (List.range u) 0#w
  rw [hf.map_zero] at hall
  exact hall

/-- A linear function is the sum of its values on the unit strings. -/
theorem eq_combine (hf : Linear f) (x : BitVec w) : f x = combine (fun i => f (unit i)) x := by
  rw [← hf.map_combine, combine_units]

theorem ext_units {g : BitVec w → BitVec v} (hf : Linear f) (hg : Linear g)
    (h : ∀ i < w, f (unit i) = g (unit i)) (x : BitVec w) : f x = g x := by
  rw [hf.eq_combine, hg.eq_combine, combine_congr h]

end Linear

end Linear

section Dot

/-- The scalar product. -/
def dot (a x : BitVec w) : Bool := parity (fun i => a.getLsbD i && x.getLsbD i) w

theorem dot_congr {a x b y : BitVec w}
    (h : ∀ i < w, (a.getLsbD i && x.getLsbD i) = (b.getLsbD i && y.getLsbD i)) :
    dot a x = dot b y := parity_congr h

theorem dot_xor_left (a b x : BitVec w) : dot (a ^^^ b) x = xor (dot a x) (dot b x) := by
  rw [dot, dot, dot, ← parity_xor]
  exact parity_congr fun i _ => by rw [BitVec.getLsbD_xor, Bool.and_xor_distrib_right]

theorem dot_xor_right (a x y : BitVec w) : dot a (x ^^^ y) = xor (dot a x) (dot a y) := by
  rw [dot, dot, dot, ← parity_xor]
  exact parity_congr fun i _ => by rw [BitVec.getLsbD_xor, Bool.and_xor_distrib_left]

theorem dot_unit_left {i : ℕ} (hi : i < w) (x : BitVec w) : dot (unit i) x = x.getLsbD i := by
  have hterm : ∀ k < w, ((unit i : BitVec w).getLsbD k && x.getLsbD k) =
      (decide (k = i) && x.getLsbD k) := by
    intro k hk
    rw [getLsbD_unit]
    simp [hk]
  rw [dot, parity_congr hterm, parity_single, decide_eq_true hi, Bool.true_and]

theorem dot_unit_right {i : ℕ} (hi : i < w) (a : BitVec w) : dot a (unit i) = a.getLsbD i := by
  rw [← dot_unit_left hi a]
  exact dot_congr fun k _ => Bool.and_comm _ _

/-- The rows of the matrix of a linear function read off the bits of its values. -/
theorem Linear.getLsbD_eq_dot {f : BitVec w → BitVec v} (hf : Linear f) {row : BitVec w} {j : ℕ}
    (hrow : ∀ i < w, row.getLsbD i = (f (unit i)).getLsbD j) (x : BitVec w) :
    (f x).getLsbD j = dot row x := by
  rw [hf.eq_combine x, getLsbD_combine]
  exact parity_congr fun i hi => by rw [hrow i hi, Bool.and_comm]

end Dot

end PqPsi.Lib.BitLinear
