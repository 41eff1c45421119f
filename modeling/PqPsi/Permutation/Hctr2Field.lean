import PqPsi.Lib.BitPoly
import PqPsi.Permutation.Hctr2

/-!
# The field multiplication of HCTR2

A pair of words is a polynomial over the field of two elements, the low word
first. The first loop of `mul` builds the product in four words, and every turn
of the second loop subtracts a multiple of the modulus that clears the highest
coefficient left. The tables of `mulFixed` are right because `mul` is additive in its
first argument.
-/
namespace PqPsi.Permutation.Hctr2
open Lib.BitLinear Lib.BitPoly Lib.Buffers Polynomial

noncomputable section

/-- `x^128 + x^127 + x^126 + x^121 + 1`. -/
def modulus : Poly := X ^ 128 + X ^ 127 + X ^ 126 + X ^ 121 + 1

/-- Bit `i` of `lo` is the coefficient of `x^i`, bit `i` of `hi` that of `x^(64 + i)`. -/
def U128.toPoly (x : U128) : Poly := Lib.BitPoly.toPoly (x.hi ++ x.lo)

/-- The polynomial of the four words of a product. -/
def limbsPoly (p : Limbs) : Poly := ∑ i : Fin 4, X ^ (64 * i.val) * toPoly p[i]

section Words

theorem U128.getLsbD_eq_getBit (x : U128) (i : ℕ) : (x.hi ++ x.lo).getLsbD i = x.getBit i := by
  rw [BitVec.getLsbD_append, U128.getBit]
  split_ifs with h
  · exact (shiftRight_and_one x.lo i).symm
  · exact (shiftRight_and_one x.hi (i - 64)).symm

theorem U128.coeff_toPoly (x : U128) (i : ℕ) : x.toPoly.coeff i = ofBool (x.getBit i) := by
  rw [U128.toPoly, Lib.BitPoly.coeff_toPoly, x.getLsbD_eq_getBit]

theorem U128.toPoly_eq (x : U128) :
    x.toPoly = Lib.BitPoly.toPoly x.lo + X ^ 64 * Lib.BitPoly.toPoly x.hi :=
  toPoly_append x.hi x.lo

theorem U128.degree_toPoly_lt (x : U128) : x.toPoly.degree < (128 : ℕ) :=
  Lib.BitPoly.degree_toPoly_lt _

theorem U128.toPoly_injective : Function.Injective U128.toPoly := by
  intro x y h
  have hbits : x.hi ++ x.lo = y.hi ++ y.lo := Lib.BitPoly.toPoly_injective h
  have hlo := congrArg (BitVec.extractLsb' 0 64) hbits
  have hhi := congrArg (BitVec.extractLsb' 64 64) hbits
  rw [BitVec.extractLsb'_append_eq_right, BitVec.extractLsb'_append_eq_right] at hlo
  rw [BitVec.extractLsb'_append_eq_left, BitVec.extractLsb'_append_eq_left] at hhi
  exact U128.ext hlo hhi

theorem U128.toPoly_xor (x y : U128) : (x ^^^ y).toPoly = x.toPoly + y.toPoly := by
  have hlo : (x ^^^ y).lo = x.lo ^^^ y.lo := rfl
  have hhi : (x ^^^ y).hi = x.hi ^^^ y.hi := rfl
  rw [U128.toPoly_eq, U128.toPoly_eq, U128.toPoly_eq, hlo, hhi, Lib.BitPoly.toPoly_xor,
    Lib.BitPoly.toPoly_xor]
  ring

end Words

section Limbs

theorem limbsPoly_xorLimb (p : Limbs) {i : ℕ} (hi : i < 4) (x : U64) :
    limbsPoly (xorLimb p i x) = limbsPoly p + X ^ (64 * i) * toPoly x := by
  have hterm : ∀ k : Fin 4, X ^ (64 * k.val) * toPoly (xorLimb p i x)[k] =
      X ^ (64 * k.val) * toPoly p[k] + if k = ⟨i, hi⟩ then X ^ (64 * k.val) * toPoly x else 0 := by
    intro k
    simp only [xorLimb, dif_pos hi, Fin.getElem_fin, Vector.getElem_set]
    by_cases hk : k = ⟨i, hi⟩
    · subst hk
      rw [if_pos rfl, if_pos rfl, toPoly_xor, mul_add]
    · have hne : ¬ i = k.val := fun he => hk (Fin.ext he.symm)
      rw [if_neg hne, if_neg hk, add_zero]
  rw [limbsPoly, limbsPoly, Finset.sum_congr rfl fun k _ => hterm k, Finset.sum_add_distrib,
    Finset.sum_ite_eq', if_pos (Finset.mem_univ _)]

theorem coeff_limbsPoly (p : Limbs) {d : ℕ} (hd : d < 256) :
    (limbsPoly p).coeff d = ofBool (limbBit p d) := by
  have hk : d / 64 < 4 := by omega
  have hbit : limbBit p d = p[d / 64].getLsbD (d % 64) := by
    rw [limbBit, vector_getD p hk]
    exact shiftRight_and_one p[d / 64] (d % 64)
  -- only the limb that `d` falls into has a coefficient there
  have hother : ∀ k : Fin 4, k ≠ ⟨d / 64, hk⟩ → (X ^ (64 * k.val) * toPoly p[k]).coeff d = 0 := by
    intro k hne
    have hval : k.val ≠ d / 64 := fun he => hne (Fin.ext he)
    rw [coeff_X_pow_mul', coeff_toPoly]
    split_ifs with hle
    · rw [BitVec.getLsbD_of_ge _ _ (by omega)]
      rfl
    · rfl
  rw [limbsPoly, finsetSum_coeff, Finset.sum_eq_single ⟨d / 64, hk⟩ (fun k _ => hother k) (by simp),
    coeff_X_pow_mul', if_pos (by simp only; omega), coeff_toPoly, hbit]
  congr 2
  simp only
  omega

theorem coeff_limbsPoly_of_ge (p : Limbs) {d : ℕ} (hd : 256 ≤ d) : (limbsPoly p).coeff d = 0 := by
  rw [limbsPoly, finsetSum_coeff]
  apply Finset.sum_eq_zero
  intro k _
  have hk := k.isLt
  rw [coeff_X_pow_mul', if_pos (by omega), coeff_toPoly, BitVec.getLsbD_of_ge _ _ (by omega)]
  rfl

theorem limbsPoly_replicate : limbsPoly (Vector.replicate 4 0) = 0 := by
  rw [limbsPoly]
  apply Finset.sum_eq_zero
  intro k _
  simp

theorem limbsPoly_flipBit (p : Limbs) {bit : ℕ} (h : bit < 256) :
    limbsPoly (flipBit p bit) = limbsPoly p + X ^ bit := by
  have hunit : toPoly (1#64 <<< (bit % 64)) = X ^ (bit % 64) := toPoly_unit (by omega)
  rw [flipBit, limbsPoly_xorLimb p (by omega)]
  change limbsPoly p + X ^ (64 * (bit / 64)) * toPoly (1#64 <<< (bit % 64)) = _
  rw [hunit, ← pow_add, Nat.div_add_mod]

end Limbs

section Product

/-- A turn of the first loop adds `x^i * b` when `a` has bit `i`. -/
theorem limbsPoly_mulStep (a b : U128) (p : Limbs) {i : ℕ} (hi : i < 128) :
    limbsPoly (mulStep a b p i) = limbsPoly p + (if a.getBit i then X ^ i else 0) * b.toPoly := by
  cases ha : a.getBit i with
  | false => simp [mulStep, ha]
  | true =>
    have hword : i / 64 + 2 < 4 := by omega
    have hshift : i % 64 ≤ 64 := by omega
    have hpow : (X : Poly) ^ i = X ^ (64 * (i / 64)) * X ^ (i % 64) := by
      rw [← pow_add, Nat.div_add_mod]
    have hlo := X_pow_mul_toPoly b.lo hshift
    have hhi := X_pow_mul_toPoly b.hi hshift
    -- a shift by nothing leaves nothing over
    have hover : ∀ (p : Limbs) (j : ℕ) (x : U64), j < 4 →
        limbsPoly (if i % 64 ≠ 0 then xorLimb p j (x >>> (64 - i % 64)) else p) =
          limbsPoly p + X ^ (64 * j) * toPoly (x >>> (64 - i % 64)) := by
      intro p j x hj
      split_ifs with hs
      · exact limbsPoly_xorLimb p hj _
      · rw [not_not.mp hs, Nat.sub_zero, BitVec.ushiftRight_eq_zero le_rfl, toPoly_zero, mul_zero,
          add_zero]
    simp only [mulStep, ha, not_true_eq_false, if_false, hword, and_true, if_true]
    rw [hover _ _ _ hword, limbsPoly_xorLimb _ (by omega), hover _ _ _ (by omega),
      limbsPoly_xorLimb _ (by omega), hpow, U128.toPoly_eq]
    linear_combination -(X ^ (64 * (i / 64)) : Poly) * hlo - X ^ (64 * (i / 64)) * X ^ 64 * hhi

theorem U128.toPoly_eq_sum (x : U128) :
    x.toPoly = ∑ i ∈ Finset.range 128, if x.getBit i then X ^ i else 0 := by
  rw [U128.toPoly, Lib.BitPoly.toPoly]
  simp only [x.getLsbD_eq_getBit]

/-- The first loop computes the product. -/
theorem limbsPoly_product (a b : U128) :
    limbsPoly ((List.range 128).foldl (mulStep a b) (Vector.replicate 4 0)) =
      a.toPoly * b.toPoly := by
  have hloop : ∀ n ≤ 128, limbsPoly ((List.range n).foldl (mulStep a b) (Vector.replicate 4 0)) =
      (∑ i ∈ Finset.range n, if a.getBit i then X ^ i else 0) * b.toPoly := by
    intro n
    induction n with
    | zero =>
      intro _
      rw [List.range_zero, List.foldl_nil, limbsPoly_replicate, Finset.range_zero,
        Finset.sum_empty, zero_mul]
    | succ n ih =>
      intro hn
      rw [List.range_succ, List.foldl_append, List.foldl_cons, List.foldl_nil,
        limbsPoly_mulStep a b _ (by omega), ih (by omega), Finset.sum_range_succ, add_mul]
  rw [hloop 128 le_rfl, ← a.toPoly_eq_sum]

end Product

section Reduction

theorem modulus_eq : modulus = X ^ 128 + (X ^ 127 + X ^ 126 + X ^ 121 + 1) := by
  unfold modulus
  abel

theorem degree_low_lt : (X ^ 127 + X ^ 126 + X ^ 121 + 1 : Poly).degree < (128 : ℕ) := by
  rw [degree_lt_iff_coeff_zero]
  intro m hm
  have hne : m ≠ 127 ∧ m ≠ 126 ∧ m ≠ 121 ∧ m ≠ 0 := by omega
  simp [coeff_X_pow, coeff_one, hne]

theorem modulus_monic : modulus.Monic := by
  rw [modulus_eq]
  exact monic_X_pow_add degree_low_lt

theorem degree_modulus : modulus.degree = (128 : ℕ) := by
  rw [modulus_eq, degree_add_eq_left_of_degree_lt, degree_X_pow]
  rw [degree_X_pow]
  exact degree_low_lt

theorem X_pow_mul_modulus (e : ℕ) :
    X ^ e * modulus = X ^ (e + 128) + X ^ (e + 127) + X ^ (e + 126) + X ^ (e + 121) + X ^ e := by
  unfold modulus
  -- with variables as exponents no power is unfolded
  generalize 128 = k₁, 127 = k₂, 126 = k₃, 121 = k₄
  ring

/-- A turn of the second loop subtracts `x^(d - 128)` times the modulus when there is a
coefficient at `x^d`. -/
theorem limbsPoly_reduceStep (p : Limbs) {e : ℕ} (he : e < 128) :
    limbsPoly (reduceStep p (e + 128)) =
      limbsPoly p + (if limbBit p (e + 128) then X ^ e else 0) * modulus := by
  rw [reduceStep]
  cases limbBit p (e + 128) with
  | true =>
    have h1 : e + 128 - 1 = e + 127 := by omega
    have h2 : e + 128 - 2 = e + 126 := by omega
    have h7 : e + 128 - 7 = e + 121 := by omega
    rw [if_pos rfl, if_pos rfl, h1, h2, h7, Nat.add_sub_cancel, X_pow_mul_modulus,
      limbsPoly_flipBit _ (by omega), limbsPoly_flipBit _ (by omega), limbsPoly_flipBit _ (by omega),
      limbsPoly_flipBit _ (by omega), limbsPoly_flipBit _ (by omega)]
    abel
  | false => rw [if_neg Bool.false_ne_true, if_neg Bool.false_ne_true, zero_mul, add_zero]

theorem coeff_modulus_top : modulus.coeff 128 = 1 := by
  have h := modulus_monic.coeff_natDegree
  rwa [natDegree_eq_of_degree_eq_some degree_modulus] at h

theorem coeff_modulus_of_gt {d : ℕ} (hd : 128 < d) : modulus.coeff d = 0 := by
  apply coeff_eq_zero_of_degree_lt
  rw [degree_modulus]
  exact_mod_cast hd

/-- A turn clears the coefficient it looks at and brings none above it. -/
theorem coeff_reduceStep (p : Limbs) {e : ℕ} (he : e < 128)
    (hp : ∀ d, e + 129 ≤ d → (limbsPoly p).coeff d = 0) {d : ℕ} (hd : e + 128 ≤ d) :
    (limbsPoly (reduceStep p (e + 128))).coeff d = 0 := by
  have hsum : (limbsPoly (reduceStep p (e + 128))).coeff d =
      (limbsPoly p).coeff d + if limbBit p (e + 128) then modulus.coeff (d - e) else 0 := by
    rw [limbsPoly_reduceStep p he, coeff_add]
    cases limbBit p (e + 128) with
    | true => rw [if_pos rfl, if_pos rfl, coeff_X_pow_mul', if_pos (by omega)]
    | false => rw [if_neg Bool.false_ne_true, if_neg Bool.false_ne_true, zero_mul, coeff_zero]
  rw [hsum]
  by_cases htop : d = e + 128
  · subst htop
    rw [coeff_limbsPoly p (by omega), Nat.add_sub_cancel_left, coeff_modulus_top]
    cases limbBit p (e + 128) <;> decide
  · rw [hp d (by omega), coeff_modulus_of_gt (by omega), ite_self, add_zero]

/-- The second loop, counted down from `x^(n + 127)`: what is left has no coefficient from
`x^128` on, and it differs from the start by a multiple of the modulus. -/
theorem foldl_reduceStep {n : ℕ} (hn : n ≤ 128) (p : Limbs)
    (hp : ∀ d, n + 128 ≤ d → (limbsPoly p).coeff d = 0) :
    (∀ d, 128 ≤ d → (limbsPoly ((List.range n).reverse.foldl
        (fun p e => reduceStep p (e + 128)) p)).coeff d = 0) ∧
      ∃ q, limbsPoly p = limbsPoly ((List.range n).reverse.foldl
        (fun p e => reduceStep p (e + 128)) p) + modulus * q := by
  induction n generalizing p with
  | zero => exact ⟨fun d hd => hp d (by omega), 0, by rw [mul_zero, add_zero]; rfl⟩
  | succ n ih =>
    have hstep := limbsPoly_reduceStep p (e := n) (by omega)
    obtain ⟨hclear, q, hq⟩ := ih (by omega) (reduceStep p (n + 128))
      fun d hd => coeff_reduceStep p (by omega) (fun d hd => hp d (by omega)) hd
    rw [List.range_succ, List.reverse_append, List.reverse_singleton, List.singleton_append,
      List.foldl_cons]
    refine ⟨hclear, q + if limbBit p (n + 128) then X ^ n else 0, ?_⟩
    rw [mul_add, ← add_assoc, ← hq, hstep, mul_comm modulus, add_assoc, CharTwo.add_self_eq_zero,
      add_zero]

theorem toPoly_low (p : Limbs) (hp : ∀ d, 128 ≤ d → (limbsPoly p).coeff d = 0) :
    (⟨p.get 0, p.get 1⟩ : U128).toPoly = limbsPoly p := by
  ext d
  by_cases hd : d < 128
  · rw [U128.coeff_toPoly, coeff_limbsPoly p (by omega)]
    congr 1
    rw [U128.getBit, limbBit]
    split_ifs with h
    · have hdiv : d / 64 = 0 := by omega
      have hmod : d % 64 = d := by omega
      rw [hdiv, hmod, vector_getD p (by decide)]
      rfl
    · have hdiv : d / 64 = 1 := by omega
      have hmod : d % 64 = d - 64 := by omega
      rw [hdiv, hmod, vector_getD p (by decide)]
      rfl
  · have hdeg : ((128 : ℕ) : WithBot ℕ) ≤ d := by exact_mod_cast not_lt.mp hd
    rw [hp d (by omega), coeff_eq_zero_of_degree_lt ((U128.degree_toPoly_lt _).trans_le hdeg)]

/-- `mul` is the product of the polynomials modulo the modulus. -/
theorem toPoly_mul (a b : U128) : (mul a b).toPoly = a.toPoly * b.toPoly %ₘ modulus := by
  obtain ⟨p, hp⟩ : ∃ p, (List.range 128).foldl (mulStep a b) (Vector.replicate 4 0) = p := ⟨_, rfl⟩
  have hrange : (List.range' 128 128).reverse = (List.range 128).reverse.map (· + 128) := by
    rw [List.map_reverse]
    decide
  have hmul : mul a b =
      ⟨((List.range 128).reverse.foldl (fun p e => reduceStep p (e + 128)) p).get 0,
        ((List.range 128).reverse.foldl (fun p e => reduceStep p (e + 128)) p).get 1⟩ := by
    rw [mul, hp, hrange, List.foldl_map]
    rfl
  obtain ⟨hclear, q, hq⟩ := foldl_reduceStep le_rfl p fun d hd => coeff_limbsPoly_of_ge p hd
  have hlow := toPoly_low _ hclear
  have hprod := limbsPoly_product a b
  rw [hp] at hprod
  rw [hmul, hlow]
  refine (div_modByMonic_unique q _ modulus_monic ⟨?_, ?_⟩).2.symm
  · rw [← hq, hprod]
  · rw [← hlow, degree_modulus]
    exact U128.degree_toPoly_lt _

end Reduction

section Tables

/-- `mul` is additive in its first argument. -/
theorem mul_xor_left (x y h : U128) : mul (x ^^^ y) h = mul x h ^^^ mul y h := by
  apply U128.toPoly_injective
  rw [toPoly_mul, U128.toPoly_xor, U128.toPoly_xor, toPoly_mul, toPoly_mul, add_mul,
    add_modByMonic]

theorem mul_zero_left (h : U128) : mul ⟨0, 0⟩ h = ⟨0, 0⟩ := by
  apply U128.toPoly_injective
  have hzero : (⟨0, 0⟩ : U128).toPoly = 0 := toPoly_zero
  rw [toPoly_mul, hzero, zero_mul, zero_modByMonic]

/-- One byte of a word in its place. -/
def byteAt (x : U64) (pos : ℕ) : U64 := (x >>> (pos * 8) &&& 0xff) <<< (pos * 8)

theorem getLsbD_byteAt (x : U64) (pos : ℕ) {i : ℕ} (hi : i < 64) :
    (byteAt x pos).getLsbD i = (decide (pos * 8 ≤ i ∧ i < (pos + 1) * 8) && x.getLsbD i) := by
  have hmask : (0xff : U64).getLsbD (i - pos * 8) = decide (i - pos * 8 < 8) := by
    have hff : (0xff : U64) = BitVec.ofNat 64 (2 ^ 8 - 1) := rfl
    rw [hff, BitVec.getLsbD_ofNat, Nat.testBit_two_pow_sub_one]
    simp only [Bool.and_eq_right_iff_imp, decide_eq_true_eq]
    omega
  rw [byteAt, BitVec.getLsbD_shiftLeft, BitVec.getLsbD_and, BitVec.getLsbD_ushiftRight, hmask,
    decide_eq_true hi, Bool.true_and]
  by_cases hle : pos * 8 ≤ i
  · have hback : pos * 8 + (i - pos * 8) = i := by omega
    have hlt : i - pos * 8 < 8 ↔ i < (pos + 1) * 8 := by omega
    simp [hle, not_lt.mpr hle, hback, hlt, Bool.and_comm]
  · simp [hle, not_le.mp hle]

/-- The first `n` bytes of a word, added up. -/
def lowBytes (x : U64) (n : ℕ) : U64 := (List.range n).foldl (fun out pos => out ^^^ byteAt x pos) 0

theorem lowBytes_succ (x : U64) (n : ℕ) : lowBytes x (n + 1) = lowBytes x n ^^^ byteAt x n := by
  rw [lowBytes, lowBytes, List.range_succ, List.foldl_append, List.foldl_cons, List.foldl_nil]

theorem lowBytes_eight (x : U64) : lowBytes x 8 = x := by
  have hbit : ∀ n, ∀ i < 64, (lowBytes x n).getLsbD i = (decide (i < n * 8) && x.getLsbD i) := by
    intro n i hi
    induction n with
    | zero => simp [lowBytes]
    | succ n ih =>
      rw [lowBytes_succ, BitVec.getLsbD_xor, ih, getLsbD_byteAt x n hi]
      by_cases hlt : i < n * 8
      · have hlt' : i < (n + 1) * 8 := by omega
        simp [hlt, hlt', not_le.mpr hlt]
      · simp [hlt, not_lt.mp hlt]
  apply BitVec.eq_of_getLsbD_eq
  intro i hi
  rw [hbit 8 i hi, decide_eq_true (by omega), Bool.true_and]

theorem setWidth_byte (x : U64) : ((x &&& 0xff).setWidth 8).setWidth 64 = x &&& 0xff := by
  have hle : (x &&& 0xff).toNat ≤ 255 := by
    rw [BitVec.toNat_and]
    exact Nat.and_le_right
  apply BitVec.eq_of_toNat_eq
  rw [BitVec.toNat_setWidth, BitVec.toNat_setWidth]
  omega

theorem makeMulTable_low (h : U128) (x : U64) (pos : Fin 8) {row : Fin 16} (hrow : row.val = pos) :
    makeMulTable h row ((x >>> (pos.val * 8) &&& 0xff).setWidth 8) = mul ⟨byteAt x pos, 0⟩ h := by
  have hpos : pos.val * 8 < 64 := by omega
  simp only [makeMulTable, hrow, if_pos hpos, setWidth_byte]
  rfl

theorem makeMulTable_high (h : U128) (x : U64) (pos : Fin 8) {row : Fin 16}
    (hrow : row.val = pos + 8) :
    makeMulTable h row ((x >>> (pos.val * 8) &&& 0xff).setWidth 8) = mul ⟨0, byteAt x pos⟩ h := by
  have hpos : ¬ (pos.val + 8) * 8 < 64 := by omega
  have hback : (pos.val + 8) * 8 - 64 = pos.val * 8 := by omega
  simp only [makeMulTable, hrow, if_neg hpos, setWidth_byte, hback]
  rfl

theorem mulFixed_makeMulTable (x h : U128) : mulFixed x (makeMulTable h) = mul x h := by
  have hloop : ∀ n, (List.range n).foldl
      (fun out pos => out ^^^ mul ⟨byteAt x.lo pos, 0⟩ h ^^^ mul ⟨0, byteAt x.hi pos⟩ h) ⟨0, 0⟩ =
      mul ⟨lowBytes x.lo n, lowBytes x.hi n⟩ h := by
    intro n
    induction n with
    | zero => exact (mul_zero_left h).symm
    | succ n ih =>
      rw [List.range_succ, List.foldl_append, List.foldl_cons, List.foldl_nil, ih, ← mul_xor_left,
        ← mul_xor_left, lowBytes_succ, lowBytes_succ]
      congr 1
      apply U128.ext
      · exact BitVec.xor_zero
      · exact congrArg (· ^^^ byteAt x.hi n) (BitVec.xor_zero (x := lowBytes x.hi n))
  have hrange : List.range 8 = (List.finRange 8).map Fin.val := List.map_coe_finRange_eq_range.symm
  have hall := hloop 8
  rw [hrange, List.foldl_map, lowBytes_eight, lowBytes_eight] at hall
  rw [mulFixed]
  simp only [makeMulTable_low, makeMulTable_high]
  exact hall

end Tables

-- what follows uses the lemmas above; unfolding its powers of `X` helps nowhere
attribute [irreducible] modulus

/-- Field multiplication: `mul` is the product modulo the modulus, and a table replaces it. -/
theorem mul_correct :
    (∀ a b : U128, (mul a b).toPoly = a.toPoly * b.toPoly %ₘ modulus) ∧
      ∀ x h : U128, mulFixed x (makeMulTable h) = mul x h :=
  ⟨toPoly_mul, mulFixed_makeMulTable⟩

end

end PqPsi.Permutation.Hctr2
