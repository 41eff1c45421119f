import PqPsi.MlkemNative.Ntt

/-!
# Vectors of polynomials and their scalar product

The scalar product of two transformed vectors is accumulated in 32 bits and
reduced once. Between a forward and an inverse transform it is the scalar
product modulo `X ^ 256 + 1`.
-/
namespace PqPsi.MlkemNative
open Polynomial Lib Ntt Passes

/-- `mlk_polyvec`. -/
abbrev PolyVec (k : ℕ) := Fin k → Poly

/-- `mlk_polyvec_mulcache`. -/
abbrev PolyVecMulcache (k : ℕ) := Fin k → PolyMulcache

def polyvecNtt {k : ℕ} (r : PolyVec k) : PolyVec k := fun i => polyNtt (r i)

def polyvecInvnttTomont {k : ℕ} (r : PolyVec k) : PolyVec k := fun i => polyInvnttTomont (r i)

def polyvecReduce {k : ℕ} (r : PolyVec k) : PolyVec k := fun i => polyReduce (r i)

def polyvecAdd {k : ℕ} (r b : PolyVec k) : PolyVec k := fun i => polyAdd (r i) (b i)

def polyvecTomont {k : ℕ} (r : PolyVec k) : PolyVec k := fun i => polyTomont (r i)

def polyvecMulcacheCompute {k : ℕ} (a : PolyVec k) : PolyVecMulcache k :=
  fun i => polyMulcacheCompute (a i)

/-- The product of two coefficients in 32 bits. -/
def mul32 (a b : I16) : I32 := a.signExtend 32 * b.signExtend 32

/-- The inner loop for the pair `i`: the two accumulators `t`. -/
def basemulAcc {k : ℕ} (a b : PolyVec k) (bCache : PolyVecMulcache k) (i : ℕ) : I32 × I32 :=
  (List.finRange k).foldl (fun t l =>
    (t.1 + mul32 ((a l).coeff (2 * i + 1)) ((bCache l).coeff i) +
        mul32 ((a l).coeff (2 * i)) ((b l).coeff (2 * i)),
      t.2 + mul32 ((a l).coeff (2 * i)) ((b l).coeff (2 * i + 1)) +
        mul32 ((a l).coeff (2 * i + 1)) ((b l).coeff (2 * i)))) (0, 0)

def polyvecBasemulAccMontgomeryCached {k : ℕ} (a b : PolyVec k) (bCache : PolyVecMulcache k) :
    Poly :=
  (Coeffs.zero 256).fillPairs 128 (fun i => montgomeryReduce (basemulAcc a b bCache i).1)
    (fun i => montgomeryReduce (basemulAcc a b bCache i).2)

/-- `array_bound`. -/
def Coeffs.Bound {n : ℕ} (r : Coeffs n) (lo hi : ℤ) : Prop :=
  ∀ i < n, lo ≤ (r.coeff i).toInt ∧ (r.coeff i).toInt < hi

section Product

theorem toZq_neg_zetas {k : ℕ} (hk : k < 128) : I16.toZq (-zetas k) = -(zetas k).toZq := by
  have hbounds := zetas_bounds hk
  rw [I16.toZq, BitVec.toInt_neg, I16.toZq, ← Int.cast_neg]
  congr 1
  exact bmod16 (by omega) (by omega)

/-- The cache holds the odd coefficients times the roots of the leaves. -/
theorem zq_polyMulcacheCompute (a : Poly) {i : ℕ} (hi : i < 128) :
    (polyMulcacheCompute a).zq i = root zetaOf (128 + i) * a.zq (2 * i + 1) := by
  have hpairs := Coeffs.coeff_fillPairs (fun i => fqmul (a.coeff (4 * i + 1)) (zetas (64 + i)))
    (fun i => fqmul (a.coeff (4 * i + 3)) (-zetas (64 + i))) (Coeffs.zero 128)
    (show 2 * 64 ≤ 128 by decide) (show i / 2 < 64 by omega)
  rcases Nat.mod_two_eq_zero_or_one i with heven | hodd
  · obtain ⟨m, rfl⟩ : ∃ m, i = 2 * m := ⟨i / 2, by omega⟩
    rw [Nat.mul_div_cancel_left m two_pos] at hpairs
    rw [Coeffs.zq, polyMulcacheCompute, hpairs.1, toZq_fqmul_eq,
      show 128 + 2 * m = 2 * (64 + m) by ring, root_left, zetaOf, Coeffs.zq,
      show 2 * (2 * m) + 1 = 4 * m + 1 by ring]
    ring
  · obtain ⟨m, rfl⟩ : ∃ m, i = 2 * m + 1 := ⟨i / 2, by omega⟩
    rw [show (2 * m + 1) / 2 = m by omega] at hpairs
    rw [Coeffs.zq, polyMulcacheCompute, hpairs.2, toZq_fqmul_eq, toZq_neg_zetas (by omega),
      show 128 + (2 * m + 1) = 2 * (64 + m) + 1 by ring, root_right zetaOf (by omega), zetaOf,
      Coeffs.zq, show 2 * (2 * m + 1) + 1 = 4 * m + 3 by ring]
    ring

theorem toInt_mul32 (a b : I16) : (mul32 a b).toInt = a.toInt * b.toInt := toInt_mul_signExtend a b

/-- A product with an unsigned 12-bit factor. -/
theorem mul32_bounds {a : I16} (b : I16) (h : 0 ≤ a.toInt) (h' : a.toInt < 4096) :
    -134217728 ≤ (mul32 a b).toInt ∧ (mul32 a b).toInt ≤ 134217728 := by
  obtain ⟨hb, hb'⟩ := b.bounds
  rw [toInt_mul32]
  constructor <;> nlinarith

/-- Four turns that add two products each do not overflow an accumulator. -/
theorem toInt_accumulate {ι : Type*} {x y : ι → I32} (l : List ι)
    (hx : ∀ i ∈ l, -134217728 ≤ (x i).toInt ∧ (x i).toInt ≤ 134217728)
    (hy : ∀ i ∈ l, -134217728 ≤ (y i).toInt ∧ (y i).toInt ≤ 134217728) {t : I32} {m : ℕ}
    (hm : m + l.length ≤ 4)
    (ht : -(m * 268435456) ≤ t.toInt ∧ t.toInt ≤ m * 268435456) :
    let acc := l.foldl (fun t i => t + x i + y i) t
    acc.toInt = t.toInt + (l.map fun i => (x i).toInt + (y i).toInt).sum ∧
      -1073741824 ≤ acc.toInt ∧ acc.toInt ≤ 1073741824 := by
  induction l generalizing t m with
  | nil =>
    have hm' : m ≤ 4 := by simpa using hm
    refine ⟨by simp, ?_, ?_⟩ <;> simp only [List.foldl_nil] <;> omega
  | cons i l ih =>
    rw [List.length_cons] at hm
    have hxi := hx i List.mem_cons_self
    have hyi := hy i List.mem_cons_self
    have hfst : (t + x i).toInt = t.toInt + (x i).toInt := by
      rw [BitVec.toInt_add]
      exact bmod32 (by omega) (by omega)
    have hsnd : (t + x i + y i).toInt = t.toInt + (x i).toInt + (y i).toInt := by
      rw [BitVec.toInt_add, hfst]
      exact bmod32 (by omega) (by omega)
    have hstep := ih (fun j hj => hx j (List.mem_cons_of_mem _ hj))
      (fun j hj => hy j (List.mem_cons_of_mem _ hj)) (t := t + x i + y i) (m := m + 1) (by omega)
      (by push_cast; omega)
    refine ⟨?_, hstep.2⟩
    rw [List.foldl_cons, hstep.1, hsnd, List.map_cons, List.sum_cons]
    ring

theorem foldl_pair {ι α β : Type*} (f : α → ι → α) (g : β → ι → β) (l : List ι) (a : α) (b : β) :
    l.foldl (fun t i => (f t.1 i, g t.2 i)) (a, b) = (l.foldl f a, l.foldl g b) := by
  induction l generalizing a b with
  | nil => rfl
  | cons i l ih => exact ih (f a i) (g b i)

variable {k : ℕ} {a b : PolyVec k}

/-- One accumulator of the scalar product, reduced. -/
theorem toZq_accumulate (hk : k ≤ 4) {x x' y y' : Fin k → I16}
    (hx : ∀ l, 0 ≤ (x l).toInt ∧ (x l).toInt < 4096)
    (hy : ∀ l, 0 ≤ (y l).toInt ∧ (y l).toInt < 4096) :
    I16.toZq (montgomeryReduce ((List.finRange k).foldl
      (fun t l => t + mul32 (x l) (x' l) + mul32 (y l) (y' l)) 0)) =
      169 * ∑ l, (I16.toZq (x l) * I16.toZq (x' l) + I16.toZq (y l) * I16.toZq (y' l)) := by
  obtain ⟨hsum, hlow, hhigh⟩ := toInt_accumulate (List.finRange k)
    (fun l _ => mul32_bounds (x' l) (hx l).1 (hx l).2)
    (fun l _ => mul32_bounds (y' l) (hy l).1 (hy l).2) (t := 0) (m := 0)
    (by rw [List.length_finRange]; omega) (by decide)
  have hred := toZq_montgomeryReduce (le_trans (by decide) hlow) (hhigh.trans (by decide))
  rw [hsum, ← Fin.sum_univ_def] at hred
  have hcast : ((BitVec.toInt (0 : I32) + ∑ l, ((mul32 (x l) (x' l)).toInt +
      (mul32 (y l) (y' l)).toInt) : ℤ) : Zq) =
      ∑ l, (I16.toZq (x l) * I16.toZq (x' l) + I16.toZq (y l) * I16.toZq (y' l)) := by
    rw [show BitVec.toInt (0 : I32) = 0 from rfl, zero_add, Int.cast_sum]
    refine Finset.sum_congr rfl fun l _ => ?_
    rw [toInt_mul32, toInt_mul32, Int.cast_add, Int.cast_mul, Int.cast_mul]
    rfl
  rw [hcast] at hred
  rw [← hred, mul_comm, mul_assoc, mont_cancel, mul_one]

theorem basemulAcc_eq (a b : PolyVec k) (c : PolyVecMulcache k) (i : ℕ) : basemulAcc a b c i =
    ((List.finRange k).foldl (fun t l => t + mul32 ((a l).coeff (2 * i + 1)) ((c l).coeff i) +
        mul32 ((a l).coeff (2 * i)) ((b l).coeff (2 * i))) 0,
      (List.finRange k).foldl (fun t l => t + mul32 ((a l).coeff (2 * i)) ((b l).coeff (2 * i + 1)) +
        mul32 ((a l).coeff (2 * i + 1)) ((b l).coeff (2 * i))) 0) :=
  foldl_pair (fun t l => t + mul32 ((a l).coeff (2 * i + 1)) ((c l).coeff i) +
      mul32 ((a l).coeff (2 * i)) ((b l).coeff (2 * i)))
    (fun t l => t + mul32 ((a l).coeff (2 * i)) ((b l).coeff (2 * i + 1)) +
      mul32 ((a l).coeff (2 * i + 1)) ((b l).coeff (2 * i))) _ _ _

/-- The scalar product in the leaves. -/
theorem zq_basemul (hk : k ≤ 4) (ha : ∀ l, (a l).Bound 0 4096) {i : ℕ} (hi : i < 128 * 2) :
    (polyvecBasemulAccMontgomeryCached a b (polyvecMulcacheCompute b)).zq i =
      169 * ∑ l, leafMul zetaOf 128 (a l).zq (b l).zq i := by
  have hpairs := Coeffs.coeff_fillPairs
    (fun i => montgomeryReduce (basemulAcc a b (polyvecMulcacheCompute b) i).1)
    (fun i => montgomeryReduce (basemulAcc a b (polyvecMulcacheCompute b) i).2) (Coeffs.zero 256)
    (show 2 * 128 ≤ 256 by decide) (show i / 2 < 128 by omega)
  rcases Nat.mod_two_eq_zero_or_one i with heven | hodd
  · obtain ⟨m, rfl⟩ : ∃ m, i = 2 * m := ⟨i / 2, by omega⟩
    rw [Nat.mul_div_cancel_left m two_pos] at hpairs
    rw [Coeffs.zq, polyvecBasemulAccMontgomeryCached, hpairs.1, basemulAcc_eq,
      toZq_accumulate hk (fun l => ha l _ (by omega)) (fun l => ha l _ (by omega))]
    congr 1
    refine Finset.sum_congr rfl fun l _ => ?_
    have hcache := zq_polyMulcacheCompute (b l) (show m < 128 by omega)
    rw [leafMul, if_pos heven, Nat.mul_div_cancel_left m two_pos]
    simp only [Coeffs.zq, polyvecMulcacheCompute] at hcache ⊢
    rw [hcache]
    ring
  · obtain ⟨m, rfl⟩ : ∃ m, i = 2 * m + 1 := ⟨i / 2, by omega⟩
    rw [show (2 * m + 1) / 2 = m by omega] at hpairs
    rw [Coeffs.zq, polyvecBasemulAccMontgomeryCached, hpairs.2, basemulAcc_eq,
      toZq_accumulate hk (fun l => ha l _ (by omega)) (fun l => ha l _ (by omega))]
    congr 1
    refine Finset.sum_congr rfl fun l _ => ?_
    rw [leafMul, if_neg (by omega), Nat.add_sub_cancel]
    rfl

theorem basemul_residues (hk : k ≤ 4) (ha : ∀ l, (a l).Bound 0 4096) {F G : Fin k → Zq[X]}
    (hF : ∀ l, Residues zetaOf 128 2 (F l) (a l).zq)
    (hG : ∀ l, Residues zetaOf 128 2 (G l) (b l).zq) :
    Residues zetaOf 128 2 (C 169 * ∑ l, F l * G l)
      (polyvecBasemulAccMontgomeryCached a b (polyvecMulcacheCompute b)).zq :=
  ((Residues.sum fun l _ => (hF l).mul (hG l)).scale 169).congr fun _ hi => (zq_basemul hk ha hi).symm

theorem coeff_polyReduce (r : Poly) {i : ℕ} (hi : i < 256) :
    ((polyReduce r).coeff i).toInt = (r.coeff i).toInt % 3329 := by
  rw [polyReduce, Coeffs.coeff_each _ r hi, canonical_exact]

theorem polyReduce_bound (r : Poly) : (polyReduce r).Bound 0 3329 := by
  intro i hi
  rw [coeff_polyReduce r hi]
  constructor <;> omega

theorem zq_polyReduce (r : Poly) {i : ℕ} (hi : i < 256) : (polyReduce r).zq i = r.zq i := by
  have hexact : ((polyReduce r).coeff i).toInt =
      (r.coeff i).toInt - 3329 * ((r.coeff i).toInt / 3329) := by
    rw [coeff_polyReduce r hi]
    omega
  exact toZq_of_eq_sub hexact

/-- The scalar product of a decryption: transformed, reduced, multiplied in the leaves and
transformed back. -/
theorem scalarProduct_spec (hk : k ≤ 4) (ha : ∀ l, (a l).AbsBound 3329)
    (hb : ∀ l, (b l).AbsBound 3329) :
    let r := polyInvnttTomont (polyvecBasemulAccMontgomeryCached (polyvecReduce (polyvecNtt a))
      (polyvecNtt b) (polyvecMulcacheCompute (polyvecNtt b)))
    r.AbsBound 3329 ∧ X ^ 256 + 1 ∣ ∑ l, (a l).poly * (b l).poly - r.poly := by
  have hbound (l : Fin k) : (polyvecReduce (polyvecNtt a) l).Bound 0 4096 := by
    intro i hi
    have hred := polyReduce_bound (polyNtt (a l)) i hi
    exact ⟨hred.1, hred.2.trans (by decide)⟩
  have hF (l : Fin k) : Residues zetaOf 128 2 (a l).poly (polyvecReduce (polyvecNtt a) l).zq :=
    (polyNtt_spec (ha l)).2.congr fun i hi => (zq_polyReduce _ hi).symm
  obtain ⟨hout, hdvd⟩ := polyInvnttTomont_spec
    (basemul_residues (b := polyvecNtt b) hk hbound hF fun l => (polyNtt_spec (hb l)).2)
  have hunit (G : Zq[X]) : C 65536 * (C 169 * G) = G := by
    rw [← mul_assoc, ← C_mul, mont_cancel, C_1, one_mul]
  rw [hunit] at hdvd
  exact ⟨hout, hdvd⟩

/-- A canonical coefficient is the integer behind its residue, reduced. -/
theorem canonical_of_zq {r : Poly} {i : ℕ} (hi : i < 256) {v : ℤ} (h : r.zq i = (v : Zq)) :
    ((polyReduce r).coeff i).toInt = v % 3329 := by
  rw [coeff_polyReduce r hi]
  exact (ZMod.intCast_eq_intCast_iff' _ _ 3329).mp h

theorem cast_negacyclic (n : ℕ) (x y : ℕ → ℤ) (i : ℕ) :
    ((negacyclic n x y i : ℤ) : Zq) =
      negacyclic n (fun j => ((x j : ℤ) : Zq)) (fun j => ((y j : ℤ) : Zq)) i := by
  rw [negacyclic, negacyclic, Int.cast_sum]
  refine Finset.sum_congr rfl fun j _ => ?_
  rw [Int.cast_mul, rotate, rotate]
  split_ifs <;> simp

theorem zq_scalarProduct (hk : k ≤ 4) (ha : ∀ l, (a l).AbsBound 3329)
    (hb : ∀ l, (b l).AbsBound 3329) {i : ℕ} (hi : i < 256) :
    (polyInvnttTomont (polyvecBasemulAccMontgomeryCached (polyvecReduce (polyvecNtt a))
      (polyvecNtt b) (polyvecMulcacheCompute (polyvecNtt b)))).zq i =
      ∑ l, negacyclic 256 (a l).zq (b l).zq i := by
  obtain ⟨-, hdvd⟩ := scalarProduct_spec hk ha hb
  have hsum : X ^ 256 + 1 ∣ ∑ l, (a l).poly * (b l).poly -
      blockPoly (fun i => ∑ l, negacyclic 256 (a l).zq (b l).zq i) 0 256 := by
    rw [blockPoly_sum, ← Finset.sum_sub_distrib]
    exact Finset.dvd_sum fun l _ => dvd_negacyclic 256 (a l).zq (b l).zq
  have : Nontrivial Zq := ZMod.nontrivial_iff.mpr (by decide)
  exact eq_of_dvd_sub hdvd hsum hi

/-- Transforms, leaf products and Montgomery factors together compute the scalar product of two
integer vectors modulo `X ^ 256 + 1` and `q`. -/
theorem scalarProduct_coeff (hk : k ≤ 4) (ha : ∀ l, (a l).AbsBound 3329)
    (hb : ∀ l, (b l).AbsBound 3329) {i : ℕ} (hi : i < 256) :
    ((polyReduce (polyInvnttTomont (polyvecBasemulAccMontgomeryCached
      (polyvecReduce (polyvecNtt a)) (polyvecNtt b)
      (polyvecMulcacheCompute (polyvecNtt b))))).coeff i).toInt =
      (∑ l, negacyclic 256 (fun j => ((a l).coeff j).toInt) (fun j => ((b l).coeff j).toInt) i) %
        3329 := by
  refine canonical_of_zq hi ?_
  rw [zq_scalarProduct hk ha hb hi, Int.cast_sum]
  refine Finset.sum_congr rfl fun l _ => ?_
  rw [cast_negacyclic]
  rfl

theorem scalarProduct_coeff_counting :
    ((polyReduce (polyInvnttTomont (polyvecBasemulAccMontgomeryCached
      (polyvecReduce (polyvecNtt fun _ : Fin 2 => countingPoly)) (polyvecNtt fun _ => countingPoly)
      (polyvecMulcacheCompute (polyvecNtt fun _ => countingPoly))))).coeff 255).toInt =
      (∑ _l : Fin 2, negacyclic 256 (fun j => (countingPoly.coeff j).toInt)
        (fun j => (countingPoly.coeff j).toInt) 255) % 3329 :=
  scalarProduct_coeff (by decide) (fun _ => countingPoly_absBound) (fun _ => countingPoly_absBound)
    (by decide)

end Product

end PqPsi.MlkemNative
