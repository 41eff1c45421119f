import Mathlib.Algebra.Polynomial.Monic
import Mathlib.Algebra.Polynomial.RingDivision
import Mathlib.RingTheory.Coprime.Basic
import Mathlib.Tactic

/-!
# Number-theoretic transforms by residues

A layer of a transform halves the blocks of a table. A block of `2n` entries
is a residue modulo `X ^ 2n - z²`; below it stand the residues modulo
`X ^ n - z` and `X ^ n + z`. Layers that split keep these residues of one
polynomial, and layers that join lift them back to the root `X ^ N + 1`.
-/
namespace PqPsi.Lib.Ntt
open Polynomial

variable {R : Type*} [CommRing R]

/-- The `n` entries from `s` on, as a polynomial. -/
noncomputable def blockPoly (x : ℕ → R) (s n : ℕ) : R[X] :=
  ∑ j ∈ Finset.range n, C (x (s + j)) * X ^ j

noncomputable def modulus (n : ℕ) (a : R) : R[X] := X ^ n - C a

theorem blockPoly_add (x : ℕ → R) (s n m : ℕ) :
    blockPoly x s (n + m) = blockPoly x s n + X ^ n * blockPoly x (s + n) m := by
  rw [blockPoly, Finset.sum_range_add, blockPoly, blockPoly, Finset.mul_sum]
  congr 1
  refine Finset.sum_congr rfl fun j _ => ?_
  rw [pow_add, Nat.add_assoc]
  ring

theorem blockPoly_congr {x y : ℕ → R} {s t n : ℕ} (h : ∀ j < n, x (s + j) = y (t + j)) :
    blockPoly x s n = blockPoly y t n :=
  Finset.sum_congr rfl fun j hj => by rw [h j (Finset.mem_range.mp hj)]

/-- A block whose entries are combined from two others. -/
theorem blockPoly_combine {x y : ℕ → R} {s t u n : ℕ} {a b : R}
    (h : ∀ j < n, y (u + j) = a * x (s + j) + b * x (t + j)) :
    blockPoly y u n = C a * blockPoly x s n + C b * blockPoly x t n := by
  rw [blockPoly, blockPoly, blockPoly, Finset.mul_sum, Finset.mul_sum, ← Finset.sum_add_distrib]
  refine Finset.sum_congr rfl fun j hj => ?_
  rw [h j (Finset.mem_range.mp hj), C_add, C_mul, C_mul]
  ring

theorem blockPoly_mul (c : R) (x : ℕ → R) (s n : ℕ) :
    blockPoly (fun i => c * x i) s n = C c * blockPoly x s n := by
  rw [blockPoly, blockPoly, Finset.mul_sum]
  refine Finset.sum_congr rfl fun j _ => ?_
  rw [C_mul, mul_assoc]

theorem blockPoly_two (x : ℕ → R) (s : ℕ) :
    blockPoly x s 2 = C (x s) + C (x (s + 1)) * X := by
  simp [blockPoly, Finset.sum_range_succ]

theorem blockPoly_add_tables (x y : ℕ → R) (s n : ℕ) :
    blockPoly (fun i => x i + y i) s n = blockPoly x s n + blockPoly y s n := by
  simp only [blockPoly, C_add, add_mul, Finset.sum_add_distrib]

theorem blockPoly_sub_tables (x y : ℕ → R) (s n : ℕ) :
    blockPoly (fun i => x i - y i) s n = blockPoly x s n - blockPoly y s n := by
  simp only [blockPoly, C_sub, sub_mul, Finset.sum_sub_distrib]

theorem blockPoly_sum {ι : Type*} (t : Finset ι) (x : ι → ℕ → R) (s n : ℕ) :
    blockPoly (fun j => ∑ i ∈ t, x i j) s n = ∑ i ∈ t, blockPoly (x i) s n := by
  simp only [blockPoly, map_sum, Finset.sum_mul]
  exact Finset.sum_comm

theorem modulus_double (n : ℕ) (z : R) :
    modulus (n + n) (z * z) = modulus n z * modulus n (-z) := by
  rw [modulus, modulus, modulus, C_mul, C_neg, pow_add]
  ring

/-- The residue of a split block at one of its two roots. -/
theorem dvd_split {n s : ℕ} {x : ℕ → R} {F : R[X]} {a z : R} (hz : z * z = a)
    (h : modulus (n + n) a ∣ F - blockPoly x s (n + n)) :
    modulus n z ∣ F - (blockPoly x s n + C z * blockPoly x (s + n) n) := by
  have hsplit : F - (blockPoly x s n + C z * blockPoly x (s + n) n) =
      F - blockPoly x s (n + n) + modulus n z * blockPoly x (s + n) n := by
    rw [blockPoly_add, modulus]
    ring
  rw [hsplit]
  refine dvd_add ?_ (dvd_mul_right _ _)
  rw [← hz, modulus_double] at h
  exact dvd_of_mul_right_dvd h

theorem isCoprime_modulus (n : ℕ) {z w : R} (h2 : IsUnit (2 : R)) (hw : w * z = -1) :
    IsCoprime (modulus n z) (modulus n (-z)) := by
  obtain ⟨half, hhalf⟩ := h2.exists_left_inv
  refine ⟨C (half * w), -C (half * w), ?_⟩
  have hunit : half * w * z + half * w * z = -1 := by linear_combination 2 * half * hw - hhalf
  have hC : C (half * w) * C z + C (half * w) * C z = (-1 : R[X]) := by
    rw [← C_mul, ← C_add, hunit, C_neg, C_1]
  rw [modulus, modulus, C_neg]
  linear_combination -hC

/-- Two residues joined, with the factor `2` that a join leaves. -/
theorem dvd_join {n : ℕ} {F A B : R[X]} {a z w : R} (h2 : IsUnit (2 : R)) (hz : z * z = a)
    (hw : w * z = -1) (hA : modulus n z ∣ F - A) (hB : modulus n (-z) ∣ F - B) :
    modulus (n + n) a ∣ 2 * F - (A + B + X ^ n * (C w * (B - A))) := by
  have hCw : C w * C z = (-1 : R[X]) := by rw [← C_mul, hw, C_neg, C_1]
  rw [← hz, modulus_double]
  refine (isCoprime_modulus n h2 hw).mul_dvd ?_ ?_
  · have hsplit : 2 * F - (A + B + X ^ n * (C w * (B - A))) =
        2 * (F - A) - modulus n z * (C w * (B - A)) := by
      rw [modulus]
      linear_combination -(B - A) * hCw
    rw [hsplit]
    exact dvd_sub (hA.mul_left 2) (dvd_mul_right _ _)
  · have hsplit : 2 * F - (A + B + X ^ n * (C w * (B - A))) =
        2 * (F - B) - modulus n (-z) * (C w * (B - A)) := by
      rw [modulus, C_neg]
      linear_combination (B - A) * hCw
    rw [hsplit]
    exact dvd_sub (hB.mul_left 2) (dvd_mul_right _ _)

/-- The roots of a twiddle table: the node `1` stands at `-1`, and the children
`2k` and `2k + 1` of a node `k` at `z k` and `-z k`. -/
def root (z : ℕ → R) (k : ℕ) : R :=
  if k = 1 then -1 else if k % 2 = 0 then z (k / 2) else -z (k / 2)

theorem root_one (z : ℕ → R) : root z 1 = -1 := if_pos rfl

theorem root_left (z : ℕ → R) (k : ℕ) : root z (2 * k) = z k := by
  rw [root, if_neg (by omega), if_pos (by omega), Nat.mul_div_cancel_left k (by omega)]

theorem root_right (z : ℕ → R) {k : ℕ} (hk : 0 < k) : root z (2 * k + 1) = -z k := by
  rw [root, if_neg (by omega), if_neg (by omega)]
  congr 2
  omega

/-- The `k` blocks of `n` entries are the residues of `F` at the nodes `k`, …, `2k - 1`. -/
def Residues (z : ℕ → R) (k n : ℕ) (F : R[X]) (x : ℕ → R) : Prop :=
  ∀ b < k, modulus n (root z (k + b)) ∣ F - blockPoly x (b * n) n

/-- The butterflies of a layer that splits `k` blocks. -/
def Splits (k n : ℕ) (w x y : ℕ → R) : Prop :=
  ∀ b < k, ∀ j < n,
    y (2 * b * n + j) = x (2 * b * n + j) + w b * x (2 * b * n + n + j) ∧
    y (2 * b * n + n + j) = x (2 * b * n + j) - w b * x (2 * b * n + n + j)

/-- The butterflies of a layer that joins `2k` blocks. -/
def Joins (k n : ℕ) (w x y : ℕ → R) : Prop :=
  ∀ b < k, ∀ j < n,
    y (2 * b * n + j) = x (2 * b * n + j) + x (2 * b * n + n + j) ∧
    y (2 * b * n + n + j) = w b * (x (2 * b * n + n + j) - x (2 * b * n + j))

theorem residues_self (z x : ℕ → R) (n : ℕ) : Residues z 1 n (blockPoly x 0 n) x := by
  intro b hb
  obtain rfl : b = 0 := by omega
  rw [Nat.zero_mul, sub_self]
  exact dvd_zero _

theorem dvd_of_residues_one {z x : ℕ → R} {n : ℕ} {F : R[X]} (h : Residues z 1 n F x) :
    X ^ n + 1 ∣ F - blockPoly x 0 n := by
  have hroot := h 0 Nat.one_pos
  rwa [Nat.add_zero, root_one, Nat.zero_mul, modulus, C_neg, C_1, sub_neg_eq_add] at hroot

theorem Residues.congr {z x y : ℕ → R} {k n : ℕ} {F : R[X]} (hxy : ∀ i < k * n, x i = y i)
    (h : Residues z k n F x) : Residues z k n F y := by
  intro b hb
  have hle : (b + 1) * n ≤ k * n := Nat.mul_le_mul_right n hb
  rw [Nat.succ_mul] at hle
  rw [← blockPoly_congr fun j hj => hxy (b * n + j) (by omega)]
  exact h b hb

theorem Residues.scale {z x : ℕ → R} {k n : ℕ} {F : R[X]} (c : R) (h : Residues z k n F x) :
    Residues z k n (C c * F) fun i => c * x i := by
  intro b hb
  rw [blockPoly_mul, ← mul_sub]
  exact (h b hb).mul_left _

section Layer
variable {z x y : ℕ → R} {k n : ℕ} {F : R[X]}

/-- One layer that splits. -/
theorem Residues.split (hk : 0 < k) (hz : ∀ b < k, z (k + b) * z (k + b) = root z (k + b))
    (hxy : Splits k n (fun b => z (k + b)) x y) (h : Residues z k (2 * n) F x) :
    Residues z (2 * k) n F y := by
  intro c hc
  have hb : c / 2 < k := by omega
  have hblock := h (c / 2) hb
  rw [Nat.two_mul, show c / 2 * (n + n) = 2 * (c / 2) * n by ring] at hblock
  rcases Nat.mod_two_eq_zero_or_one c with heven | hodd
  · obtain ⟨b, rfl⟩ : ∃ b, c = 2 * b := ⟨c / 2, by omega⟩
    rw [Nat.mul_div_cancel_left b two_pos] at hb hblock
    have hlow : blockPoly y (2 * b * n) n = C 1 * blockPoly x (2 * b * n) n +
        C (z (k + b)) * blockPoly x (2 * b * n + n) n :=
      blockPoly_combine fun j hj => by rw [(hxy b hb j hj).1, one_mul]
    rw [← Nat.mul_add, root_left, hlow, C_1, one_mul]
    exact dvd_split (hz b hb) hblock
  · obtain ⟨b, rfl⟩ : ∃ b, c = 2 * b + 1 := ⟨c / 2, by omega⟩
    have hdiv : (2 * b + 1) / 2 = b := by omega
    rw [hdiv] at hb hblock
    have hhigh : blockPoly y ((2 * b + 1) * n) n = C 1 * blockPoly x (2 * b * n) n +
        C (-z (k + b)) * blockPoly x (2 * b * n + n) n := by
      refine blockPoly_combine fun j hj => ?_
      rw [Nat.succ_mul, (hxy b hb j hj).2]
      ring
    rw [← Nat.add_assoc, ← Nat.mul_add, root_right z (by omega), hhigh, C_1, one_mul]
    exact dvd_split (by rw [neg_mul_neg, hz b hb]) hblock

/-- One layer that joins. -/
theorem Residues.join {w : ℕ → R} (hk : 0 < k) (h2 : IsUnit (2 : R))
    (hz : ∀ b < k, z (k + b) * z (k + b) = root z (k + b))
    (hw : ∀ b < k, w b * z (k + b) = -1) (hxy : Joins k n w x y)
    (h : Residues z (2 * k) n F x) : Residues z k (2 * n) (2 * F) y := by
  intro b hb
  have hA := h (2 * b) (by omega)
  have hB := h (2 * b + 1) (by omega)
  rw [← Nat.mul_add, root_left] at hA
  rw [← Nat.add_assoc, ← Nat.mul_add, root_right z (by omega), Nat.succ_mul] at hB
  have hlow : blockPoly y (2 * b * n) n = C 1 * blockPoly x (2 * b * n) n +
      C 1 * blockPoly x (2 * b * n + n) n :=
    blockPoly_combine fun j hj => by rw [(hxy b hb j hj).1, one_mul, one_mul]
  have hhigh : blockPoly y (2 * b * n + n) n = C (-w b) * blockPoly x (2 * b * n) n +
      C (w b) * blockPoly x (2 * b * n + n) n := by
    refine blockPoly_combine fun j hj => ?_
    rw [(hxy b hb j hj).2]
    ring
  have hjoin := dvd_join h2 (hz b hb) (hw b hb) hA hB
  rw [Nat.two_mul, show b * (n + n) = 2 * b * n by ring, blockPoly_add, hlow, hhigh, C_1, one_mul,
    one_mul, C_neg]
  refine hjoin.trans (dvd_of_eq ?_)
  ring

/-- A layer that splits can be undone, so a table at its lower side stems from a polynomial when
every table at its upper side does. -/
theorem exists_residues_split {u : ℕ → R} {half : R} (hk : 0 < k) (hn : 0 < n)
    (hz : ∀ b < k, z (k + b) * z (k + b) = root z (k + b)) (hhalf : 2 * half = 1)
    (hu : ∀ b < k, z (k + b) * u b = 1) (h : ∀ x, ∃ F, Residues z k (2 * n) F x) :
    ∃ F, Residues z (2 * k) n F y := by
  obtain ⟨F, hF⟩ := h fun i => if i % (2 * n) < n then half * (y i + y (i + n))
    else half * u (i / (2 * n)) * (y (i - n) - y i)
  refine ⟨F, hF.split hk hz fun b hb j hj => ?_⟩
  have hlow : (2 * b * n + j) % (2 * n) = j := by
    rw [show 2 * b * n + j = j + 2 * n * b by ring, Nat.add_mul_mod_self_left,
      Nat.mod_eq_of_lt (by omega)]
  have hhigh : (2 * b * n + n + j) % (2 * n) = n + j := by
    rw [show 2 * b * n + n + j = n + j + 2 * n * b by ring, Nat.add_mul_mod_self_left,
      Nat.mod_eq_of_lt (by omega)]
  have hdiv : (2 * b * n + n + j) / (2 * n) = b := by
    rw [show 2 * b * n + n + j = n + j + 2 * n * b by ring,
      Nat.add_mul_div_left _ _ (by omega), Nat.div_eq_of_lt (by omega), Nat.zero_add]
  rw [hlow, hhigh, hdiv, if_pos hj, if_neg (by omega),
    show 2 * b * n + j + n = 2 * b * n + n + j by ring,
    show 2 * b * n + n + j - n = 2 * b * n + j by omega]
  constructor
  · linear_combination (-y (2 * b * n + j)) * hhalf -
      half * (y (2 * b * n + j) - y (2 * b * n + n + j)) * hu b hb
  · linear_combination (-y (2 * b * n + n + j)) * hhalf +
      half * (y (2 * b * n + j) - y (2 * b * n + n + j)) * hu b hb

end Layer

/-- Residues multiply at a leaf `X ^ 2 - g`. -/
theorem dvd_mul_leaf {g a₀ a₁ b₀ b₁ : R} {F G : R[X]} (hF : modulus 2 g ∣ F - (C a₀ + C a₁ * X))
    (hG : modulus 2 g ∣ G - (C b₀ + C b₁ * X)) :
    modulus 2 g ∣ F * G - (C (a₀ * b₀ + g * (a₁ * b₁)) + C (a₀ * b₁ + a₁ * b₀) * X) := by
  have hsplit : F * G - (C (a₀ * b₀ + g * (a₁ * b₁)) + C (a₀ * b₁ + a₁ * b₀) * X) =
      (F - (C a₀ + C a₁ * X)) * G + (C a₀ + C a₁ * X) * (G - (C b₀ + C b₁ * X)) +
        modulus 2 g * (C a₁ * C b₁) := by
    rw [modulus]
    simp only [C_add, C_mul]
    ring
  rw [hsplit]
  exact dvd_add (dvd_add (hF.mul_right _) (hG.mul_left _)) (dvd_mul_right _ _)

theorem Residues.sum {ι : Type*} {z : ℕ → R} {k n : ℕ} {F : ι → R[X]} {x : ι → ℕ → R}
    {s : Finset ι} (h : ∀ i ∈ s, Residues z k n (F i) (x i)) :
    Residues z k n (∑ i ∈ s, F i) fun j => ∑ i ∈ s, x i j := by
  intro b hb
  rw [blockPoly_sum, ← Finset.sum_sub_distrib]
  exact Finset.dvd_sum fun i hi => h i hi b hb

theorem Residues.add {z x y : ℕ → R} {k n : ℕ} {F G : R[X]} (hF : Residues z k n F x)
    (hG : Residues z k n G y) : Residues z k n (F + G) fun j => x j + y j := by
  intro b hb
  rw [blockPoly_add_tables, add_sub_add_comm]
  exact dvd_add (hF b hb) (hG b hb)

/-- The product of two tables of leaf residues. -/
def leafMul (z : ℕ → R) (k : ℕ) (x y : ℕ → R) (i : ℕ) : R :=
  if i % 2 = 0 then x i * y i + root z (k + i / 2) * (x (i + 1) * y (i + 1))
  else x (i - 1) * y i + x i * y (i - 1)

theorem Residues.mul {z x y : ℕ → R} {k : ℕ} {F G : R[X]} (hF : Residues z k 2 F x)
    (hG : Residues z k 2 G y) : Residues z k 2 (F * G) (leafMul z k x y) := by
  intro b hb
  have hFb := hF b hb
  have hGb := hG b hb
  rw [blockPoly_two] at hFb hGb
  have heven : b * 2 % 2 = 0 := Nat.mul_mod_left b 2
  have hodd : ¬ (b * 2 + 1) % 2 = 0 := by omega
  rw [blockPoly_two, leafMul, leafMul, if_pos heven, if_neg hodd, Nat.mul_div_cancel b two_pos,
    Nat.add_sub_cancel]
  exact dvd_mul_leaf hFb hGb

section Negacyclic

/-- Multiplication of a table by `X ^ j` modulo `X ^ n + 1`. -/
def rotate (n j : ℕ) (y : ℕ → R) (i : ℕ) : R := if j ≤ i then y (i - j) else -y (n + i - j)

/-- The product of two tables modulo `X ^ n + 1`. -/
def negacyclic (n : ℕ) (x y : ℕ → R) (i : ℕ) : R :=
  ∑ j ∈ Finset.range n, x j * rotate n j y i

theorem dvd_rotate {n j : ℕ} (hj : j < n) (y : ℕ → R) :
    X ^ n + 1 ∣ X ^ j * blockPoly y 0 n - blockPoly (rotate n j y) 0 n := by
  have hlow : blockPoly (rotate n j y) 0 j = -blockPoly y (n - j) j := by
    rw [blockPoly, blockPoly, ← Finset.sum_neg_distrib]
    refine Finset.sum_congr rfl fun i hi => ?_
    have hlt := Finset.mem_range.mp hi
    rw [rotate, Nat.zero_add, if_neg (by omega), C_neg, neg_mul,
      show n + i - j = n - j + i by omega]
  have hhigh : blockPoly (rotate n j y) j (n - j) = blockPoly y 0 (n - j) := by
    refine blockPoly_congr fun i _ => ?_
    rw [rotate, if_pos (by omega), Nat.add_sub_cancel_left, Nat.zero_add]
  have hy := blockPoly_add y 0 (n - j) j
  have hrot := blockPoly_add (rotate n j y) 0 j (n - j)
  rw [Nat.sub_add_cancel hj.le, Nat.zero_add] at hy
  rw [Nat.add_sub_cancel' hj.le, Nat.zero_add, hlow, hhigh] at hrot
  have hpow : (X : R[X]) ^ n = X ^ j * X ^ (n - j) := by
    rw [← pow_add, Nat.add_sub_cancel' hj.le]
  refine ⟨blockPoly y (n - j) j, ?_⟩
  rw [hy, hrot, hpow]
  ring

theorem dvd_negacyclic (n : ℕ) (x y : ℕ → R) :
    X ^ n + 1 ∣ blockPoly x 0 n * blockPoly y 0 n - blockPoly (negacyclic n x y) 0 n := by
  have hsum : blockPoly (negacyclic n x y) 0 n =
      ∑ j ∈ Finset.range n, C (x j) * blockPoly (rotate n j y) 0 n := by
    simp only [blockPoly, negacyclic, map_sum, Finset.sum_mul, Finset.mul_sum]
    rw [Finset.sum_comm]
    refine Finset.sum_congr rfl fun j _ => Finset.sum_congr rfl fun i _ => ?_
    rw [C_mul, mul_assoc]
  have hx : blockPoly x 0 n = ∑ j ∈ Finset.range n, C (x j) * X ^ j :=
    Finset.sum_congr rfl fun j _ => by rw [Nat.zero_add]
  rw [hsum, hx, Finset.sum_mul, ← Finset.sum_sub_distrib]
  refine Finset.dvd_sum fun j hj => ?_
  rw [mul_assoc, ← mul_sub]
  exact (dvd_rotate (Finset.mem_range.mp hj) y).mul_left _

theorem coeff_blockPoly (x : ℕ → R) {n i : ℕ} (hi : i < n) : (blockPoly x 0 n).coeff i = x i := by
  rw [blockPoly, finsetSum_coeff, Finset.sum_eq_single i]
  · rw [coeff_C_mul_X_pow, if_pos rfl, Nat.zero_add]
  · intro j _ hne
    rw [coeff_C_mul_X_pow, if_neg hne.symm]
  · exact fun hmem => absurd (Finset.mem_range.mpr hi) hmem

theorem degree_blockPoly_lt (x : ℕ → R) (s n : ℕ) : (blockPoly x s n).degree < n := by
  refine (degree_sum_le _ _).trans_lt ((Finset.sup_lt_iff (WithBot.bot_lt_coe n)).mpr ?_)
  intro j hj
  exact (degree_C_mul_X_pow_le j _).trans_lt (WithBot.coe_lt_coe.mpr (Finset.mem_range.mp hj))

/-- A residue modulo `X ^ n + 1` has one table. -/
theorem eq_of_dvd_sub [Nontrivial R] {n : ℕ} {x y : ℕ → R} {F : R[X]}
    (hx : X ^ n + 1 ∣ F - blockPoly x 0 n) (hy : X ^ n + 1 ∣ F - blockPoly y 0 n) {i : ℕ}
    (hi : i < n) : x i = y i := by
  have hdvd : X ^ n + 1 ∣ blockPoly x 0 n - blockPoly y 0 n := by
    have hsub := dvd_sub hy hx
    rwa [sub_sub_sub_cancel_left] at hsub
  have hpos : 0 < n := Nat.zero_lt_of_lt hi
  have hdegree : (X ^ n + C (1 : R)).degree = (n : WithBot ℕ) := degree_X_pow_add_C hpos 1
  have hlt : (blockPoly x 0 n - blockPoly y 0 n).degree < (X ^ n + C (1 : R)).degree := by
    rw [hdegree]
    exact (degree_sub_le _ _).trans_lt
      (max_lt (degree_blockPoly_lt x 0 n) (degree_blockPoly_lt y 0 n))
  have hmonic : (X ^ n + C (1 : R)).Monic := monic_X_pow_add_C 1 hpos.ne'
  have hzero : blockPoly x 0 n - blockPoly y 0 n = 0 := by
    by_contra hne
    exact hmonic.not_dvd_of_degree_lt hne hlt (by rwa [C_1])
  rw [← coeff_blockPoly x hi, ← coeff_blockPoly y hi, sub_eq_zero.mp hzero]

/-- The class of a table of `n` coefficients modulo `X ^ n + 1`. -/
noncomputable def tableMod (n : ℕ) (x : ℕ → R) : R[X] ⧸ Ideal.span {(X ^ n + 1 : R[X])} :=
  Ideal.Quotient.mk _ (blockPoly x 0 n)

theorem mk_eq_iff_dvd {n : ℕ} {F G : R[X]} :
    Ideal.Quotient.mk (Ideal.span {(X ^ n + 1 : R[X])}) F = Ideal.Quotient.mk _ G ↔
      X ^ n + 1 ∣ F - G := by
  rw [Ideal.Quotient.eq, Ideal.mem_span_singleton]

variable {n : ℕ}

theorem tableMod_congr {x y : ℕ → R} (h : ∀ i < n, x i = y i) : tableMod n x = tableMod n y := by
  rw [tableMod, tableMod, blockPoly_congr fun j hj => by rw [Nat.zero_add, h j hj]]

theorem tableMod_add (x y : ℕ → R) :
    tableMod n (fun i => x i + y i) = tableMod n x + tableMod n y := by
  rw [tableMod, blockPoly_add_tables, map_add]
  rfl

theorem tableMod_sub (x y : ℕ → R) :
    tableMod n (fun i => x i - y i) = tableMod n x - tableMod n y := by
  rw [tableMod, blockPoly_sub_tables, map_sub]
  rfl

theorem tableMod_sum {ι : Type*} (t : Finset ι) (x : ι → ℕ → R) :
    tableMod n (fun j => ∑ i ∈ t, x i j) = ∑ i ∈ t, tableMod n (x i) := by
  rw [tableMod, blockPoly_sum, map_sum]
  rfl

theorem tableMod_negacyclic (x y : ℕ → R) :
    tableMod n (negacyclic n x y) = tableMod n x * tableMod n y := by
  rw [tableMod, tableMod, tableMod, ← map_mul]
  exact (mk_eq_iff_dvd.mpr (dvd_negacyclic n x y)).symm

/-- A class has one table. -/
theorem eq_of_tableMod_eq [Nontrivial R] {x y : ℕ → R} (h : tableMod n x = tableMod n y) {i : ℕ}
    (hi : i < n) : x i = y i := by
  refine eq_of_dvd_sub (F := blockPoly x 0 n) ?_ (mk_eq_iff_dvd.mp h) hi
  rw [sub_self]
  exact dvd_zero _

end Negacyclic

end PqPsi.Lib.Ntt
