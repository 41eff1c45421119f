import PqPsi.Lib.Ntt
import PqPsi.Lib.Passes
import PqPsi.MlkemNative.Poly

/-!
# The transforms compute residues

Each layer is a pass of butterflies over disjoint pairs. While the coefficients
stay within the bounds of the source no word overflows, so the forward
transform leaves the residues of its input modulo the 128 factors of
`X ^ 256 + 1`, and the inverse transform joins such residues again.
-/
namespace PqPsi.MlkemNative
open Polynomial Lib Ntt Passes

/-- `array_abs_bound`. -/
def Coeffs.AbsBound {n : ℕ} (r : Coeffs n) (bound : ℤ) : Prop :=
  ∀ i < n, -bound < (r.coeff i).toInt ∧ (r.coeff i).toInt < bound

/-- The residues that the coefficients stand for. -/
def Coeffs.zq {n : ℕ} (r : Coeffs n) (i : ℕ) : Zq := (r.coeff i).toZq

/-- The polynomial that an array stands for. -/
noncomputable def Poly.poly (r : Poly) : Zq[X] := blockPoly r.zq 0 256

/-- The twiddle factors out of Montgomery form. -/
def zetaOf (k : ℕ) : Zq := (zetas k).toZq * 169

section Words

theorem mont_cancel : (65536 : Zq) * 169 = 1 := rfl

theorem toZq_fqmul_eq (a b : I16) : (fqmul a b).toZq = a.toZq * b.toZq * 169 := by
  rw [← toZq_fqmul, mul_assoc, mont_cancel, mul_one]

theorem toInt_add_of_bounds {x y : I16} (h : -32768 ≤ x.toInt + y.toInt)
    (h' : x.toInt + y.toInt < 32768) : (x + y).toInt = x.toInt + y.toInt := by
  rw [BitVec.toInt_add]
  exact bmod16 h h'

theorem toInt_sub_of_bounds {x y : I16} (h : -32768 ≤ x.toInt - y.toInt)
    (h' : x.toInt - y.toInt < 32768) : (x - y).toInt = x.toInt - y.toInt := by
  rw [BitVec.toInt_sub]
  exact bmod16 h h'

theorem toZq_add {x y : I16} (h : -32768 ≤ x.toInt + y.toInt) (h' : x.toInt + y.toInt < 32768) :
    (x + y).toZq = x.toZq + y.toZq := by
  rw [I16.toZq, toInt_add_of_bounds h h', Int.cast_add]
  rfl

theorem toZq_sub {x y : I16} (h : -32768 ≤ x.toInt - y.toInt) (h' : x.toInt - y.toInt < 32768) :
    (x - y).toZq = x.toZq - y.toZq := by
  rw [I16.toZq, toInt_sub_of_bounds h h', Int.cast_sub]
  rfl

end Words

section Zetas

theorem zetas_bounds {k : ℕ} (hk : k < 128) : -1665 < (zetas k).toInt ∧ (zetas k).toInt < 1665 := by
  have hall : ∀ k < 128, -1665 < (zetas k).toInt ∧ (zetas k).toInt < 1665 := by decide +kernel
  exact hall k hk

/-- The table is a tree of square roots below `-1`. -/
theorem zetaOf_mul_self {k : ℕ} (hk : 0 < k) (hk' : k < 128) :
    zetaOf k * zetaOf k = root zetaOf k := by
  have hall : ∀ k < 128, 0 < k → ((zetas k).toInt * (zetas k).toInt * 169 * 169 -
      if k = 1 then -1 else if k % 2 = 0 then (zetas (k / 2)).toInt * 169
        else -((zetas (k / 2)).toInt * 169)) % 3329 = 0 := by decide +kernel
  have hdvd := (ZMod.intCast_zmod_eq_zero_iff_dvd _ 3329).mpr (Int.dvd_of_emod_eq_zero (hall k hk' hk))
  rw [root]
  split_ifs with h1 h2
  · rw [if_pos h1] at hdvd
    push_cast at hdvd
    simp only [zetaOf, I16.toZq]
    linear_combination hdvd
  · rw [if_neg h1, if_pos h2] at hdvd
    push_cast at hdvd
    simp only [zetaOf, I16.toZq]
    linear_combination hdvd
  · rw [if_neg h1, if_neg h2] at hdvd
    push_cast at hdvd
    simp only [zetaOf, I16.toZq]
    linear_combination hdvd

/-- The inverse transform walks each layer of the table backwards. -/
theorem zetaOf_mul_mirror {k b : ℕ} (hk : k ∈ [1, 2, 4, 8, 16, 32, 64]) (hb : b < k) :
    zetaOf (2 * k - 1 - b) * zetaOf (k + b) = -1 := by
  have hall : ∀ k ∈ [1, 2, 4, 8, 16, 32, 64], ∀ b < k,
      ((zetas (2 * k - 1 - b)).toInt * (zetas (k + b)).toInt * 169 * 169 + 1) % 3329 = 0 := by
    decide +kernel
  have hdvd := (ZMod.intCast_zmod_eq_zero_iff_dvd _ 3329).mpr
    (Int.dvd_of_emod_eq_zero (hall k hk b hb))
  push_cast at hdvd
  simp only [zetaOf, I16.toZq]
  linear_combination hdvd

end Zetas

section Passes

/-- The entries of the butterfly at `j`. -/
def pairOwn (len j i : ℕ) : Prop := i = j ∨ i = j + len

/-- A layer: `k` blocks of butterflies over the distance `n`. -/
def pass (k n : ℕ) (turn : ℕ → Poly → ℕ → Poly) (r : Poly) : Poly :=
  (List.range k).foldl (fun r b => (List.range' (2 * n * b) n).foldl (turn b) r) r

theorem owns_nttButterfly (zeta : I16) (len : ℕ) :
    Owns Coeffs.coeff (pairOwn len) (nttButterfly zeta len) where
  keeps r j i hi := by
    rw [pairOwn, not_or] at hi
    simp only [nttButterfly, Coeffs.coeff_put]
    rw [if_neg (by tauto), if_neg (by tauto)]
  reads r s j h i _ := by
    simp only [nttButterfly, Coeffs.coeff_put, h j (.inl rfl), h (j + len) (.inr rfl)]
    split_ifs <;> grind [pairOwn]

theorem owns_invnttButterfly (zeta : I16) (len : ℕ) :
    Owns Coeffs.coeff (pairOwn len) (invnttButterfly zeta len) where
  keeps r j i hi := by
    rw [pairOwn, not_or] at hi
    simp only [invnttButterfly, Coeffs.coeff_put]
    rw [if_neg (by tauto), if_neg (by tauto), if_neg (by tauto)]
  reads r s j h i _ := by
    simp only [invnttButterfly, Coeffs.coeff_put, h j (.inl rfl), h (j + len) (.inr rfl)]
    split_ifs <;> grind [pairOwn]

theorem apart_pairs (n s : ℕ) : Apart (pairOwn n) (List.range' s n) := by
  refine List.Pairwise.imp_of_mem ?_ List.pairwise_lt_range'
  intro j j' hj hj' hlt i hi hi'
  rw [List.mem_range'_1] at hj hj'
  rw [pairOwn] at hi hi'
  omega

theorem apart_blocks (n k : ℕ) :
    Apart (fun b i => ∃ j ∈ List.range' (2 * n * b) n, pairOwn n j i) (List.range k) := by
  refine List.pairwise_lt_range.imp ?_
  rintro b b' hlt i ⟨j, hj, hi⟩ ⟨j', hj', hi'⟩
  rw [List.mem_range'_1] at hj hj'
  rw [pairOwn] at hi hi'
  have hblock : 2 * n * b + 2 * n ≤ 2 * n * b' := by nlinarith
  omega

/-- In a layer every pair is rewritten once, from the start. -/
theorem coeff_pass {k n : ℕ} {turn : ℕ → Poly → ℕ → Poly}
    (h : ∀ b, Owns Coeffs.coeff (pairOwn n) (turn b)) (r : Poly) {b j i : ℕ} (hb : b < k)
    (hj : j < n) (hi : pairOwn n (2 * n * b + j) i) :
    (pass k n turn r).coeff i = (turn b r (2 * n * b + j)).coeff i := by
  have hblocks := Owns.pass (fun b => List.range' (2 * n * b) n) turn h fun b => apart_pairs n _
  have hmem : 2 * n * b + j ∈ List.range' (2 * n * b) n := by
    rw [List.mem_range'_1]
    omega
  have houter := hblocks.foldl_owned (apart_blocks n k) (List.mem_range.mpr hb) ⟨_, hmem, hi⟩ r
  exact houter.trans ((h b).foldl_owned (apart_pairs n _) hmem hi r)

theorem nttLayer_eq_pass (r : Poly) {layer k n : ℕ} (hn : 256 >>> layer = n)
    (hk : 256 / (2 * n) = k) (hk' : 1 <<< (layer - 1) = k) :
    nttLayer r layer = pass k n (fun b => nttButterfly (zetas (k + b)) n) r := by
  have hcount := foldl_counted (fun r k start => nttButterflyBlock r (zetas k) start n) (· + 1) r k
    k (2 * n)
  have hnext (b : ℕ) : (fun k => k + 1)^[b] k = k + b := by
    induction b with
    | zero => rfl
    | succ b ih => rw [Function.iterate_succ_apply', ih, Nat.add_assoc]
  simp only [hnext] at hcount
  simp only [nttLayer, hn, hk, hk', hcount]
  rfl

theorem invnttLayer_eq_pass (r : Poly) {layer k n : ℕ} (hn : 256 >>> layer = n)
    (hk : 256 / (2 * n) = k) (hk' : 1 <<< layer = 2 * k) :
    invnttLayer r layer = pass k n (fun b => invnttButterfly (zetas (2 * k - 1 - b)) n) r := by
  have hcount := foldl_counted (fun r k start => (List.range' start n).foldl
    (invnttButterfly (zetas k) n) r) (· - 1) r (2 * k - 1) k (2 * n)
  have hnext (b : ℕ) : (fun k => k - 1)^[b] (2 * k - 1) = 2 * k - 1 - b := by
    induction b with
    | zero => rfl
    | succ b ih => rw [Function.iterate_succ_apply', ih, Nat.sub_sub]
  simp only [hnext] at hcount
  simp only [invnttLayer, hn, hk, hk', hcount]
  rfl

end Passes

section Layers
variable {n k j : ℕ} {r : Poly} {F : Zq[X]}

theorem nttButterfly_low (zeta : I16) (hn : 0 < n) (hj : j + n < 256) (r : Poly) :
    (nttButterfly zeta n r j).coeff j = r.coeff j + fqmul (r.coeff (j + n)) zeta := by
  simp only [nttButterfly, Coeffs.coeff_put, true_and]
  rw [if_pos (by omega), if_neg (by omega)]

theorem nttButterfly_high (zeta : I16) (hn : 0 < n) (hj : j + n < 256) (r : Poly) :
    (nttButterfly zeta n r j).coeff (j + n) = r.coeff j - fqmul (r.coeff (j + n)) zeta := by
  simp only [nttButterfly, Coeffs.coeff_put, true_and]
  rw [if_neg (by omega), if_pos hj]

theorem invnttButterfly_low (zeta : I16) (hn : 0 < n) (hj : j + n < 256) (r : Poly) :
    (invnttButterfly zeta n r j).coeff j = barrettReduce (r.coeff j + r.coeff (j + n)) := by
  simp only [invnttButterfly, Coeffs.coeff_put, true_and]
  rw [if_neg (by omega), if_neg (by omega), if_pos (by omega)]

theorem invnttButterfly_high (zeta : I16) (hn : 0 < n) (hj : j + n < 256) (r : Poly) :
    (invnttButterfly zeta n r j).coeff (j + n) =
      fqmul (r.coeff (j + n) - r.coeff j) zeta := by
  simp only [invnttButterfly, Coeffs.coeff_put, true_and]
  rw [if_pos hj, if_pos hj, if_neg (by omega)]

/-- Every place of a layer is in one of its butterflies. -/
theorem exists_butterfly {i : ℕ} (hkn : k * (2 * n) = 256) (hi : i < 256) :
    ∃ b < k, ∃ j < n, i = 2 * n * b + j ∨ i = 2 * n * b + j + n := by
  have hpos : 0 < 2 * n := Nat.pos_of_ne_zero fun h => by simp [h] at hkn
  have hdiv := Nat.div_add_mod i (2 * n)
  have hmod := Nat.mod_lt i hpos
  refine ⟨i / (2 * n), Nat.div_lt_of_lt_mul (by rw [Nat.mul_comm]; omega), ?_⟩
  by_cases hlow : i % (2 * n) < n
  · exact ⟨i % (2 * n), hlow, .inl hdiv.symm⟩
  · exact ⟨i % (2 * n) - n, by omega, .inr (by omega)⟩

theorem butterfly_lt {b : ℕ} (hkn : k * (2 * n) = 256) (hb : b < k) (hj : j < n) :
    2 * n * b + j + n < 256 := by
  have hle : (b + 1) * (2 * n) ≤ k * (2 * n) := Nat.mul_le_mul_right _ hb
  rw [hkn, Nat.succ_mul, Nat.mul_comm] at hle
  omega

/-- One layer of the forward transform. -/
theorem nttPass_spec {B : ℤ} (hkn : k * (2 * n) = 256) (hk : k ≤ 64) (hB : 0 ≤ B)
    (hB' : B + 3329 ≤ 32768) (hr : r.AbsBound B) :
    (pass k n (fun b => nttButterfly (zetas (k + b)) n) r).AbsBound (B + 3329) ∧
      Splits k n (fun b => zetaOf (k + b)) r.zq
        (pass k n (fun b => nttButterfly (zetas (k + b)) n) r).zq := by
  have hpair (b j : ℕ) (hb : b < k) (hj : j < n) :
      (pass k n (fun b => nttButterfly (zetas (k + b)) n) r).coeff (2 * n * b + j) =
        r.coeff (2 * n * b + j) + fqmul (r.coeff (2 * n * b + j + n)) (zetas (k + b)) ∧
      (pass k n (fun b => nttButterfly (zetas (k + b)) n) r).coeff (2 * n * b + j + n) =
        r.coeff (2 * n * b + j) - fqmul (r.coeff (2 * n * b + j + n)) (zetas (k + b)) := by
    have hlt := butterfly_lt hkn hb hj
    rw [coeff_pass (fun b => owns_nttButterfly _ n) r hb hj (.inl rfl),
      coeff_pass (fun b => owns_nttButterfly _ n) r hb hj (.inr rfl),
      nttButterfly_low _ (by omega) hlt, nttButterfly_high _ (by omega) hlt]
    exact ⟨rfl, rfl⟩
  have hprod (b j : ℕ) (hb : b < k) := fqmul_bounds (r.coeff (2 * n * b + j + n))
    (zetas_bounds (show k + b < 128 by omega)).1 (zetas_bounds (show k + b < 128 by omega)).2
  refine ⟨fun i hi => ?_, fun b hb j hj => ?_⟩
  · obtain ⟨b, hb, j, hj, hcase⟩ := exists_butterfly hkn hi
    have hlt := butterfly_lt hkn hb hj
    have hx := hr (2 * n * b + j) (by omega)
    have ht := hprod b j hb
    rcases hcase with rfl | rfl
    · rw [(hpair b j hb hj).1, toInt_add_of_bounds (by omega) (by omega)]
      constructor <;> omega
    · rw [(hpair b j hb hj).2, toInt_sub_of_bounds (by omega) (by omega)]
      constructor <;> omega
  · have hlt := butterfly_lt hkn hb hj
    have hx := hr (2 * n * b + j) (by omega)
    have ht := hprod b j hb
    rw [show 2 * b * n + j = 2 * n * b + j by ring, show 2 * b * n + n + j = 2 * n * b + j + n by ring]
    simp only [Coeffs.zq]
    rw [(hpair b j hb hj).1, (hpair b j hb hj).2, toZq_add (by omega) (by omega),
      toZq_sub (by omega) (by omega), toZq_fqmul_eq, zetaOf]
    constructor <;> ring

/-- One layer of the inverse transform. -/
theorem invnttPass_spec (hkn : k * (2 * n) = 256) (hk : k ≤ 64) (hr : r.AbsBound 3329) :
    (pass k n (fun b => invnttButterfly (zetas (2 * k - 1 - b)) n) r).AbsBound 3329 ∧
      Joins k n (fun b => zetaOf (2 * k - 1 - b)) r.zq
        (pass k n (fun b => invnttButterfly (zetas (2 * k - 1 - b)) n) r).zq := by
  have hpair (b j : ℕ) (hb : b < k) (hj : j < n) :
      (pass k n (fun b => invnttButterfly (zetas (2 * k - 1 - b)) n) r).coeff (2 * n * b + j) =
        barrettReduce (r.coeff (2 * n * b + j) + r.coeff (2 * n * b + j + n)) ∧
      (pass k n (fun b => invnttButterfly (zetas (2 * k - 1 - b)) n) r).coeff (2 * n * b + j + n) =
        fqmul (r.coeff (2 * n * b + j + n) - r.coeff (2 * n * b + j)) (zetas (2 * k - 1 - b)) := by
    have hlt := butterfly_lt hkn hb hj
    rw [coeff_pass (fun b => owns_invnttButterfly _ n) r hb hj (.inl rfl),
      coeff_pass (fun b => owns_invnttButterfly _ n) r hb hj (.inr rfl),
      invnttButterfly_low _ (by omega) hlt, invnttButterfly_high _ (by omega) hlt]
    exact ⟨rfl, rfl⟩
  refine ⟨fun i hi => ?_, fun b hb j hj => ?_⟩
  · obtain ⟨b, hb, j, hj, rfl | rfl⟩ := exists_butterfly hkn hi
    · obtain ⟨t, -, hlow, hhigh⟩ :=
        barrettReduce_exact (r.coeff (2 * n * b + j) + r.coeff (2 * n * b + j + n))
      rw [(hpair b j hb hj).1]
      constructor <;> omega
    · rw [(hpair b j hb hj).2]
      exact fqmul_bounds _ (zetas_bounds (show 2 * k - 1 - b < 128 by omega)).1
        (zetas_bounds (show 2 * k - 1 - b < 128 by omega)).2
  · have hlt := butterfly_lt hkn hb hj
    have hlow := hr (2 * n * b + j) (by omega)
    have hhigh := hr (2 * n * b + j + n) (by omega)
    rw [show 2 * b * n + j = 2 * n * b + j by ring, show 2 * b * n + n + j = 2 * n * b + j + n by ring]
    simp only [Coeffs.zq]
    rw [(hpair b j hb hj).1, (hpair b j hb hj).2, toZq_barrettReduce, toZq_add (by omega) (by omega),
      toZq_fqmul_eq, toZq_sub (by omega) (by omega), zetaOf]
    constructor <;> ring

end Layers

section Transforms
variable {p : Poly}

theorem ntt_shape {m : ℕ} (hm : m < 7) :
    256 >>> (1 + 1 * m) = 2 ^ (7 - m) ∧ 256 / (2 * 2 ^ (7 - m)) = 2 ^ m ∧
      1 <<< (1 + 1 * m - 1) = 2 ^ m ∧ 2 ^ m * (2 * 2 ^ (7 - m)) = 256 ∧ 2 ^ m ≤ 64 ∧
      2 ^ (8 - m) = 2 * 2 ^ (7 - m) := by
  interval_cases m <;> decide

theorem invntt_shape {m : ℕ} (hm : m < 7) :
    256 >>> (7 - m) = 2 ^ (m + 1) ∧ 256 / (2 * 2 ^ (m + 1)) = 2 ^ (6 - m) ∧
      1 <<< (7 - m) = 2 * 2 ^ (6 - m) ∧ 2 ^ (6 - m) * (2 * 2 ^ (m + 1)) = 256 ∧ 2 ^ (6 - m) ≤ 64 ∧
      2 ^ (7 - m) = 2 * 2 ^ (6 - m) ∧ 2 ^ (6 - m) ∈ [1, 2, 4, 8, 16, 32, 64] := by
  interval_cases m <;> decide

/-- The first `m` layers of `mlk_poly_ntt`. -/
theorem nttLayers_spec (hp : p.AbsBound 3329) {m : ℕ} (hm : m ≤ 7) :
    ((List.range' 1 m).foldl nttLayer p).AbsBound ((m + 1) * 3329) ∧
      Residues zetaOf (2 ^ m) (2 ^ (8 - m)) p.poly ((List.range' 1 m).foldl nttLayer p).zq := by
  induction m with
  | zero =>
    refine ⟨by simpa using hp, ?_⟩
    exact residues_self zetaOf p.zq 256
  | succ m ih =>
    obtain ⟨hbound, hres⟩ := ih (by omega)
    obtain ⟨hn, hk, hk', hkn, hle, hpow⟩ := ntt_shape hm
    rw [List.range'_concat, List.foldl_append, List.foldl_cons, List.foldl_nil,
      nttLayer_eq_pass _ hn hk hk']
    obtain ⟨hbound', hsplit⟩ := nttPass_spec hkn hle (by positivity) (by omega) hbound
    refine ⟨?_, ?_⟩
    · rw [show ((m + 1 : ℕ) + 1 : ℤ) * 3329 = (m + 1) * 3329 + 3329 by push_cast; ring]
      exact hbound'
    · rw [pow_succ', show 8 - (m + 1) = 7 - m by omega]
      rw [hpow] at hres
      exact hres.split (Nat.two_pow_pos m)
        (fun b hb => zetaOf_mul_self (by positivity) (by omega)) hsplit

/-- Every array of leaf coefficients stands for a polynomial. -/
theorem exists_residues {m : ℕ} (hm : m ≤ 7) (x : ℕ → Zq) :
    ∃ F, Residues zetaOf (2 ^ m) (2 ^ (8 - m)) F x := by
  induction m generalizing x with
  | zero => exact ⟨_, residues_self zetaOf x 256⟩
  | succ m ih =>
    obtain ⟨-, -, -, -, hle, hpow⟩ := ntt_shape hm
    have hmem : ∀ m < 7, 2 ^ m ∈ [1, 2, 4, 8, 16, 32, 64] := by decide
    rw [pow_succ', show 8 - (m + 1) = 7 - m by omega]
    rw [hpow] at ih
    refine exists_residues_split (u := fun b => -zetaOf (2 * 2 ^ m - 1 - b))
      (Nat.two_pow_pos m) (Nat.two_pow_pos _) (fun b hb => zetaOf_mul_self (by positivity) (by omega))
      (show (2 : Zq) * 1665 = 1 from rfl) (fun b hb => ?_) (ih (by omega))
    rw [mul_neg, mul_comm, zetaOf_mul_mirror (hmem m hm) hb, neg_neg]

/-- The first `m` layers of `mlk_poly_invntt_tomont`. -/
theorem invnttLayers_spec {F : Zq[X]} (hp : p.AbsBound 3329) (hF : Residues zetaOf 128 2 F p.zq)
    {m : ℕ} (hm : m ≤ 7) :
    ((List.range m).foldl (fun r i => invnttLayer r (7 - i)) p).AbsBound 3329 ∧
      Residues zetaOf (2 ^ (7 - m)) (2 ^ (m + 1)) (2 ^ m * F)
        ((List.range m).foldl (fun r i => invnttLayer r (7 - i)) p).zq := by
  induction m with
  | zero =>
    refine ⟨hp, ?_⟩
    rw [pow_zero, one_mul]
    exact hF
  | succ m ih =>
    obtain ⟨hbound, hres⟩ := ih (by omega)
    obtain ⟨hn, hk, hk', hkn, hle, hpow, hmem⟩ := invntt_shape hm
    rw [List.range_succ, List.foldl_append, List.foldl_cons, List.foldl_nil,
      invnttLayer_eq_pass _ hn hk hk']
    obtain ⟨hbound', hjoin⟩ := invnttPass_spec hkn hle hbound
    refine ⟨hbound', ?_⟩
    rw [show 7 - (m + 1) = 6 - m by omega, pow_succ' 2 (m + 1), pow_succ' (2 : Zq[X]) m, mul_assoc]
    rw [hpow] at hres
    have h2 : IsUnit (2 : Zq) := IsUnit.of_mul_eq_one 1665 rfl
    exact hres.join (Nat.two_pow_pos _) h2
      (fun b hb => zetaOf_mul_self (by positivity) (by omega))
      (fun b hb => zetaOf_mul_mirror hmem hb) hjoin

/-- The order of the factors of `X ^ 256 + 1`: seven bits reversed. -/
def bitRev7 (b : ℕ) : ℕ :=
  (List.range 7).foldl (fun r i => 2 * r + b / 2 ^ i % 2) 0

/-- The root of the factor `X ^ 2 - γ` at place `b`. -/
def gamma (b : ℕ) : Zq := 17 ^ (2 * bitRev7 b + 1)

/-- The leaves of the table are the odd powers of `17`. -/
theorem root_leaf {b : ℕ} (hb : b < 128) : root zetaOf (128 + b) = gamma b := by
  have hall : ∀ b < 128, ((if b % 2 = 0 then (zetas (64 + b / 2)).toInt * 169
      else -((zetas (64 + b / 2)).toInt * 169)) - 17 ^ (2 * bitRev7 b + 1)) % 3329 = 0 := by
    decide +kernel
  have hdvd := (ZMod.intCast_zmod_eq_zero_iff_dvd _ 3329).mpr
    (Int.dvd_of_emod_eq_zero (hall b hb))
  rw [root, if_neg (by omega), show (128 + b) / 2 = 64 + b / 2 by omega, gamma]
  by_cases heven : b % 2 = 0
  · rw [if_pos heven] at hdvd
    rw [if_pos (by omega)]
    push_cast at hdvd
    simp only [zetaOf, I16.toZq]
    linear_combination hdvd
  · rw [if_neg heven] at hdvd
    rw [if_neg (by omega)]
    push_cast at hdvd
    simp only [zetaOf, I16.toZq]
    linear_combination hdvd

theorem polyNtt_spec (hp : p.AbsBound 3329) :
    (polyNtt p).AbsBound (8 * 3329) ∧ Residues zetaOf 128 2 p.poly (polyNtt p).zq :=
  nttLayers_spec hp le_rfl

theorem polyInvnttTomont_spec {F : Zq[X]} (hF : Residues zetaOf 128 2 F p.zq) :
    (polyInvnttTomont p).AbsBound 3329 ∧
      X ^ 256 + 1 ∣ C 65536 * F - (polyInvnttTomont p).poly := by
  have hscaled (i : ℕ) (hi : i < 256) :
      (p.each fun _ x => fqmul x 1441#16).coeff i = fqmul (p.coeff i) 1441#16 :=
    Coeffs.coeff_each _ p hi
  have hbound : (p.each fun _ x => fqmul x 1441#16).AbsBound 3329 := by
    intro i hi
    rw [hscaled i hi]
    exact fqmul_bounds _ (by decide) (by decide)
  have hres : Residues zetaOf 128 2 (C (1441 * 169) * F)
      (p.each fun _ x => fqmul x 1441#16).zq := by
    refine (hF.scale (1441 * 169)).congr fun i hi => ?_
    rw [Coeffs.zq, Coeffs.zq, hscaled i hi, toZq_fqmul_eq,
      show I16.toZq 1441#16 = 1441 from rfl]
    ring
  obtain ⟨hout, hroot⟩ := invnttLayers_spec hbound hres le_rfl
  refine ⟨hout, ?_⟩
  -- `1441 * 2 ^ 7 = 2 ^ 32` modulo `q`
  have hfactor : C (65536 : Zq) * F = 2 ^ 7 * (C (1441 * 169) * F) := by
    rw [← mul_assoc, show (2 : Zq[X]) ^ 7 = C (2 ^ 7) by rw [C_pow]; rfl, ← C_mul]
    rfl
  rw [hfactor]
  exact dvd_of_residues_one hroot

/-- The transform of the code is the one of the standard: from reduced coefficients it leaves at
place `b` the residue modulo `X ^ 2 - 17 ^ (2 bitRev7 b + 1)`, within the bound `MLK_NTT_BOUND`. -/
theorem ntt_leaves (hp : p.AbsBound 3329) :
    (polyNtt p).AbsBound (8 * 3329) ∧ ∀ b < 128, X ^ 2 - C (gamma b) ∣
      p.poly - (C ((polyNtt p).zq (2 * b)) + C ((polyNtt p).zq (2 * b + 1)) * X) := by
  obtain ⟨hbound, hres⟩ := polyNtt_spec hp
  refine ⟨hbound, fun b hb => ?_⟩
  have hleaf := hres b hb
  rwa [root_leaf hb, blockPoly_two, Nat.mul_comm b 2] at hleaf

/-- `1 + 2 X + … + 256 X ^ 255`. -/
def countingPoly : Poly := (Coeffs.zero 256).each fun i _ => BitVec.ofNat 16 (i + 1)

theorem countingPoly_absBound : countingPoly.AbsBound 3329 := by
  intro i hi
  rw [countingPoly, Coeffs.coeff_each _ _ hi, BitVec.toInt_ofNat', bmod16 (by omega) (by omega)]
  omega

theorem ntt_leaves_counting :
    (polyNtt countingPoly).AbsBound (8 * 3329) ∧ ∀ b < 128, X ^ 2 - C (gamma b) ∣
      countingPoly.poly - (C ((polyNtt countingPoly).zq (2 * b)) +
        C ((polyNtt countingPoly).zq (2 * b + 1)) * X) :=
  ntt_leaves countingPoly_absBound

end Transforms

end PqPsi.MlkemNative
