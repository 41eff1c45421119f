import PqPsi.Lib.Buffers
import PqPsi.MlkemNative.Reduce

/-!
# Polynomials

A polynomial is an array of 256 coefficients that the loops rewrite in place.
The forward transform runs seven layers of butterflies with the twiddle factors
of `mlk_zetas`, the inverse one runs them backwards after a scaling.
-/
namespace PqPsi.MlkemNative
open Lib.Buffers

/-- An array of `n` coefficients. -/
structure Coeffs (n : ℕ) where
  coeffs : Vector I16 n
deriving DecidableEq

/-- `mlk_poly`. -/
abbrev Poly := Coeffs 256

/-- `mlk_poly_mulcache`. -/
abbrev PolyMulcache := Coeffs 128

namespace Coeffs
variable {n : ℕ}

def coeff (r : Coeffs n) (i : ℕ) : I16 := r.coeffs.getD i 0

def put (r : Coeffs n) (i : ℕ) (x : I16) : Coeffs n := ⟨r.coeffs.setIfInBounds i x⟩

/-- An output buffer before it is written. -/
def zero (n : ℕ) : Coeffs n := ⟨Vector.replicate n 0⟩

/-- The loops that rewrite each coefficient on its own. -/
def each (f : ℕ → I16 → I16) (r : Coeffs n) : Coeffs n :=
  (List.range n).foldl (fun r i => r.put i (f i (r.coeff i))) r

/-- The loops that write the entries `2i` and `2i + 1` in turn `i < m`. -/
def fillPairs (m : ℕ) (f g : ℕ → I16) (r : Coeffs n) : Coeffs n :=
  (List.range m).foldl (fun r i => (r.put (2 * i) (f i)).put (2 * i + 1) (g i)) r

end Coeffs

def polyTomont (r : Poly) : Poly := r.each fun _ x => fqmul x 1353#16

def polyReduce (r : Poly) : Poly := r.each fun _ x => scalarSignedToUnsignedQ (barrettReduce x)

def polyAdd (r b : Poly) : Poly := r.each fun i x => x + b.coeff i

def polySub (r b : Poly) : Poly := r.each fun i x => x - b.coeff i

/-- `mlk_zetas`. -/
def zetasTable : List ℤ := [
  -1044, -758, -359, -1517, 1493, 1422, 287, 202, -171, 622, 1577, 182, 962, -1202, -1474, 1468,
  573, -1325, 264, 383, -829, 1458, -1602, -130, -681, 1017, 732, 608, -1542, 411, -205, -1571,
  1223, 652, -552, 1015, -1293, 1491, -282, -1544, 516, -8, -320, -666, -1618, -1162, 126, 1469,
  -853, -90, -271, 830, 107, -1421, -247, -951, -398, 961, -1508, -725, 448, -1065, 677, -1275,
  -1103, 430, 555, 843, -1251, 871, 1550, 105, 422, 587, 177, -235, -291, -460, 1574, 1653, -246,
  778, 1159, -147, -777, 1483, -602, 1119, -1590, 644, -872, 349, 418, 329, -156, -75, 817, 1097,
  603, 610, 1322, -1285, -1465, 384, -1215, -136, 1218, -1335, -874, 220, -1187, -1659, -1185,
  -1530, -1278, 794, -1510, -854, -870, 478, -108, -308, 996, 991, 958, -1460, 1522, 1628]

def zetas (k : ℕ) : I16 := BitVec.ofInt 16 (zetasTable.getD k 0)

def polyMulcacheCompute (a : Poly) : PolyMulcache :=
  (Coeffs.zero 128).fillPairs 64 (fun i => fqmul (a.coeff (4 * i + 1)) (zetas (64 + i)))
    (fun i => fqmul (a.coeff (4 * i + 3)) (-zetas (64 + i)))

/-- One butterfly of `mlk_ntt_butterfly_block`. -/
def nttButterfly (zeta : I16) (len : ℕ) (r : Poly) (j : ℕ) : Poly :=
  let t := fqmul (r.coeff (j + len)) zeta
  let r := r.put (j + len) (r.coeff j - t)
  r.put j (r.coeff j + t)

def nttButterflyBlock (r : Poly) (zeta : I16) (start len : ℕ) : Poly :=
  (List.range' start len).foldl (nttButterfly zeta len) r

def nttLayer (r : Poly) (layer : ℕ) : Poly :=
  let len := 256 >>> layer
  ((List.range' 0 (256 / (2 * len)) (2 * len)).foldl
    (fun rk start => (nttButterflyBlock rk.1 (zetas rk.2) start len, rk.2 + 1))
    (r, 1 <<< (layer - 1))).1

def polyNtt (p : Poly) : Poly := (List.range' 1 7).foldl nttLayer p

/-- One butterfly of `mlk_invntt_layer`. -/
def invnttButterfly (zeta : I16) (len : ℕ) (r : Poly) (j : ℕ) : Poly :=
  let t := r.coeff j
  let r := r.put j (barrettReduce (t + r.coeff (j + len)))
  let r := r.put (j + len) (r.coeff (j + len) - t)
  r.put (j + len) (fqmul (r.coeff (j + len)) zeta)

def invnttLayer (r : Poly) (layer : ℕ) : Poly :=
  let len := 256 >>> layer
  ((List.range' 0 (256 / (2 * len)) (2 * len)).foldl
    (fun rk start =>
      ((List.range' start len).foldl (invnttButterfly (zetas rk.2) len) rk.1, rk.2 - 1))
    (r, 1 <<< layer - 1)).1

def polyInvnttTomont (p : Poly) : Poly :=
  (List.range 7).foldl (fun r i => invnttLayer r (7 - i)) (p.each fun _ x => fqmul x 1441#16)

namespace Coeffs
variable {n : ℕ}

@[simp] theorem coeff_put (r : Coeffs n) (i j : ℕ) (x : I16) :
    (r.put i x).coeff j = if j = i ∧ i < n then x else r.coeff j := by
  by_cases hi : i < n
  · rw [coeff, put, vector_getD_setIfInBounds _ hi]
    simp only [hi, and_true]
    rfl
  · rw [if_neg fun h => hi h.2, put, Vector.setIfInBounds_eq_of_size_le (Nat.le_of_not_lt hi)]

theorem ext_coeff {r s : Coeffs n} (h : ∀ i < n, r.coeff i = s.coeff i) : r = s := by
  obtain ⟨r⟩ := r
  obtain ⟨s⟩ := s
  congr 1
  apply Vector.ext
  intro i hi
  rw [← vector_getD r hi, ← vector_getD s hi]
  exact h i hi

theorem coeff_each (f : ℕ → I16 → I16) (r : Coeffs n) {i : ℕ} (hi : i < n) :
    (r.each f).coeff i = f i (r.coeff i) := by
  -- after `m` turns the coefficients below `m` are rewritten and the others untouched
  have hrun : ∀ m ≤ n, ∀ j < n, ((List.range m).foldl (fun r i => r.put i (f i (r.coeff i)))
      r).coeff j = if j < m then f j (r.coeff j) else r.coeff j := by
    intro m
    induction m with
    | zero => exact fun _ j _ => rfl
    | succ m ih =>
      intro hm j hj
      rw [List.range_succ, List.foldl_append, List.foldl_cons, List.foldl_nil, coeff_put,
        ih (by omega) j hj, ih (by omega) m (by omega), if_neg (lt_irrefl m)]
      rcases Nat.lt_trichotomy j m with hlt | rfl | hgt
      · rw [if_neg (by omega), if_pos hlt, if_pos (by omega)]
      · rw [if_pos ⟨rfl, hj⟩, if_pos (Nat.lt_succ_self j)]
      · rw [if_neg (by omega), if_neg (by omega), if_neg (by omega)]
  rw [each, hrun n le_rfl i hi, if_pos hi]

theorem coeff_fillPairs (f g : ℕ → I16) (r : Coeffs n) {m i : ℕ} (hm : 2 * m ≤ n) (hi : i < m) :
    (r.fillPairs m f g).coeff (2 * i) = f i ∧ (r.fillPairs m f g).coeff (2 * i + 1) = g i := by
  induction m with
  | zero => exact absurd hi (Nat.not_lt_zero i)
  | succ m ih =>
    rw [fillPairs, List.range_succ, List.foldl_append, List.foldl_cons, List.foldl_nil, ← fillPairs]
    simp only [coeff_put]
    rcases Nat.lt_succ_iff_lt_or_eq.mp hi with hlt | rfl
    · obtain ⟨hfst, hsnd⟩ := ih (by omega) hlt
      rw [if_neg (by omega), if_neg (by omega), if_neg (by omega), if_neg (by omega)]
      exact ⟨hfst, hsnd⟩
    · rw [if_neg (by omega), if_pos (by omega), if_pos (by omega)]
      exact ⟨rfl, rfl⟩

end Coeffs

end PqPsi.MlkemNative
