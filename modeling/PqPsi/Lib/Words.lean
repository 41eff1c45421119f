import PqPsi.Lib.BitStream
import PqPsi.Lib.Buffers

/-!
# Words

Rotations of machine words, three-term mixers over rotated words, and words
kept as bytes, least significant byte first.
-/
namespace PqPsi.Lib.Words
open BitStream Buffers

section Rotations
variable {w : ℕ}

/-- A rotated word reads its bits from one place further round. -/
theorem getLsbD_rotateLeft_mod (x : BitVec w) (r : ℕ) {i : ℕ} (hi : i < w) :
    (x.rotateLeft r).getLsbD i = x.getLsbD ((i + (w - r % w)) % w) := by
  have hr := Nat.mod_lt r (Nat.zero_lt_of_lt hi)
  rw [BitVec.getLsbD_rotateLeft]
  by_cases hlt : i < r % w
  · have hmod : (i + (w - r % w)) % w = w - r % w + i := by
      rw [Nat.mod_eq_of_lt (by omega)]
      omega
    simp [hlt, hmod]
  · have hsum : i + (w - r % w) = i - r % w + w := by omega
    have hmod : (i + (w - r % w)) % w = i - r % w := by
      rw [hsum, Nat.add_mod_right, Nat.mod_eq_of_lt (by omega)]
    simp [hlt, hmod, hi]

theorem rotateLeft_xor (x y : BitVec w) (r : ℕ) :
    (x ^^^ y).rotateLeft r = x.rotateLeft r ^^^ y.rotateLeft r := by
  apply BitVec.eq_of_getLsbD_eq
  intro i hi
  simp only [BitVec.getLsbD_xor, getLsbD_rotateLeft_mod _ _ hi]

theorem rotateLeft_rotateLeft (x : BitVec w) (r q : ℕ) :
    (x.rotateLeft r).rotateLeft q = x.rotateLeft (r + q) := by
  apply BitVec.eq_of_getLsbD_eq
  intro i hi
  have hw := Nat.zero_lt_of_lt hi
  rw [getLsbD_rotateLeft_mod _ _ hi, getLsbD_rotateLeft_mod _ _ (Nat.mod_lt _ hw),
    getLsbD_rotateLeft_mod _ _ hi]
  congr 1
  have hr := Nat.mod_lt r hw
  have hq := Nat.mod_lt q hw
  rw [Nat.mod_add_mod, Nat.add_mod r q]
  by_cases hlt : r % w + q % w < w
  · have hsum : i + (w - q % w) + (w - r % w) = i + (w - (r % w + q % w)) + w := by omega
    rw [Nat.mod_eq_of_lt hlt, hsum, Nat.add_mod_right]
  · have hsum : i + (w - q % w) + (w - r % w) = i + (w - (r % w + q % w - w)) := by omega
    have hmod : (r % w + q % w) % w = r % w + q % w - w := by
      rw [Nat.mod_eq_sub_mod (by omega), Nat.mod_eq_of_lt (by omega)]
    rw [hmod, hsum]

theorem rotateLeft_of_mod_eq_zero (x : BitVec w) {r : ℕ} (h : r % w = 0) : x.rotateLeft r = x := by
  apply BitVec.eq_of_getLsbD_eq
  intro i hi
  rw [getLsbD_rotateLeft_mod _ _ hi, h, Nat.sub_zero, Nat.add_mod_right, Nat.mod_eq_of_lt hi]

theorem rotateRight_eq_rotateLeft (x : BitVec w) (r : ℕ) :
    x.rotateRight r = x.rotateLeft (w - r % w) := by
  apply BitVec.eq_of_getLsbD_eq
  intro i hi
  have hr := Nat.mod_lt r (Nat.zero_lt_of_lt hi)
  rw [getLsbD_rotateLeft_mod _ _ hi, BitVec.getLsbD_rotateRight]
  by_cases hz : r % w = 0
  · simp [hz, hi, Nat.mod_eq_of_lt hi]
  · have hback : w - (w - r % w) % w = r % w := by
      rw [Nat.mod_eq_of_lt (by omega)]
      omega
    rw [hback]
    by_cases hlt : i < w - r % w
    · have hmod : (i + r % w) % w = r % w + i := by
        rw [Nat.mod_eq_of_lt (by omega), Nat.add_comm]
      simp [hlt, hmod]
    · have hmod : (i + r % w) % w = i - (w - r % w) := by
        rw [Nat.mod_eq_sub_mod (by omega), Nat.mod_eq_of_lt (by omega)]
        omega
      simp [hlt, hmod, hi]

theorem rotateLeft_full_turn (x : BitVec w) (r : ℕ) : x.rotateLeft (r + (w - r % w)) = x := by
  cases w with
  | zero => exact Subsingleton.elim _ _
  | succ w =>
    apply rotateLeft_of_mod_eq_zero
    have hr : r % (w + 1) ≤ w + 1 := (Nat.mod_lt r (Nat.succ_pos w)).le
    rw [← Nat.mod_add_mod, Nat.add_sub_cancel' hr, Nat.mod_self]

@[simp] theorem rotateRight_rotateLeft (x : BitVec w) (r : ℕ) :
    (x.rotateLeft r).rotateRight r = x := by
  rw [rotateRight_eq_rotateLeft, rotateLeft_rotateLeft, rotateLeft_full_turn]

@[simp] theorem rotateLeft_rotateRight (x : BitVec w) (r : ℕ) :
    (x.rotateRight r).rotateLeft r = x := by
  rw [rotateRight_eq_rotateLeft, rotateLeft_rotateLeft, Nat.add_comm, rotateLeft_full_turn]

end Rotations

section Mixers
variable {w : ℕ} {ι : Type*}

/-- Every word takes in two rotations of the word that `σ` points at. -/
def mix (σ : ι → ι) (a b : ℕ) (e : ι → BitVec w) (i : ι) : BitVec w :=
  e i ^^^ (e (σ i)).rotateLeft a ^^^ (e (σ i)).rotateLeft b

/-- Two equal mixers are one of twice the distances. -/
theorem mix_mix (σ : ι → ι) (a b : ℕ) (e : ι → BitVec w) :
    mix σ a b (mix σ a b e) = mix (σ ∘ σ) (a + a) (b + b) e := by
  funext i
  simp only [mix, Function.comp_apply, rotateLeft_xor, rotateLeft_rotateLeft, Nat.add_comm b a]
  generalize (e (σ i)).rotateLeft a = x
  generalize (e (σ i)).rotateLeft b = y
  generalize (e (σ (σ i))).rotateLeft (a + b) = z
  generalize (e (σ (σ i))).rotateLeft (a + a) = u
  generalize (e (σ (σ i))).rotateLeft (b + b) = v
  have hpairs : e i ^^^ x ^^^ y ^^^ (x ^^^ u ^^^ z) ^^^ (y ^^^ z ^^^ v) =
      e i ^^^ u ^^^ v ^^^ (x ^^^ x) ^^^ (y ^^^ y) ^^^ (z ^^^ z) := by ac_rfl
  rw [hpairs]
  simp only [BitVec.xor_self, BitVec.xor_zero]

theorem mix_comm {σ τ : ι → ι} (h : ∀ i, σ (τ i) = τ (σ i)) (a b p q : ℕ) (e : ι → BitVec w) :
    mix σ a b (mix τ p q e) = mix τ p q (mix σ a b e) := by
  funext i
  simp only [mix, rotateLeft_xor, rotateLeft_rotateLeft, h, Nat.add_comm a, Nat.add_comm b]
  ac_rfl

theorem mix_of_full_turn {σ : ι → ι} (hσ : ∀ i, σ i = i) {a b : ℕ} (ha : a % w = 0)
    (hb : b % w = 0) (e : ι → BitVec w) : mix σ a b e = e := by
  funext i
  rw [mix, hσ, rotateLeft_of_mod_eq_zero _ ha, rotateLeft_of_mod_eq_zero _ hb, BitVec.xor_assoc,
    BitVec.xor_self, BitVec.xor_zero]

/-- The mixers of distances `1, 2, 4, ...`, `k` of them. -/
def mixChain (σ : ι → ι) (a b : ℕ) : ℕ → (ι → BitVec w) → ι → BitVec w
  | 0, e => e
  | k + 1, e => mix σ^[2 ^ k] (2 ^ k * a) (2 ^ k * b) (mixChain σ a b k e)

theorem mixChain_mix (σ : ι → ι) (a b k : ℕ) (e : ι → BitVec w) :
    mixChain σ a b k (mix σ a b e) = mix σ^[2 ^ k] (2 ^ k * a) (2 ^ k * b) e := by
  induction k with
  | zero => simp [mixChain]
  | succ k ih =>
    have hk : 2 ^ (k + 1) = 2 ^ k + 2 ^ k := by rw [pow_succ]; omega
    rw [mixChain, ih, mix_mix, hk, Function.iterate_add, Nat.add_mul, Nat.add_mul]

theorem mix_mixChain (σ : ι → ι) (a b k : ℕ) (e : ι → BitVec w) :
    mix σ a b (mixChain σ a b k e) = mixChain σ a b k (mix σ a b e) := by
  induction k with
  | zero => rfl
  | succ k ih =>
    rw [mixChain, mix_comm (fun i => (Function.iterate_succ_apply' σ _ i).symm.trans
      (Function.iterate_succ_apply σ _ i)), ih, mixChain]

end Mixers

section Bytes

/-- Four bytes as a word, least significant byte first. -/
def load32 (p : List (BitVec 8)) : BitVec 32 :=
  (p.getD 0 0).setWidth 32 ||| (p.getD 1 0).setWidth 32 <<< 8 |||
    (p.getD 2 0).setWidth 32 <<< 16 ||| (p.getD 3 0).setWidth 32 <<< 24

def store32 (x : BitVec 32) : List (BitVec 8) :=
  [x.setWidth 8, (x >>> 8).setWidth 8, (x >>> 16).setWidth 8, (x >>> 24).setWidth 8]

@[simp] theorem length_store32 (x : BitVec 32) : (store32 x).length = 4 := rfl

/-- One of the bytes of a word. -/
theorem getLsbD_byteAt {w : ℕ} (b : BitVec 8) (k : ℕ) {i : ℕ} (hi : i < w) :
    (b.setWidth w <<< (8 * k)).getLsbD i = (decide (i / 8 = k) && b.getLsbD (i % 8)) := by
  rw [BitVec.getLsbD_shiftLeft, BitVec.getLsbD_setWidth]
  by_cases hk : i / 8 = k
  · have hlo : ¬ i < 8 * k := by omega
    have hsub : i - 8 * k = i % 8 := by omega
    have hlt : i % 8 < w := by omega
    simp [hk, hi, hlo, hsub, hlt]
  · by_cases hlo : i < 8 * k
    · simp [hk, hlo]
    · simp [hk, BitVec.getLsbD_of_ge b (i - 8 * k) (by omega)]

theorem getLsbD_load32 (p : List (BitVec 8)) {i : ℕ} (hi : i < 32) :
    (load32 p).getLsbD i = bitAt p i := by
  have h0 := getLsbD_byteAt (p.getD 0 0) 0 hi
  have h1 := getLsbD_byteAt (p.getD 1 0) 1 hi
  have h2 := getLsbD_byteAt (p.getD 2 0) 2 hi
  have h3 := getLsbD_byteAt (p.getD 3 0) 3 hi
  simp only [Nat.mul_zero, BitVec.shiftLeft_zero, Nat.mul_one, Nat.reduceMul] at h0 h1 h2 h3
  rw [load32, BitVec.getLsbD_or, BitVec.getLsbD_or, BitVec.getLsbD_or, h0, h1, h2, h3, bitAt]
  have hk : i / 8 < 4 := by omega
  interval_cases i / 8 <;> simp

theorem bitAt_store32 (x : BitVec 32) {i : ℕ} (hi : i < 32) : bitAt (store32 x) i = x.getLsbD i := by
  have hk : i / 8 < 4 := by omega
  have hj := Nat.mod_lt i (show 0 < 8 by norm_num)
  have hsplit := Nat.div_add_mod i 8
  rw [bitAt, store32]
  conv_rhs => rw [← hsplit]
  interval_cases i / 8 <;> simp [hj]

theorem load32_store32 (x : BitVec 32) : load32 (store32 x) = x := by
  apply BitVec.eq_of_getLsbD_eq
  intro i hi
  rw [getLsbD_load32 _ hi, bitAt_store32 x hi]

theorem store32_load32 {p : List (BitVec 8)} (hp : p.length = 4) : store32 (load32 p) = p := by
  have hlen : (store32 (load32 p)).length = p.length := by rw [length_store32, hp]
  apply ext_bitAt hlen
  intro i hi
  rw [length_store32] at hi
  rw [bitAt_store32 _ hi, getLsbD_load32 _ hi]

/-- The first `n` words of a buffer. -/
def loadWords (n : ℕ) (data : List (BitVec 8)) : List (BitVec 32) :=
  (rowsOf data 4 n).map load32

def storeWords (ws : List (BitVec 32)) : List (BitVec 8) := (ws.map store32).flatten

@[simp] theorem length_loadWords (n : ℕ) (data : List (BitVec 8)) : (loadWords n data).length = n := by
  simp [loadWords, rowsOf]

theorem length_storeWords (ws : List (BitVec 32)) : (storeWords ws).length = ws.length * 4 := by
  rw [storeWords, length_flatten_rows (show ∀ r ∈ ws.map store32, r.length = 4 by simp), List.length_map]

theorem storeWords_loadWords {n : ℕ} {data : List (BitVec 8)} (h : data.length = n * 4) :
    storeWords (loadWords n data) = data := by
  have hrows : (rowsOf data 4 n).map (store32 ∘ load32) = rowsOf data 4 n := by
    conv_rhs => rw [← List.map_id (rowsOf data 4 n)]
    apply List.map_congr_left
    intro r hr
    exact store32_load32 (length_of_mem_rowsOf h r hr)
  rw [storeWords, loadWords, List.map_map, hrows, flatten_rowsOf h]

theorem loadWords_storeWords (ws : List (BitVec 32)) : loadWords ws.length (storeWords ws) = ws := by
  have hrows := rowsOf_flatten (show ∀ r ∈ ws.map store32, r.length = 4 by simp)
  rw [List.length_map] at hrows
  rw [loadWords, storeWords, hrows, List.map_map]
  conv_rhs => rw [← List.map_id ws]
  apply List.map_congr_left
  intro x _
  exact load32_store32 x

end Bytes

end PqPsi.Lib.Words
