import PqPsi.Lib.BitLinear

/-!
# Rijndael with blocks and keys of sixteen bytes

The layers of the cipher with their inverses, the expansion of the key, and the
cipher itself. A state is filled column by column. The inverse cipher may run
its layers in the order of the cipher: the substitution acts on single bytes,
and the mixing is linear, so it moves past the addition of a round key.
-/
namespace PqPsi.Lib.Rijndael
open BitLinear

scoped instance neZero_four : NeZero 4 := ⟨by decide⟩

scoped instance neZero_sixteen : NeZero 16 := ⟨by decide⟩

section Field

/-- The product with `x`, modulo `x^8 + x^4 + x^3 + x + 1`. -/
def xtime (b : BitVec 8) : BitVec 8 := b <<< 1 ^^^ if b.getLsbD 7 then 0x1B#8 else 0#8

/-- The product of two bytes in the field. -/
def gmul (c b : BitVec 8) : BitVec 8 := combine (fun i => xtime^[i] b) c

theorem xtime_linear : Linear xtime := by
  intro x y
  have hshift : (x ^^^ y) <<< 1 = x <<< 1 ^^^ y <<< 1 := BitVec.shiftLeft_xor_distrib x y 1
  rw [xtime, xtime, xtime, BitVec.getLsbD_xor, hshift]
  cases x.getLsbD 7 <;> cases y.getLsbD 7 <;> simp <;> grind

theorem xtime_iterate_linear (n : ℕ) : Linear xtime^[n] := by
  induction n with
  | zero => exact fun _ _ => rfl
  | succ n ih =>
    intro x y
    rw [Function.iterate_succ_apply, Function.iterate_succ_apply, Function.iterate_succ_apply,
      xtime_linear, ih]

/-- The product is linear in its second factor. -/
theorem gmul_xor (c x y : BitVec 8) : gmul c (x ^^^ y) = gmul c x ^^^ gmul c y := by
  apply BitVec.eq_of_getLsbD_eq
  intro j _
  rw [gmul, gmul, gmul, BitVec.getLsbD_xor, getLsbD_combine, getLsbD_combine, getLsbD_combine,
    ← parity_xor]
  refine parity_congr fun i _ => ?_
  rw [xtime_iterate_linear, BitVec.getLsbD_xor, Bool.and_xor_distrib_left]

end Field

section Substitution

def sboxTable : List (List (BitVec 8)) :=
  [[0x63, 0x7C, 0x77, 0x7B, 0xF2, 0x6B, 0x6F, 0xC5, 0x30, 0x01, 0x67, 0x2B, 0xFE, 0xD7, 0xAB, 0x76],
   [0xCA, 0x82, 0xC9, 0x7D, 0xFA, 0x59, 0x47, 0xF0, 0xAD, 0xD4, 0xA2, 0xAF, 0x9C, 0xA4, 0x72, 0xC0],
   [0xB7, 0xFD, 0x93, 0x26, 0x36, 0x3F, 0xF7, 0xCC, 0x34, 0xA5, 0xE5, 0xF1, 0x71, 0xD8, 0x31, 0x15],
   [0x04, 0xC7, 0x23, 0xC3, 0x18, 0x96, 0x05, 0x9A, 0x07, 0x12, 0x80, 0xE2, 0xEB, 0x27, 0xB2, 0x75],
   [0x09, 0x83, 0x2C, 0x1A, 0x1B, 0x6E, 0x5A, 0xA0, 0x52, 0x3B, 0xD6, 0xB3, 0x29, 0xE3, 0x2F, 0x84],
   [0x53, 0xD1, 0x00, 0xED, 0x20, 0xFC, 0xB1, 0x5B, 0x6A, 0xCB, 0xBE, 0x39, 0x4A, 0x4C, 0x58, 0xCF],
   [0xD0, 0xEF, 0xAA, 0xFB, 0x43, 0x4D, 0x33, 0x85, 0x45, 0xF9, 0x02, 0x7F, 0x50, 0x3C, 0x9F, 0xA8],
   [0x51, 0xA3, 0x40, 0x8F, 0x92, 0x9D, 0x38, 0xF5, 0xBC, 0xB6, 0xDA, 0x21, 0x10, 0xFF, 0xF3, 0xD2],
   [0xCD, 0x0C, 0x13, 0xEC, 0x5F, 0x97, 0x44, 0x17, 0xC4, 0xA7, 0x7E, 0x3D, 0x64, 0x5D, 0x19, 0x73],
   [0x60, 0x81, 0x4F, 0xDC, 0x22, 0x2A, 0x90, 0x88, 0x46, 0xEE, 0xB8, 0x14, 0xDE, 0x5E, 0x0B, 0xDB],
   [0xE0, 0x32, 0x3A, 0x0A, 0x49, 0x06, 0x24, 0x5C, 0xC2, 0xD3, 0xAC, 0x62, 0x91, 0x95, 0xE4, 0x79],
   [0xE7, 0xC8, 0x37, 0x6D, 0x8D, 0xD5, 0x4E, 0xA9, 0x6C, 0x56, 0xF4, 0xEA, 0x65, 0x7A, 0xAE, 0x08],
   [0xBA, 0x78, 0x25, 0x2E, 0x1C, 0xA6, 0xB4, 0xC6, 0xE8, 0xDD, 0x74, 0x1F, 0x4B, 0xBD, 0x8B, 0x8A],
   [0x70, 0x3E, 0xB5, 0x66, 0x48, 0x03, 0xF6, 0x0E, 0x61, 0x35, 0x57, 0xB9, 0x86, 0xC1, 0x1D, 0x9E],
   [0xE1, 0xF8, 0x98, 0x11, 0x69, 0xD9, 0x8E, 0x94, 0x9B, 0x1E, 0x87, 0xE9, 0xCE, 0x55, 0x28, 0xDF],
   [0x8C, 0xA1, 0x89, 0x0D, 0xBF, 0xE6, 0x42, 0x68, 0x41, 0x99, 0x2D, 0x0F, 0xB0, 0x54, 0xBB, 0x16]]

def invSboxTable : List (List (BitVec 8)) :=
  [[0x52, 0x09, 0x6A, 0xD5, 0x30, 0x36, 0xA5, 0x38, 0xBF, 0x40, 0xA3, 0x9E, 0x81, 0xF3, 0xD7, 0xFB],
   [0x7C, 0xE3, 0x39, 0x82, 0x9B, 0x2F, 0xFF, 0x87, 0x34, 0x8E, 0x43, 0x44, 0xC4, 0xDE, 0xE9, 0xCB],
   [0x54, 0x7B, 0x94, 0x32, 0xA6, 0xC2, 0x23, 0x3D, 0xEE, 0x4C, 0x95, 0x0B, 0x42, 0xFA, 0xC3, 0x4E],
   [0x08, 0x2E, 0xA1, 0x66, 0x28, 0xD9, 0x24, 0xB2, 0x76, 0x5B, 0xA2, 0x49, 0x6D, 0x8B, 0xD1, 0x25],
   [0x72, 0xF8, 0xF6, 0x64, 0x86, 0x68, 0x98, 0x16, 0xD4, 0xA4, 0x5C, 0xCC, 0x5D, 0x65, 0xB6, 0x92],
   [0x6C, 0x70, 0x48, 0x50, 0xFD, 0xED, 0xB9, 0xDA, 0x5E, 0x15, 0x46, 0x57, 0xA7, 0x8D, 0x9D, 0x84],
   [0x90, 0xD8, 0xAB, 0x00, 0x8C, 0xBC, 0xD3, 0x0A, 0xF7, 0xE4, 0x58, 0x05, 0xB8, 0xB3, 0x45, 0x06],
   [0xD0, 0x2C, 0x1E, 0x8F, 0xCA, 0x3F, 0x0F, 0x02, 0xC1, 0xAF, 0xBD, 0x03, 0x01, 0x13, 0x8A, 0x6B],
   [0x3A, 0x91, 0x11, 0x41, 0x4F, 0x67, 0xDC, 0xEA, 0x97, 0xF2, 0xCF, 0xCE, 0xF0, 0xB4, 0xE6, 0x73],
   [0x96, 0xAC, 0x74, 0x22, 0xE7, 0xAD, 0x35, 0x85, 0xE2, 0xF9, 0x37, 0xE8, 0x1C, 0x75, 0xDF, 0x6E],
   [0x47, 0xF1, 0x1A, 0x71, 0x1D, 0x29, 0xC5, 0x89, 0x6F, 0xB7, 0x62, 0x0E, 0xAA, 0x18, 0xBE, 0x1B],
   [0xFC, 0x56, 0x3E, 0x4B, 0xC6, 0xD2, 0x79, 0x20, 0x9A, 0xDB, 0xC0, 0xFE, 0x78, 0xCD, 0x5A, 0xF4],
   [0x1F, 0xDD, 0xA8, 0x33, 0x88, 0x07, 0xC7, 0x31, 0xB1, 0x12, 0x10, 0x59, 0x27, 0x80, 0xEC, 0x5F],
   [0x60, 0x51, 0x7F, 0xA9, 0x19, 0xB5, 0x4A, 0x0D, 0x2D, 0xE5, 0x7A, 0x9F, 0x93, 0xC9, 0x9C, 0xEF],
   [0xA0, 0xE0, 0x3B, 0x4D, 0xAE, 0x2A, 0xF5, 0xB0, 0xC8, 0xEB, 0xBB, 0x3C, 0x83, 0x53, 0x99, 0x61],
   [0x17, 0x2B, 0x04, 0x7E, 0xBA, 0x77, 0xD6, 0x26, 0xE1, 0x69, 0x14, 0x63, 0x55, 0x21, 0x0C, 0x7D]]

/-- The entry in the row of the high half and the column of the low half of a byte. -/
def lookup (table : List (List (BitVec 8))) (b : BitVec 8) : BitVec 8 :=
  (table.getD (b.toNat / 16) []).getD (b.toNat % 16) 0

def sbox : BitVec 8 → BitVec 8 := lookup sboxTable

def invSbox : BitVec 8 → BitVec 8 := lookup invSboxTable

@[simp] theorem invSbox_sbox : ∀ b, invSbox (sbox b) = b := by decide +kernel

@[simp] theorem sbox_invSbox : ∀ b, sbox (invSbox b) = b := by decide +kernel

end Substitution

section Layers

/-- A state: byte `i` sits in row `i % 4` of column `i / 4`. -/
abbrev State := Fin 16 → BitVec 8

def row (i : Fin 16) : ℕ := i.val % 4

def col (i : Fin 16) : ℕ := i.val / 4

/-- The place in a row and a column, both counted around. -/
def place (r c : ℕ) : Fin 16 := Fin.ofNat 16 (r % 4 + 4 * (c % 4))

def subBytes (s : State) : State := fun i => sbox (s i)

def invSubBytes (s : State) : State := fun i => invSbox (s i)

/-- Row `r` rotates by `r` places to the left. -/
def shiftRows (s : State) : State := fun i => s (place (row i) (col i + row i))

def invShiftRows (s : State) : State := fun i => s (place (row i) (col i + (4 - row i)))

/-- The place `k` rows below in the same column. -/
def below (k : ℕ) (i : Fin 16) : Fin 16 := place (row i + k) (col i)

/-- Every column times a circulant matrix with the first row `c`. -/
def circulant (c : Fin 4 → BitVec 8) (s : State) : State := fun i =>
  gmul (c 0) (s (below 0 i)) ^^^ gmul (c 1) (s (below 1 i)) ^^^ gmul (c 2) (s (below 2 i)) ^^^
    gmul (c 3) (s (below 3 i))

def mixColumns : State → State := circulant ![0x02, 0x03, 0x01, 0x01]

def invMixColumns : State → State := circulant ![0x0E, 0x0B, 0x0D, 0x09]

def addRoundKey (s k : State) : State := fun i => s i ^^^ k i

variable (s : State)

@[simp] theorem invSubBytes_subBytes : invSubBytes (subBytes s) = s :=
  funext fun i => invSbox_sbox (s i)

@[simp] theorem subBytes_invSubBytes : subBytes (invSubBytes s) = s :=
  funext fun i => sbox_invSbox (s i)

@[simp] theorem invShiftRows_shiftRows : invShiftRows (shiftRows s) = s := by
  have hplace : ∀ i, place (row (place (row i) (col i + (4 - row i))))
      (col (place (row i) (col i + (4 - row i))) + row (place (row i) (col i + (4 - row i)))) = i := by
    decide
  funext i
  rw [invShiftRows, shiftRows, hplace]

@[simp] theorem shiftRows_invShiftRows : shiftRows (invShiftRows s) = s := by
  have hplace : ∀ i, place (row (place (row i) (col i + row i)))
      (col (place (row i) (col i + row i)) + (4 - row (place (row i) (col i + row i)))) = i := by
    decide
  funext i
  rw [shiftRows, invShiftRows, hplace]

/-- The substitution does not see the places of the bytes. -/
theorem subBytes_shiftRows : subBytes (shiftRows s) = shiftRows (subBytes s) := rfl

theorem below_below : ∀ k < 4, ∀ l < 4, ∀ i, below k (below l i) = below ((l + k) % 4) i := by decide

theorem below_zero : ∀ i, below 0 i = i := by decide

theorem gmul_linear (c : BitVec 8) : Linear (gmul c) := gmul_xor c

/-- Coefficient `t` of the product of two circulant matrices, applied to a byte. -/
def coeff (c d : Fin 4 → BitVec 8) (t : Fin 4) (x : BitVec 8) : BitVec 8 :=
  gmul (c 0) (gmul (d t) x) ^^^ gmul (c 1) (gmul (d (t - 1)) x) ^^^ gmul (c 2) (gmul (d (t - 2)) x) ^^^
    gmul (c 3) (gmul (d (t - 3)) x)

theorem coeff_linear (c d : Fin 4 → BitVec 8) (t : Fin 4) : Linear (coeff c d t) := by
  intro x y
  simp only [coeff, gmul_xor]
  ac_rfl

/-- The product of two circulant matrices is the unit matrix if it is so on the unit bytes. -/
theorem circulant_circulant {c d : Fin 4 → BitVec 8}
    (h : ∀ t, ∀ i < 8, coeff c d t (unit i) = if t = 0 then unit i else 0) :
    circulant c (circulant d s) = s := by
  have hone : ∀ x, coeff c d 0 x = x := (coeff_linear c d 0).ext_units (fun _ _ => rfl) fun i hi => by
    rw [h 0 i hi, if_pos rfl]
  have hzero : ∀ t, t ≠ 0 → ∀ x, coeff c d t x = 0 := fun t ht =>
    (coeff_linear c d t).ext_units (fun _ _ => (BitVec.xor_self).symm) fun i hi => by
      rw [h t i hi, if_neg ht]
  funext i
  have hexpand : circulant c (circulant d s) i = coeff c d 0 (s (below 0 i)) ^^^
      coeff c d 1 (s (below 1 i)) ^^^ coeff c d 2 (s (below 2 i)) ^^^ coeff c d 3 (s (below 3 i)) := by
    simp (disch := decide) only [circulant, gmul_xor, below_below, coeff, Nat.reduceAdd,
      Nat.reduceMod, Fin.reduceSub]
    ac_rfl
  rw [hexpand, hone, hzero 1 (by decide), hzero 2 (by decide), hzero 3 (by decide), below_zero]
  simp

@[simp] theorem invMixColumns_mixColumns : invMixColumns (mixColumns s) = s :=
  circulant_circulant s (by decide +kernel)

@[simp] theorem mixColumns_invMixColumns : mixColumns (invMixColumns s) = s :=
  circulant_circulant s (by decide +kernel)

theorem circulant_addRoundKey (c : Fin 4 → BitVec 8) (k : State) :
    circulant c (addRoundKey s k) = addRoundKey (circulant c s) (circulant c k) := by
  funext i
  simp only [circulant, addRoundKey, gmul_xor]
  ac_rfl

end Layers

section Cipher

def rcon (j : ℕ) : BitVec 8 := xtime^[j - 1] 0x01

/-- Word `i` of the expanded key. -/
def keyWord (key : State) (i : ℕ) : Fin 4 → BitVec 8 :=
  if i < 4 then fun r => key (place r i)
  else
    let temp := keyWord key (i - 1)
    let temp : Fin 4 → BitVec 8 := if i % 4 = 0 then
        fun r => sbox (temp (r + 1)) ^^^ if r = 0 then rcon (i / 4) else 0
      else temp
    fun r => keyWord key (i - 4) r ^^^ temp r

theorem keyWord_of_lt (key : State) {i : ℕ} (hi : i < 4) (r : Fin 4) : keyWord key i r = key (place r i) := by
  rw [keyWord, if_pos hi]

theorem keyWord_of_mod_eq_zero (key : State) (j : ℕ) (r : Fin 4) :
    keyWord key (4 * (j + 1)) r = keyWord key (4 * j) r ^^^
      (sbox (keyWord key (4 * j + 3) (r + 1)) ^^^ if r = 0 then rcon (j + 1) else 0) := by
  have hprev : 4 * (j + 1) - 1 = 4 * j + 3 := by omega
  have hback : 4 * (j + 1) - 4 = 4 * j := by omega
  have hdiv : 4 * (j + 1) / 4 = j + 1 := by omega
  rw [keyWord, if_neg (by omega), if_pos (by omega), hprev, hback, hdiv]

theorem keyWord_of_mod_ne_zero (key : State) (j : ℕ) {c : ℕ} (hc : c < 3) (r : Fin 4) :
    keyWord key (4 * (j + 1) + (c + 1)) r =
      keyWord key (4 * j + (c + 1)) r ^^^ keyWord key (4 * (j + 1) + c) r := by
  have hprev : 4 * (j + 1) + (c + 1) - 1 = 4 * (j + 1) + c := by omega
  have hback : 4 * (j + 1) + (c + 1) - 4 = 4 * j + (c + 1) := by omega
  rw [keyWord, if_neg (by omega), if_neg (by omega), hprev, hback]

/-- The four words of round `j`. -/
def roundKey (key : State) (j : ℕ) : State := fun i =>
  keyWord key (4 * j + col i) (Fin.ofNat 4 (row i))

/-- The cipher with ten rounds. -/
def cipher (key input : State) : State :=
  let state := addRoundKey input (roundKey key 0)
  let state := (List.range' 1 9).foldl
    (fun state j => addRoundKey (mixColumns (shiftRows (subBytes state))) (roundKey key j)) state
  addRoundKey (shiftRows (subBytes state)) (roundKey key 10)

end Cipher

section EquivalentInverse
variable {G : Type*} (add : G → G → G) (S L : G → G)

/-- A cipher that adds a key after each linear layer, but has none in its last round. -/
def run (first : G) (middle : List G) (last : G) (x : G) : G :=
  add (S (middle.foldl (fun s k => add (L (S s)) k) (add x first))) last

variable {add S L} {S' L' : G → G}

/-- The middle rounds of the inverse start from the last substitution and end at the first. -/
theorem foldl_rounds_cancel (hadd : ∀ x k, add (add x k) k = x)
    (hL : ∀ x y, L' (add x y) = add (L' x) (L' y)) (hS : ∀ x, S' (S x) = x) (hLL : ∀ x, L' (L x) = x)
    (middle : List G) (s : G) :
    (middle.reverse.map L').foldl (fun s k => add (L' (S' s)) k)
      (S (middle.foldl (fun s k => add (L (S s)) k) s)) = S s := by
  induction middle generalizing s with
  | nil => rfl
  | cons k middle ih =>
    rw [List.reverse_cons, List.map_append, List.foldl_append, List.foldl_cons, ih]
    simp only [List.map_cons, List.map_nil, List.foldl_cons, List.foldl_nil, hS, hL, hLL, hadd]

/-- The inverse is the cipher with the inverse layers and the keys in the other order, those of
the middle rounds moved past the linear layer. -/
theorem run_run (hadd : ∀ x k, add (add x k) k = x)
    (hL : ∀ x y, L' (add x y) = add (L' x) (L' y)) (hS : ∀ x, S' (S x) = x) (hLL : ∀ x, L' (L x) = x)
    (first : G) (middle : List G) (last x : G) :
    run add S' L' last (middle.reverse.map L') first (run add S L first middle last x) = x := by
  rw [run, run, hadd, foldl_rounds_cancel hadd hL hS hLL, hS, hadd]

end EquivalentInverse

end PqPsi.Lib.Rijndael
