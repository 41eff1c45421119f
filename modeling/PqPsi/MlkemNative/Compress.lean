import Mathlib.Data.List.GetD
import PqPsi.Kemeleon.Preimages
import PqPsi.MlkemNative.PolyVec

/-!
# Compression and byte formats

Coefficients are rounded to `d` bits with a multiplication and a shift, and the
values of a few coefficients fill a group of bytes. Reading a group back gives
the values that were written.
-/
namespace PqPsi.MlkemNative

/-- The common shape of `mlk_scalar_compress_d*`: multiply, round, shift. -/
def scalarCompress {w : ℕ} (magic half : BitVec w) (shift : ℕ) (u : I16) : BitVec w :=
  (u.signExtend w * magic + half) >>> shift

def scalarCompressD1 (u : I16) : Byte :=
  (scalarCompress 1290168#32 0x40000000#32 31 u).setWidth 8

def scalarCompressD4 (u : I16) : Byte :=
  (scalarCompress 1290160#32 0x8000000#32 28 u).setWidth 8

def scalarCompressD5 (u : I16) : Byte :=
  (scalarCompress 1290176#32 0x4000000#32 27 u).setWidth 8

def scalarCompressD10 (u : I16) : U16 :=
  (scalarCompress 2642263040#64 0x100000000#64 33 u &&& 0x3FF#64).setWidth 16

def scalarCompressD11 (u : I16) : U16 :=
  (scalarCompress 5284526080#64 0x100000000#64 33 u &&& 0x7FF#64).setWidth 16

/-- The common shape of `mlk_scalar_decompress_d*`. -/
def scalarDecompress (half : I32) (d : ℕ) (u : I32) : I16 :=
  ((u * 3329#32 + half) >>> d).setWidth 16

def scalarDecompressD4 (u : Byte) : I16 := scalarDecompress 8#32 4 (u.setWidth 32)

def scalarDecompressD5 (u : Byte) : I16 := scalarDecompress 16#32 5 (u.setWidth 32)

def scalarDecompressD10 (u : U16) : I16 := scalarDecompress 512#32 10 (u.setWidth 32)

def scalarDecompressD11 (u : U16) : I16 := scalarDecompress 1024#32 11 (u.setWidth 32)

/-- The loops that fill a buffer by groups of bytes. -/
def writeGroups (m : ℕ) (group : ℕ → List Byte) : List Byte := (List.range m).flatMap group

/-- The byte `a[i]`, promoted to `int`. -/
def byte32 (a : List Byte) (i : ℕ) : I32 := (a.getD i 0).setWidth 32

def byteOf32 (x : I32) : Byte := x.setWidth 8

def groupD4 (t : ℕ → I32) : List Byte :=
  [byteOf32 (t 0 ||| t 1 <<< 4), byteOf32 (t 2 ||| t 3 <<< 4), byteOf32 (t 4 ||| t 5 <<< 4),
    byteOf32 (t 6 ||| t 7 <<< 4)]

def polyCompressD4 (a : Poly) : List Byte :=
  writeGroups 32 fun i => groupD4 fun j => (scalarCompressD4 (a.coeff (8 * i + j))).setWidth 32

def groupD5 (t : ℕ → I32) : List Byte :=
  [byteOf32 (0xFF#32 &&& (t 0 >>> 0 ||| t 1 <<< 5)),
    byteOf32 (0xFF#32 &&& (t 1 >>> 3 ||| t 2 <<< 2 ||| t 3 <<< 7)),
    byteOf32 (0xFF#32 &&& (t 3 >>> 1 ||| t 4 <<< 4)),
    byteOf32 (0xFF#32 &&& (t 4 >>> 4 ||| t 5 <<< 1 ||| t 6 <<< 6)),
    byteOf32 (0xFF#32 &&& (t 6 >>> 2 ||| t 7 <<< 3))]

def polyCompressD5 (a : Poly) : List Byte :=
  writeGroups 32 fun i => groupD5 fun j => (scalarCompressD5 (a.coeff (8 * i + j))).setWidth 32

def groupD10 (t : ℕ → I32) : List Byte :=
  [byteOf32 (t 0 >>> 0 &&& 0xFF#32), byteOf32 (t 0 >>> 8 ||| (t 1 <<< 2 &&& 0xFF#32)),
    byteOf32 (t 1 >>> 6 ||| (t 2 <<< 4 &&& 0xFF#32)),
    byteOf32 (t 2 >>> 4 ||| (t 3 <<< 6 &&& 0xFF#32)), byteOf32 (t 3 >>> 2)]

def polyCompressD10 (a : Poly) : List Byte :=
  writeGroups 64 fun j => groupD10 fun k => (scalarCompressD10 (a.coeff (4 * j + k))).setWidth 32

def groupD11 (t : ℕ → I32) : List Byte :=
  [byteOf32 (t 0 >>> 0 &&& 0xFF#32), byteOf32 (t 0 >>> 8 ||| (t 1 <<< 3 &&& 0xFF#32)),
    byteOf32 (t 1 >>> 5 ||| (t 2 <<< 6 &&& 0xFF#32)), byteOf32 (t 2 >>> 2 &&& 0xFF#32),
    byteOf32 (t 2 >>> 10 ||| (t 3 <<< 1 &&& 0xFF#32)),
    byteOf32 (t 3 >>> 7 ||| (t 4 <<< 4 &&& 0xFF#32)),
    byteOf32 (t 4 >>> 4 ||| (t 5 <<< 7 &&& 0xFF#32)), byteOf32 (t 5 >>> 1 &&& 0xFF#32),
    byteOf32 (t 5 >>> 9 ||| (t 6 <<< 2 &&& 0xFF#32)),
    byteOf32 (t 6 >>> 6 ||| (t 7 <<< 5 &&& 0xFF#32)), byteOf32 (t 7 >>> 3)]

def polyCompressD11 (a : Poly) : List Byte :=
  writeGroups 32 fun j => groupD11 fun k => (scalarCompressD11 (a.coeff (8 * j + k))).setWidth 32

/-- The loops that fill the coefficients from buffers of values. -/
def Coeffs.fill {n : ℕ} (f : ℕ → I16) : Coeffs n := (Coeffs.zero n).each fun i _ => f i

/-- The value `k` of a group of `mlk_poly_decompress_d4`. -/
def ungroupD4 (b : ℕ → I32) (k : ℕ) : I32 :=
  if k % 2 = 0 then b (k / 2) >>> 0 &&& 0xF#32 else b (k / 2) >>> 4 &&& 0xF#32

def polyDecompressD4 (a : List Byte) : Poly :=
  Coeffs.fill fun i => scalarDecompressD4 (byteOf32 (ungroupD4 (byte32 a) i))

def ungroupD5 (b : ℕ → I32) : ℕ → I32
  | 0 => 0x1F#32 &&& b 0 >>> 0
  | 1 => 0x1F#32 &&& (b 0 >>> 5 ||| b 1 <<< 3)
  | 2 => 0x1F#32 &&& b 1 >>> 2
  | 3 => 0x1F#32 &&& (b 1 >>> 7 ||| b 2 <<< 1)
  | 4 => 0x1F#32 &&& (b 2 >>> 4 ||| b 3 <<< 4)
  | 5 => 0x1F#32 &&& b 3 >>> 1
  | 6 => 0x1F#32 &&& (b 3 >>> 6 ||| b 4 <<< 2)
  | _ => 0x1F#32 &&& b 4 >>> 3

def polyDecompressD5 (a : List Byte) : Poly :=
  Coeffs.fill fun i => scalarDecompressD5
    (byteOf32 (ungroupD5 (fun k => byte32 a (5 * (i / 8) + k)) (i % 8)))

def ungroupD10 (b : ℕ → I32) : ℕ → I32
  | 0 => 0x3FF#32 &&& (b 0 >>> 0 ||| b 1 <<< 8)
  | 1 => 0x3FF#32 &&& (b 1 >>> 2 ||| b 2 <<< 6)
  | 2 => 0x3FF#32 &&& (b 2 >>> 4 ||| b 3 <<< 4)
  | _ => 0x3FF#32 &&& (b 3 >>> 6 ||| b 4 <<< 2)

def polyDecompressD10 (a : List Byte) : Poly :=
  Coeffs.fill fun i => scalarDecompressD10
    ((ungroupD10 (fun k => byte32 a (5 * (i / 4) + k)) (i % 4)).setWidth 16)

def ungroupD11 (b : ℕ → I32) : ℕ → I32
  | 0 => 0x7FF#32 &&& (b 0 >>> 0 ||| b 1 <<< 8)
  | 1 => 0x7FF#32 &&& (b 1 >>> 3 ||| b 2 <<< 5)
  | 2 => 0x7FF#32 &&& (b 2 >>> 6 ||| b 3 <<< 2 ||| b 4 <<< 10)
  | 3 => 0x7FF#32 &&& (b 4 >>> 1 ||| b 5 <<< 7)
  | 4 => 0x7FF#32 &&& (b 5 >>> 4 ||| b 6 <<< 4)
  | 5 => 0x7FF#32 &&& (b 6 >>> 7 ||| b 7 <<< 1 ||| b 8 <<< 9)
  | 6 => 0x7FF#32 &&& (b 8 >>> 2 ||| b 9 <<< 6)
  | _ => 0x7FF#32 &&& (b 9 >>> 5 ||| b 10 <<< 3)

def polyDecompressD11 (a : List Byte) : Poly :=
  Coeffs.fill fun i => scalarDecompressD11
    ((ungroupD11 (fun k => byte32 a (11 * (i / 8) + k)) (i % 8)).setWidth 16)

def groupBytes (t : ℕ → I32) : List Byte :=
  [byteOf32 (t 0 &&& 0xFF#32), byteOf32 (t 0 >>> 8 ||| (t 1 <<< 4 &&& 0xF0#32)),
    byteOf32 (t 1 >>> 4)]

def polyTobytes (a : Poly) : List Byte :=
  writeGroups 128 fun i => groupBytes fun j => (a.coeff (2 * i + j)).setWidth 32

def ungroupBytes (b : ℕ → I32) : ℕ → I32
  | 0 => b 0 ||| (b 1 <<< 8 &&& 0xFFF#32)
  | _ => b 1 >>> 4 ||| b 2 <<< 4

def polyFrombytes (a : List Byte) : Poly :=
  Coeffs.fill fun i => (ungroupBytes (fun k => byte32 a (3 * (i / 2) + k)) (i % 2)).setWidth 16

def polyFrommsg (msg : List Byte) : Poly :=
  Coeffs.fill fun i =>
    ctSelInt16 1665#16 0#16 ((msg.getD (i / 8) 0 &&& 1#8 <<< (i % 8)).setWidth 16)

def polyTomsg (a : Poly) : List Byte :=
  (List.range 32).map fun i => (List.range 8).foldl (fun b j =>
    b ||| byteOf32 ((scalarCompressD1 (a.coeff (8 * i + j))).setWidth 32 <<< j)) 0

theorem coeff_fill {n : ℕ} (f : ℕ → I16) {i : ℕ} (hi : i < n) :
    (Coeffs.fill f : Coeffs n).coeff i = f i := Coeffs.coeff_each _ _ hi

section Scalars

/-- Rounding to `d` bits. -/
def compress (d x : ℕ) : ℕ := (x * 2 ^ d + 1664) / 3329 % 2 ^ d

theorem forall_lt_q {P : ℕ → Prop} (h : ∀ a < 64, ∀ b < 53, 53 * a + b < 3329 → P (53 * a + b)) :
    ∀ x < 3329, P x := by
  intro x hx
  have hP := h (x / 53) (by omega) (x % 53) (by omega)
  rw [Nat.div_add_mod] at hP
  exact hP hx

variable {u : I16}

theorem toNat_of_toInt_nonneg {w : ℕ} {x : BitVec w} (hx : 0 ≤ x.toInt) :
    x.toNat = x.toInt.toNat := by
  have hlt := x.isLt
  rw [BitVec.toInt_eq_toNat_cond] at hx ⊢
  split_ifs at hx ⊢
  · rfl
  · omega

theorem toNat_scalarCompress {w : ℕ} (hw : 16 ≤ w) (magic half : BitVec w) (shift : ℕ)
    (hu : 0 ≤ u.toInt) : (scalarCompress magic half shift u).toNat =
      (u.toInt.toNat * magic.toNat + half.toNat) % 2 ^ w / 2 ^ shift := by
  have hsign : (u.signExtend w).toNat = u.toInt.toNat := by
    rw [toNat_of_toInt_nonneg (by rwa [BitVec.toInt_signExtend_of_le hw]),
      BitVec.toInt_signExtend_of_le hw]
  rw [scalarCompress, BitVec.toNat_ushiftRight, BitVec.toNat_add, BitVec.toNat_mul, hsign,
    Nat.mod_add_mod, Nat.shiftRight_eq_div_pow]

/-- The reciprocals round as a division does. -/
theorem scalarCompress_table : ∀ x < 3329,
    (x * 1290168 + 0x40000000) % 2 ^ 32 / 2 ^ 31 % 2 ^ 8 = compress 1 x ∧
    (x * 1290160 + 0x8000000) % 2 ^ 32 / 2 ^ 28 % 2 ^ 8 = compress 4 x ∧
    (x * 1290176 + 0x4000000) % 2 ^ 32 / 2 ^ 27 % 2 ^ 8 = compress 5 x ∧
    (x * 2642263040 + 0x100000000) % 2 ^ 64 / 2 ^ 33 % 2 ^ 10 % 2 ^ 16 = compress 10 x ∧
    (x * 5284526080 + 0x100000000) % 2 ^ 64 / 2 ^ 33 % 2 ^ 11 % 2 ^ 16 = compress 11 x := by
  refine forall_lt_q ?_
  decide +kernel

theorem toNat_scalarCompressD1 (hu : 0 ≤ u.toInt) (hu' : u.toInt < 3329) :
    (scalarCompressD1 u).toNat = compress 1 u.toInt.toNat := by
  rw [scalarCompressD1, BitVec.toNat_setWidth, toNat_scalarCompress (by decide) _ _ _ hu]
  exact (scalarCompress_table _ (by omega)).1

theorem toNat_scalarCompressD4 (hu : 0 ≤ u.toInt) (hu' : u.toInt < 3329) :
    (scalarCompressD4 u).toNat = compress 4 u.toInt.toNat := by
  rw [scalarCompressD4, BitVec.toNat_setWidth, toNat_scalarCompress (by decide) _ _ _ hu]
  exact (scalarCompress_table _ (by omega)).2.1

theorem toNat_scalarCompressD5 (hu : 0 ≤ u.toInt) (hu' : u.toInt < 3329) :
    (scalarCompressD5 u).toNat = compress 5 u.toInt.toNat := by
  rw [scalarCompressD5, BitVec.toNat_setWidth, toNat_scalarCompress (by decide) _ _ _ hu]
  exact (scalarCompress_table _ (by omega)).2.2.1

theorem toNat_scalarCompressD10 (hu : 0 ≤ u.toInt) (hu' : u.toInt < 3329) :
    (scalarCompressD10 u).toNat = compress 10 u.toInt.toNat := by
  rw [scalarCompressD10, BitVec.toNat_setWidth, BitVec.toNat_and,
    toNat_scalarCompress (by decide) _ _ _ hu, show (0x3FF#64).toNat = 2 ^ 10 - 1 from rfl,
    Nat.and_two_pow_sub_one_eq_mod]
  exact (scalarCompress_table _ (by omega)).2.2.2.1

theorem toNat_scalarCompressD11 (hu : 0 ≤ u.toInt) (hu' : u.toInt < 3329) :
    (scalarCompressD11 u).toNat = compress 11 u.toInt.toNat := by
  rw [scalarCompressD11, BitVec.toNat_setWidth, BitVec.toNat_and,
    toNat_scalarCompress (by decide) _ _ _ hu, show (0x7FF#64).toNat = 2 ^ 11 - 1 from rfl,
    Nat.and_two_pow_sub_one_eq_mod]
  exact (scalarCompress_table _ (by omega)).2.2.2.2

theorem mask_eq_zero_iff (b : Byte) {j : ℕ} (hj : j < 8) :
    (b &&& 1#8 <<< j).setWidth 16 = (0 : U16) ↔ b.getLsbD j = false := by
  have hne : (BitVec.twoPow 8 j).setWidth 16 ≠ (0 : U16) := by
    interval_cases j <;> decide
  rw [show 1#8 <<< j = BitVec.twoPow 8 j from rfl, BitVec.and_twoPow]
  cases b.getLsbD j with
  | false => simp
  | true => simpa using hne

theorem compress_lt (d x : ℕ) : compress d x < 2 ^ d := Nat.mod_lt _ (Nat.two_pow_pos d)

/-- The codec above the library rounds in 32-bit words and keeps 16 bits of the quotient. -/
theorem compressValue_eq {d x : ℕ} (hd : d ≤ 16) (hx : x < 3329) :
    Kemeleon.compressValue x d = compress d x := by
  have hscale : 2 ^ d ≤ 2 ^ 16 := Nat.pow_le_pow_right (by decide) hd
  have hlt : x * 2 ^ d < 2 ^ 32 := by
    calc x * 2 ^ d ≤ 3328 * 2 ^ 16 := Nat.mul_le_mul (by omega) hscale
      _ < 2 ^ 32 := by decide
  rw [Kemeleon.compressValue, compress]
  simp only [Nat.mod_eq_of_lt hlt]
  exact Nat.mod_mod_of_dvd _ (Nat.pow_dvd_pow 2 hd)

theorem decompressValue_lt {d x : ℕ} (hd : 0 < d) (hd' : d ≤ 11) (hx : x < 2 ^ d) :
    Kemeleon.decompressValue x d < 3329 := by
  have hpow : 2 ^ d = 2 * 2 ^ (d - 1) := by
    rw [← Nat.pow_succ']
    congr 1
    omega
  have hscale : 2 ^ d ≤ 2 ^ 11 := Nat.pow_le_pow_right (by decide) hd'
  refine (Nat.mod_le _ _).trans_lt ?_
  rw [Nat.shiftRight_eq_div_pow]
  refine Nat.div_lt_of_lt_mul ((Nat.mod_le _ _).trans_lt ?_)
  rw [show Kemeleon.q = 3329 from rfl]
  omega

/-- On codes of `d` bits the library and the codec restore the same coefficient. -/
theorem toInt_scalarDecompress {half u : I32} {d : ℕ} (hd : 0 < d) (hd' : d ≤ 11)
    (hhalf : half.toNat = 2 ^ (d - 1)) (hu : u.toNat < 2 ^ d) :
    (scalarDecompress half d u).toInt = Kemeleon.decompressValue u.toNat d := by
  have hnat : (scalarDecompress half d u).toNat = Kemeleon.decompressValue u.toNat d := by
    rw [scalarDecompress, BitVec.toNat_setWidth, BitVec.toNat_ushiftRight, BitVec.toNat_add,
      BitVec.toNat_mul, Nat.mod_add_mod, hhalf]
    rfl
  have hsmall := decompressValue_lt hd hd' hu
  rw [BitVec.toInt_eq_toNat_of_lt (by omega), hnat]

theorem toInt_scalarDecompress_code {w d : ℕ} {half : I32} {code : BitVec w} (hd : 0 < d)
    (hd' : d ≤ 11) (hw : w ≤ 32) (hhalf : half.toNat = 2 ^ (d - 1)) (hcode : code.toNat < 2 ^ d) :
    (scalarDecompress half d (code.setWidth 32)).toInt =
      Kemeleon.decompressValue code.toNat d := by
  have hnat : (code.setWidth 32).toNat = code.toNat := by
    rw [BitVec.toNat_setWidth, Nat.mod_eq_of_lt]
    exact code.isLt.trans_le (Nat.pow_le_pow_right (by decide) hw)
  rw [toInt_scalarDecompress hd hd' hhalf (by rwa [hnat]), hnat]

end Scalars

section Groups

theorem length_writeGroups {m g : ℕ} {f : ℕ → List Byte} (hf : ∀ j, (f j).length = g) :
    (writeGroups m f).length = g * m := by
  rw [writeGroups, List.length_flatMap, List.map_congr_left fun j _ => hf j, List.map_const',
    List.sum_replicate, List.length_range, smul_eq_mul, Nat.mul_comm]

theorem getD_writeGroups {m g : ℕ} {f : ℕ → List Byte} (hf : ∀ j, (f j).length = g) {j k : ℕ}
    (hj : j < m) (hk : k < g) : (writeGroups m f).getD (g * j + k) 0 = (f j).getD k 0 := by
  induction m with
  | zero => exact absurd hj (Nat.not_lt_zero j)
  | succ m ih =>
    have hlen : ∀ n, ((List.range n).flatMap f).length = g * n := fun _ => length_writeGroups hf
    rw [writeGroups, List.range_succ, List.flatMap_append, List.flatMap_singleton]
    rcases Nat.lt_succ_iff_lt_or_eq.mp hj with hlt | rfl
    · have hle : g * (j + 1) ≤ g * m := Nat.mul_le_mul_left g hlt
      rw [Nat.mul_succ] at hle
      rw [List.getD_append _ _ _ _ (by rw [hlen]; omega)]
      exact ih hlt
    · rw [List.getD_append_right _ _ _ _ (by rw [hlen]; omega), hlen, Nat.add_sub_cancel_left]

theorem setWidth_code {w d : ℕ} (x : BitVec w) (h : x.toNat < 2 ^ d) :
    (x.setWidth d).setWidth 32 = x.setWidth 32 := by
  apply BitVec.eq_of_toNat_eq
  rw [BitVec.toNat_setWidth, BitVec.toNat_setWidth, BitVec.toNat_setWidth, Nat.mod_eq_of_lt h]

/-- A masked value of `d` bits, bit by bit. -/
theorem eq_setWidth_of_bits {d : ℕ} {m x : I32} {c : BitVec d}
    (hm : ∀ i < 32, d ≤ i → m.getLsbD i = false)
    (hx : ∀ i < d, (m &&& x).getLsbD i = c.getLsbD i) : m &&& x = c.setWidth 32 := by
  apply BitVec.eq_of_getLsbD_eq
  intro i hi
  rw [BitVec.getLsbD_setWidth, decide_eq_true hi, Bool.true_and]
  rcases Nat.lt_or_ge i d with hlt | hge
  · exact hx i hlt
  · rw [BitVec.getLsbD_and, hm i hi hge, Bool.false_and, BitVec.getLsbD_of_ge c i hge]

variable {b : ℕ → I32} {k : ℕ}

theorem ungroup_groupD4 (c : ℕ → BitVec 4)
    (hb : ∀ k < 4, b k = byte32 (groupD4 fun k => (c k).setWidth 32) k) (hk : k < 8) :
    ungroupD4 b k = (c k).setWidth 32 := by
  interval_cases k <;>
    (simp [ungroupD4, hb, byte32, groupD4, byteOf32]
     apply BitVec.eq_of_getLsbD_eq
     intro i hi
     interval_cases i <;> simp)

theorem ungroup_groupD5 (c : ℕ → BitVec 5)
    (hb : ∀ k < 5, b k = byte32 (groupD5 fun k => (c k).setWidth 32) k) (hk : k < 8) :
    ungroupD5 b k = (c k).setWidth 32 := by
  interval_cases k <;>
    (refine eq_setWidth_of_bits (m := 0x1F#32) (by decide) fun i hi => ?_
     simp only [hb, Nat.reduceLT, byte32, groupD5, byteOf32, List.getD_cons_zero,
       List.getD_cons_succ]
     interval_cases i <;> simp)

theorem ungroup_groupD10 (c : ℕ → BitVec 10)
    (hb : ∀ k < 5, b k = byte32 (groupD10 fun k => (c k).setWidth 32) k) (hk : k < 4) :
    ungroupD10 b k = (c k).setWidth 32 := by
  interval_cases k <;>
    (refine eq_setWidth_of_bits (m := 0x3FF#32) (by decide) fun i hi => ?_
     simp only [hb, Nat.reduceLT, byte32, groupD10, byteOf32, List.getD_cons_zero,
       List.getD_cons_succ]
     interval_cases i <;> simp)

theorem ungroup_groupD11 (c : ℕ → BitVec 11)
    (hb : ∀ k < 11, b k = byte32 (groupD11 fun k => (c k).setWidth 32) k) (hk : k < 8) :
    ungroupD11 b k = (c k).setWidth 32 := by
  interval_cases k <;>
    (refine eq_setWidth_of_bits (m := 0x7FF#32) (by decide) fun i hi => ?_
     simp only [hb, Nat.reduceLT, byte32, groupD11, byteOf32, List.getD_cons_zero,
       List.getD_cons_succ]
     interval_cases i <;> simp)

theorem ungroup_groupBytes (c : ℕ → BitVec 12)
    (hb : ∀ k < 3, b k = byte32 (groupBytes fun k => (c k).setWidth 32) k) (hk : k < 2) :
    ungroupBytes b k = (c k).setWidth 32 := by
  interval_cases k <;>
    (simp [ungroupBytes, hb, byte32, groupBytes, byteOf32]
     apply BitVec.eq_of_getLsbD_eq
     intro i hi
     interval_cases i <;> simp)

end Groups

section Formats
variable {a : Poly}

/-- Reading back any of the grouped formats, from a buffer that starts with it. -/
theorem ungroup_writeGroups {w d g n m : ℕ} (group : (ℕ → I32) → List Byte)
    (ungroup : (ℕ → I32) → ℕ → I32) (code : ℕ → BitVec w) {bytes : List Byte}
    (hlen : ∀ t, (group t).length = g)
    (hround : ∀ (c : ℕ → BitVec d) (b : ℕ → I32),
      (∀ k < g, b k = byte32 (group fun k => (c k).setWidth 32) k) →
        ∀ k < n, ungroup b k = (c k).setWidth 32)
    (hcode : ∀ i, (code i).toNat < 2 ^ d) (hw : w ≤ 32)
    (hbytes : ∀ p < g * m, byte32 bytes p = byte32 (writeGroups m fun j => group fun k =>
      (code (n * j + k)).setWidth 32) p) {i : ℕ} (hi : i < n * m) :
    (ungroup (fun k => byte32 bytes (g * (i / n) + k)) (i % n)).setWidth w = code i := by
  have hpos : 0 < n := Nat.pos_of_ne_zero fun h => by simp [h] at hi
  have hj : i / n < m := Nat.div_lt_of_lt_mul hi
  have hread := hround (fun k => (code (n * (i / n) + k)).setWidth d)
    (fun k => byte32 bytes (g * (i / n) + k)) (fun k hk => by
      have hle : g * (i / n + 1) ≤ g * m := Nat.mul_le_mul_left g hj
      rw [Nat.mul_succ] at hle
      rw [hbytes _ (by omega)]
      simp only [setWidth_code _ (hcode _)]
      rw [byte32, getD_writeGroups (fun j => hlen _) hj hk]
      rfl) (i % n) (Nat.mod_lt i hpos)
  rw [hread, setWidth_code _ (hcode _), Nat.div_add_mod, BitVec.setWidth_setWidth_of_le _ hw,
    BitVec.setWidth_eq]

theorem coeff_of_le {n : ℕ} (r : Coeffs n) {i : ℕ} (hi : n ≤ i) : r.coeff i = 0 := by
  simp [Coeffs.coeff, Vector.getD, Array.getD, Nat.not_lt.mpr hi]

/-- Canonical coefficients, the zeros behind the end included. -/
theorem canonical_coeff (ha : a.Bound 0 3329) (i : ℕ) :
    0 ≤ (a.coeff i).toInt ∧ (a.coeff i).toInt < 3329 := by
  rcases Nat.lt_or_ge i 256 with hlt | hge
  · exact ha i hlt
  · rw [coeff_of_le a hge]
    decide

theorem coeff_polyDecompressD4 (ha : a.Bound 0 3329) {bytes : List Byte}
    (hbytes : ∀ p < 128, byte32 bytes p = byte32 (polyCompressD4 a) p) {i : ℕ} (hi : i < 256) :
    (polyDecompressD4 bytes).coeff i =
      scalarDecompressD4 (scalarCompressD4 (a.coeff i)) := by
  have hread := ungroup_writeGroups (d := 4) (g := 4) (n := 8) (m := 32) groupD4 ungroupD4
    (fun i => scalarCompressD4 (a.coeff i)) (fun _ => rfl)
    (fun c _ hb _ hk => ungroup_groupD4 c hb hk) (fun i => by
      rw [toNat_scalarCompressD4 (canonical_coeff ha i).1 (canonical_coeff ha i).2]
      exact compress_lt 4 _) (by decide) hbytes hi
  rw [polyDecompressD4, coeff_fill _ hi]
  congr 1
  refine Eq.trans ?_ hread
  rw [byteOf32]
  congr 1
  simp only [ungroupD4]
  rw [show i % 8 % 2 = i % 2 by omega, show 4 * (i / 8) + i % 8 / 2 = i / 2 by omega]

theorem coeff_polyDecompressD5 (ha : a.Bound 0 3329) {bytes : List Byte}
    (hbytes : ∀ p < 160, byte32 bytes p = byte32 (polyCompressD5 a) p) {i : ℕ} (hi : i < 256) :
    (polyDecompressD5 bytes).coeff i =
      scalarDecompressD5 (scalarCompressD5 (a.coeff i)) := by
  rw [polyDecompressD5, coeff_fill _ hi]
  congr 1
  exact ungroup_writeGroups (d := 5) (g := 5) (n := 8) (m := 32) groupD5 ungroupD5
    (fun i => scalarCompressD5 (a.coeff i)) (fun _ => rfl)
    (fun c _ hb _ hk => ungroup_groupD5 c hb hk) (fun i => by
      rw [toNat_scalarCompressD5 (canonical_coeff ha i).1 (canonical_coeff ha i).2]
      exact compress_lt 5 _) (by decide) hbytes hi

theorem coeff_polyDecompressD10 (ha : a.Bound 0 3329) {bytes : List Byte}
    (hbytes : ∀ p < 320, byte32 bytes p = byte32 (polyCompressD10 a) p) {i : ℕ} (hi : i < 256) :
    (polyDecompressD10 bytes).coeff i =
      scalarDecompressD10 (scalarCompressD10 (a.coeff i)) := by
  rw [polyDecompressD10, coeff_fill _ hi]
  congr 1
  exact ungroup_writeGroups (d := 10) (g := 5) (n := 4) (m := 64) groupD10 ungroupD10
    (fun i => scalarCompressD10 (a.coeff i)) (fun _ => rfl)
    (fun c _ hb _ hk => ungroup_groupD10 c hb hk) (fun i => by
      rw [toNat_scalarCompressD10 (canonical_coeff ha i).1 (canonical_coeff ha i).2]
      exact compress_lt 10 _) (by decide) hbytes hi

theorem coeff_polyDecompressD11 (ha : a.Bound 0 3329) {bytes : List Byte}
    (hbytes : ∀ p < 352, byte32 bytes p = byte32 (polyCompressD11 a) p) {i : ℕ} (hi : i < 256) :
    (polyDecompressD11 bytes).coeff i =
      scalarDecompressD11 (scalarCompressD11 (a.coeff i)) := by
  rw [polyDecompressD11, coeff_fill _ hi]
  congr 1
  exact ungroup_writeGroups (d := 11) (g := 11) (n := 8) (m := 32) groupD11 ungroupD11
    (fun i => scalarCompressD11 (a.coeff i)) (fun _ => rfl)
    (fun c _ hb _ hk => ungroup_groupD11 c hb hk) (fun i => by
      rw [toNat_scalarCompressD11 (canonical_coeff ha i).1 (canonical_coeff ha i).2]
      exact compress_lt 11 _) (by decide) hbytes hi

theorem polyFrombytes_of_bytes (ha : a.Bound 0 3329) {bytes : List Byte}
    (hbytes : ∀ p < 384, byte32 bytes p = byte32 (polyTobytes a) p) : polyFrombytes bytes = a := by
  refine Coeffs.ext_coeff fun i hi => ?_
  rw [polyFrombytes, coeff_fill _ hi]
  exact ungroup_writeGroups (d := 12) (g := 3) (n := 2) (m := 128) groupBytes ungroupBytes
    (fun i => a.coeff i) (fun _ => rfl)
    (fun c _ hb _ hk => ungroup_groupBytes c hb hk) (fun i => by
      have hlt := (canonical_coeff ha i).2
      rw [toNat_of_toInt_nonneg (canonical_coeff ha i).1]
      omega) (by decide) hbytes hi

theorem toInt_polyDecompressD4 (ha : a.Bound 0 3329) {i : ℕ} (hi : i < 256) :
    ((polyDecompressD4 (polyCompressD4 a)).coeff i).toInt =
      Kemeleon.decompressValue (Kemeleon.compressValue (a.coeff i).toInt.toNat 4) 4 := by
  obtain ⟨hlo, hhi⟩ := canonical_coeff ha i
  rw [coeff_polyDecompressD4 ha (fun _ _ => rfl) hi, compressValue_eq (by decide) (by omega),
    ← toNat_scalarCompressD4 hlo hhi]
  exact toInt_scalarDecompress_code (by decide) (by decide) (by decide) rfl
    ((toNat_scalarCompressD4 hlo hhi).trans_lt (compress_lt 4 _))

theorem toInt_polyDecompressD5 (ha : a.Bound 0 3329) {i : ℕ} (hi : i < 256) :
    ((polyDecompressD5 (polyCompressD5 a)).coeff i).toInt =
      Kemeleon.decompressValue (Kemeleon.compressValue (a.coeff i).toInt.toNat 5) 5 := by
  obtain ⟨hlo, hhi⟩ := canonical_coeff ha i
  rw [coeff_polyDecompressD5 ha (fun _ _ => rfl) hi, compressValue_eq (by decide) (by omega),
    ← toNat_scalarCompressD5 hlo hhi]
  exact toInt_scalarDecompress_code (by decide) (by decide) (by decide) rfl
    ((toNat_scalarCompressD5 hlo hhi).trans_lt (compress_lt 5 _))

theorem toInt_polyDecompressD10 (ha : a.Bound 0 3329) {i : ℕ} (hi : i < 256) :
    ((polyDecompressD10 (polyCompressD10 a)).coeff i).toInt =
      Kemeleon.decompressValue (Kemeleon.compressValue (a.coeff i).toInt.toNat 10) 10 := by
  obtain ⟨hlo, hhi⟩ := canonical_coeff ha i
  rw [coeff_polyDecompressD10 ha (fun _ _ => rfl) hi, compressValue_eq (by decide) (by omega),
    ← toNat_scalarCompressD10 hlo hhi]
  exact toInt_scalarDecompress_code (by decide) (by decide) (by decide) rfl
    ((toNat_scalarCompressD10 hlo hhi).trans_lt (compress_lt 10 _))

theorem toInt_polyDecompressD11 (ha : a.Bound 0 3329) {i : ℕ} (hi : i < 256) :
    ((polyDecompressD11 (polyCompressD11 a)).coeff i).toInt =
      Kemeleon.decompressValue (Kemeleon.compressValue (a.coeff i).toInt.toNat 11) 11 := by
  obtain ⟨hlo, hhi⟩ := canonical_coeff ha i
  rw [coeff_polyDecompressD11 ha (fun _ _ => rfl) hi, compressValue_eq (by decide) (by omega),
    ← toNat_scalarCompressD11 hlo hhi]
  exact toInt_scalarDecompress_code (by decide) (by decide) (by decide) rfl
    ((toNat_scalarCompressD11 hlo hhi).trans_lt (compress_lt 11 _))

/-- Every format of the library gives back canonical coefficients, rounded as the codec rounds
them. -/
theorem formats_round_trip (ha : a.Bound 0 3329) :
    polyFrombytes (polyTobytes a) = a ∧ ∀ i < 256,
      ((polyDecompressD4 (polyCompressD4 a)).coeff i).toInt =
        Kemeleon.decompressValue (Kemeleon.compressValue (a.coeff i).toInt.toNat 4) 4 ∧
      ((polyDecompressD5 (polyCompressD5 a)).coeff i).toInt =
        Kemeleon.decompressValue (Kemeleon.compressValue (a.coeff i).toInt.toNat 5) 5 ∧
      ((polyDecompressD10 (polyCompressD10 a)).coeff i).toInt =
        Kemeleon.decompressValue (Kemeleon.compressValue (a.coeff i).toInt.toNat 10) 10 ∧
      ((polyDecompressD11 (polyCompressD11 a)).coeff i).toInt =
        Kemeleon.decompressValue (Kemeleon.compressValue (a.coeff i).toInt.toNat 11) 11 :=
  ⟨polyFrombytes_of_bytes ha fun _ _ => rfl, fun _ hi => ⟨toInt_polyDecompressD4 ha hi,
    toInt_polyDecompressD5 ha hi, toInt_polyDecompressD10 ha hi, toInt_polyDecompressD11 ha hi⟩⟩

theorem countingPoly_bound : countingPoly.Bound 0 3329 := by
  intro i hi
  rw [countingPoly, Coeffs.coeff_each _ _ hi, BitVec.toInt_ofNat', bmod16 (by omega) (by omega)]
  omega

theorem formats_round_trip_counting :
    polyFrombytes (polyTobytes countingPoly) = countingPoly ∧ ∀ i < 256,
      ((polyDecompressD4 (polyCompressD4 countingPoly)).coeff i).toInt =
        Kemeleon.decompressValue (Kemeleon.compressValue (countingPoly.coeff i).toInt.toNat 4) 4 ∧
      ((polyDecompressD5 (polyCompressD5 countingPoly)).coeff i).toInt =
        Kemeleon.decompressValue (Kemeleon.compressValue (countingPoly.coeff i).toInt.toNat 5) 5 ∧
      ((polyDecompressD10 (polyCompressD10 countingPoly)).coeff i).toInt =
        Kemeleon.decompressValue (Kemeleon.compressValue (countingPoly.coeff i).toInt.toNat 10) 10 ∧
      ((polyDecompressD11 (polyCompressD11 countingPoly)).coeff i).toInt =
        Kemeleon.decompressValue (Kemeleon.compressValue (countingPoly.coeff i).toInt.toNat 11) 11 :=
  formats_round_trip countingPoly_bound

end Formats

section Messages

/-- Bit `i` of a message. -/
def msgBit (msg : List Byte) (i : ℕ) : Bool := (msg.getD (i / 8) 0).getLsbD (i % 8)

theorem coeff_polyFrommsg (msg : List Byte) {i : ℕ} (hi : i < 256) :
    (polyFrommsg msg).coeff i = if msgBit msg i then 1665#16 else 0#16 := by
  rw [polyFrommsg, coeff_fill _ hi, ctSelInt16_eq, msgBit]
  have hiff := mask_eq_zero_iff (msg.getD (i / 8) 0) (show i % 8 < 8 by omega)
  cases hbit : (msg.getD (i / 8) 0).getLsbD (i % 8) with
  | false => rw [if_pos (hiff.mpr hbit), if_neg (by simp)]
  | true => rw [if_neg fun h => absurd ((hiff.mp h).symm.trans hbit) Bool.false_ne_true, if_pos rfl]

theorem getLsbD_packByte (c : ℕ → BitVec 1) {k : ℕ} (hk : k < 8) :
    ((List.range 8).foldl (fun b j => b ||| byteOf32 ((c j).setWidth 32 <<< j)) (0 : Byte)).getLsbD
      k = (c k).getLsbD 0 := by
  simp only [show List.range 8 = [0, 1, 2, 3, 4, 5, 6, 7] from rfl, List.foldl_cons, List.foldl_nil,
    byteOf32]
  interval_cases k <;> simp

@[simp] theorem length_polyTomsg (a : Poly) : (polyTomsg a).length = 32 := by simp [polyTomsg]

/-- Byte strings of one length are equal when their bits are. -/
theorem eq_of_msgBit {n : ℕ} {xs ys : List Byte} (hx : xs.length = n) (hy : ys.length = n)
    (h : ∀ i < 8 * n, msgBit xs i = msgBit ys i) : xs = ys := by
  apply List.ext_getElem (hx.trans hy.symm)
  intro m hm hm'
  apply BitVec.eq_of_getLsbD_eq
  intro j hj
  have hbit := h (8 * m + j) (by omega)
  rw [msgBit, msgBit, show (8 * m + j) / 8 = m by omega, show (8 * m + j) % 8 = j by omega,
    List.getD_eq_getElem _ _ hm, List.getD_eq_getElem _ _ hm'] at hbit
  exact hbit

theorem msgBit_polyTomsg {a : Poly} (ha : a.Bound 0 3329) {i : ℕ} (hi : i < 256) :
    msgBit (polyTomsg a) i = decide (compress 1 (a.coeff i).toInt.toNat = 1) := by
  have hcode (i : ℕ) := toNat_scalarCompressD1 (canonical_coeff ha i).1 (canonical_coeff ha i).2
  have hsmall (i : ℕ) : (scalarCompressD1 (a.coeff i)).toNat < 2 ^ 1 := by
    rw [hcode i]
    exact compress_lt 1 _
  have hbyte := getLsbD_packByte
    (fun j => (scalarCompressD1 (a.coeff (8 * (i / 8) + j))).setWidth 1) (show i % 8 < 8 by omega)
  simp only [setWidth_code _ (hsmall _)] at hbyte
  have hget : (polyTomsg a).getD (i / 8) 0 = (List.range 8).foldl (fun b j =>
      b ||| byteOf32 ((scalarCompressD1 (a.coeff (8 * (i / 8) + j))).setWidth 32 <<< j)) 0 := by
    rw [polyTomsg, List.getD_eq_getElem _ _ (by simp; omega), List.getElem_map, List.getElem_range]
  rw [msgBit, hget, hbyte, Nat.div_add_mod, BitVec.getLsbD_setWidth, BitVec.getLsbD,
    Nat.testBit_zero, ← hcode i]
  have hlt := hsmall i
  rw [decide_eq_true (show 0 < 1 by decide), Bool.true_and]
  refine decide_eq_decide.mpr ?_
  omega

/-- The coefficients that a message is read from. -/
theorem polyTomsg_eq_iff {a : Poly} (ha : a.Bound 0 3329) {msg : List Byte}
    (hmsg : msg.length = 32) :
    polyTomsg a = msg ↔
      ∀ i < 256, compress 1 (a.coeff i).toInt.toNat = (msgBit msg i).toNat := by
  have hvalue (i : ℕ) := compress_lt 1 (a.coeff i).toInt.toNat
  constructor
  · rintro rfl i hi
    have hlt := hvalue i
    rw [msgBit_polyTomsg ha hi]
    by_cases hone : compress 1 (a.coeff i).toInt.toNat = 1
    · rw [hone]
      rfl
    · rw [decide_eq_false hone, Bool.toNat_false]
      omega
  · intro h
    refine eq_of_msgBit (length_polyTomsg a) hmsg fun i hi => ?_
    rw [msgBit_polyTomsg ha hi, h i hi]
    cases msgBit msg i <;> rfl

/-- Where the rounding to one bit turns. -/
theorem compress_one (x : ℕ) (hx : x < 3329) :
    compress 1 x = if 833 ≤ x ∧ x ≤ 2496 then 1 else 0 := by
  rw [compress]
  split_ifs <;> omega

/-- A bit survives noise up to a quarter of `q`, a one-bit one less upwards. -/
theorem compress_noise {b : Bool} {v η : ℤ} (hv : v = (if b then 1665 else 0) + η)
    (hη : -1664 ≤ η) (hη' : η ≤ 1664) :
    compress 1 (v % 3329).toNat = b.toNat ↔ -832 ≤ η ∧ η + b.toNat ≤ 832 := by
  rw [compress_one _ (by omega)]
  cases b with
  | false =>
    rw [if_neg Bool.false_ne_true] at hv
    simp only [Bool.toNat_false, Nat.cast_zero]
    split_ifs with h
    · simp only [false_iff]
      omega
    · simp only [true_iff]
      omega
  | true =>
    rw [if_pos rfl] at hv
    simp only [Bool.toNat_true, Nat.cast_one]
    split_ifs with h
    · simp only [true_iff]
      omega
    · simp only [false_iff]
      omega

/-- A message read back from coefficients with noise `η`. -/
theorem polyTomsg_noise {v : Poly} {η : ℕ → ℤ} {msg : List Byte} (hmsg : msg.length = 32)
    (hη : ∀ i < 256, -1664 ≤ η i ∧ η i ≤ 1664)
    (hv : ∀ i < 256, v.zq i = (((if msgBit msg i then 1665 else 0) + η i : ℤ) : Zq)) :
    polyTomsg (polyReduce v) = msg ↔
      ∀ i < 256, -832 ≤ η i ∧ η i + (msgBit msg i).toNat ≤ 832 := by
  rw [polyTomsg_eq_iff (polyReduce_bound v) hmsg]
  refine forall₂_congr fun i hi => ?_
  rw [canonical_of_zq hi (hv i hi)]
  exact compress_noise rfl (hη i hi).1 (hη i hi).2

end Messages

end PqPsi.MlkemNative
