import PqPsi.MlkemNative.Compress

/-!
# Public-key encryption

Keys and ciphertexts are packed polynomials. Decryption reads the ciphertext
back with the rounding of its format and finds the message when the noise that
is left stays below a quarter of `q`.
-/
namespace PqPsi.MlkemNative
open Polynomial Lib Ntt

def polycompressedbytesDu (k : ℕ) : ℕ := if k = 4 then 352 else 320

def polyCompressDu (k : ℕ) (a : Poly) : List Byte :=
  if k = 4 then polyCompressD11 a else polyCompressD10 a

def polyDecompressDu (k : ℕ) (a : List Byte) : Poly :=
  if k = 4 then polyDecompressD11 a else polyDecompressD10 a

def polyCompressDv (k : ℕ) (a : Poly) : List Byte :=
  if k = 4 then polyCompressD5 a else polyCompressD4 a

def polyDecompressDv (k : ℕ) (a : List Byte) : Poly :=
  if k = 4 then polyDecompressD5 a else polyDecompressD4 a

def polyvecCompressDu {k : ℕ} (a : PolyVec k) : List Byte :=
  (List.finRange k).flatMap fun i => polyCompressDu k (a i)

def polyvecDecompressDu (k : ℕ) (a : List Byte) : PolyVec k :=
  fun i => polyDecompressDu k (a.drop (i * polycompressedbytesDu k))

def polyvecTobytes {k : ℕ} (a : PolyVec k) : List Byte :=
  (List.finRange k).flatMap fun i => polyTobytes (a i)

def polyvecFrombytes (k : ℕ) (a : List Byte) : PolyVec k :=
  fun i => polyFrombytes (a.drop (i * 384))

def packSk {k : ℕ} (sk : PolyVec k) : List Byte := polyvecTobytes sk

def unpackSk (k : ℕ) (packedsk : List Byte) : PolyVec k := polyvecFrombytes k packedsk

def packCiphertext {k : ℕ} (b : PolyVec k) (v : Poly) : List Byte :=
  polyvecCompressDu b ++ polyCompressDv k v

def unpackCiphertext (k : ℕ) (c : List Byte) : PolyVec k × Poly :=
  (polyvecDecompressDu k c, polyDecompressDv k (c.drop (k * polycompressedbytesDu k)))

/-- The buffers are on the stack, so no allocation fails. -/
def indcpaDec (k : ℕ) (c sk : List Byte) : List Byte :=
  let (b, v) := unpackCiphertext k c
  let skpv := unpackSk k sk
  let b := polyvecNtt b
  let bCache := polyvecMulcacheCompute b
  let sb := polyInvnttTomont (polyvecBasemulAccMontgomeryCached skpv b bCache)
  polyTomsg (polyReduce (polySub v sb))

/-- The hash and the samplers, with the sizes and bounds that their contracts state. -/
structure Samplers where
  hashG : List Byte → List Byte
  rejUniform : List Byte → Poly
  getnoiseEta1 : List Byte → Byte → Poly
  getnoiseEta2 : List Byte → Byte → Poly
  length_hashG : ∀ input, (hashG input).length = 64
  rejUniform_bound : ∀ seed, (rejUniform seed).Bound 0 3329
  eta1_bound : ∀ seed nonce, (getnoiseEta1 seed nonce).AbsBound 4
  eta2_bound : ∀ seed nonce, (getnoiseEta2 seed nonce).AbsBound 3

/-- `mlk_polymat`. -/
abbrev PolyMat (k : ℕ) := Fin k → PolyVec k

def packPk {k : ℕ} (pk : PolyVec k) (seed : List Byte) : List Byte := polyvecTobytes pk ++ seed

def unpackPk (k : ℕ) (packedpk : List Byte) : PolyVec k × List Byte :=
  (polyvecFrombytes k packedpk, (packedpk.drop (k * 384)).take 32)

def matvecMul {k : ℕ} (a : PolyMat k) (v : PolyVec k) (vc : PolyVecMulcache k) : PolyVec k :=
  fun i => polyvecBasemulAccMontgomeryCached (a i) v vc

section Encryption
variable (smp : Samplers) (k : ℕ)

def genMatrix (seed : List Byte) (transposed : Bool) : PolyMat k := fun x y =>
  smp.rejUniform (seed ++ if transposed then [BitVec.ofNat 8 x, BitVec.ofNat 8 y]
    else [BitVec.ofNat 8 y, BitVec.ofNat 8 x])

def keypairGetnoiseEta1 (seed : List Byte) : PolyVec k × PolyVec k :=
  (fun i => smp.getnoiseEta1 seed (BitVec.ofNat 8 i),
    fun i => smp.getnoiseEta1 seed (BitVec.ofNat 8 (k + i)))

/-- The seeds `publicseed` and `noiseseed` of a key. -/
def keypairSeeds (coins : List Byte) : List Byte × List Byte :=
  let buf := smp.hashG (coins ++ [BitVec.ofNat 8 k])
  (buf.take 32, buf.drop 32)

def indcpaKeypairDerand (coins : List Byte) : List Byte × List Byte :=
  let (publicseed, noiseseed) := keypairSeeds smp k coins
  let a := genMatrix smp k publicseed false
  let (skpv, e) := keypairGetnoiseEta1 smp k noiseseed
  let skpv := polyvecNtt skpv
  let e := polyvecNtt e
  let skpvCache := polyvecMulcacheCompute skpv
  let pkpv := matvecMul a skpv skpvCache
  let pkpv := polyvecTomont pkpv
  let pkpv := polyvecAdd pkpv e
  let pkpv := polyvecReduce pkpv
  let skpv := polyvecReduce skpv
  (packPk pkpv publicseed, packSk skpv)

/-- The noise `sp`, `ep`, `epp` of an encryption; its nonces count on from `0`. -/
def encGetnoise (coins : List Byte) : PolyVec k × PolyVec k × Poly :=
  (fun i => smp.getnoiseEta1 coins (BitVec.ofNat 8 i),
    fun i => smp.getnoiseEta2 coins (BitVec.ofNat 8 (k + i)),
    smp.getnoiseEta2 coins (BitVec.ofNat 8 (2 * k)))

/-- `mlk_indcpa_enc` up to `mlk_pack_ciphertext`. -/
def indcpaEncVectors (m pk coins : List Byte) : PolyVec k × Poly :=
  let (pkpv, seed) := unpackPk k pk
  let kp := polyFrommsg m
  let at' := genMatrix smp k seed true
  let (sp, ep, epp) := encGetnoise smp k coins
  let sp := polyvecNtt sp
  let spCache := polyvecMulcacheCompute sp
  let b := matvecMul at' sp spCache
  let v := polyvecBasemulAccMontgomeryCached pkpv sp spCache
  let b := polyvecInvnttTomont b
  let v := polyInvnttTomont v
  let b := polyvecAdd b ep
  let v := polyAdd v epp
  let v := polyAdd v kp
  (polyvecReduce b, polyReduce v)

def indcpaEnc (m pk coins : List Byte) : List Byte :=
  let (b, v) := indcpaEncVectors smp k m pk coins
  packCiphertext b v

end Encryption

section Packing
variable {k : ℕ}

theorem length_polyTobytes (a : Poly) : (polyTobytes a).length = 384 := by
  rw [polyTobytes, length_writeGroups (g := 3) fun _ => rfl]

theorem length_polyCompressDu (a : Poly) :
    (polyCompressDu k a).length = polycompressedbytesDu k := by
  rw [polyCompressDu, polycompressedbytesDu]
  split_ifs
  · rw [polyCompressD11, length_writeGroups (g := 11) fun _ => rfl]
  · rw [polyCompressD10, length_writeGroups (g := 5) fun _ => rfl]

/-- The blocks of a vector are the groups of its buffer. -/
theorem flatMap_finRange {g : ℕ} (f : Fin k → List Byte) (hf : ∀ i, (f i).length = g) :
    ∃ h : ℕ → List Byte, (∀ j, (h j).length = g) ∧ (∀ i : Fin k, h i = f i) ∧
      (List.finRange k).flatMap f = writeGroups k h := by
  refine ⟨fun j => if hj : j < k then f ⟨j, hj⟩ else List.replicate g 0, fun j => ?_,
    fun i => ?_, ?_⟩
  · dsimp only
    split_ifs with hj
    · exact hf _
    · exact List.length_replicate
  · exact dif_pos i.isLt
  · rw [writeGroups, ← List.map_coe_finRange_eq_range, List.flatMap_map]
    refine List.flatMap_congr fun i _ => ?_
    rw [dif_pos i.isLt]

theorem length_flatMap_finRange {g : ℕ} (f : Fin k → List Byte) (hf : ∀ i, (f i).length = g) :
    ((List.finRange k).flatMap f).length = k * g := by
  obtain ⟨h, hlen, -, heq⟩ := flatMap_finRange f hf
  rw [heq, length_writeGroups hlen, Nat.mul_comm]

theorem byte32_flatMap_finRange {g : ℕ} (f : Fin k → List Byte) (hf : ∀ i, (f i).length = g)
    (tail : List Byte) (i : Fin k) {p : ℕ} (hp : p < g) :
    byte32 (((List.finRange k).flatMap f ++ tail).drop (i * g)) p = byte32 (f i) p := by
  have hlt : i * g + p < ((List.finRange k).flatMap f).length := by
    rw [length_flatMap_finRange f hf]
    have hle := Nat.mul_le_mul_right g i.isLt
    rw [Nat.succ_mul] at hle
    omega
  obtain ⟨h, hlen, hfi, heq⟩ := flatMap_finRange f hf
  have hdrop : (((List.finRange k).flatMap f ++ tail).drop (i * g)).getD p 0 =
      ((List.finRange k).flatMap f).getD (i * g + p) 0 := by
    rw [List.getD_eq_getElem?_getD, List.getElem?_drop, List.getElem?_append_left hlt,
      ← List.getD_eq_getElem?_getD]
  rw [byte32, byte32, hdrop, heq, Nat.mul_comm, getD_writeGroups hlen i.isLt hp, hfi]

theorem polyvecFrombytes_polyvecTobytes {a : PolyVec k} (ha : ∀ l, (a l).Bound 0 3329)
    (tail : List Byte) : polyvecFrombytes k (polyvecTobytes a ++ tail) = a := by
  funext l
  exact polyFrombytes_of_bytes (ha l) fun p hp =>
    byte32_flatMap_finRange _ (fun i => length_polyTobytes (a i)) tail l hp

theorem polyDecompressDu_of_bytes {a : Poly} (ha : a.Bound 0 3329) {bytes : List Byte}
    (hbytes : ∀ p < polycompressedbytesDu k, byte32 bytes p = byte32 (polyCompressDu k a) p) :
    polyDecompressDu k bytes = polyDecompressDu k (polyCompressDu k a) := by
  unfold polyDecompressDu polyCompressDu
  unfold polycompressedbytesDu polyCompressDu at hbytes
  refine Coeffs.ext_coeff fun i hi => ?_
  split_ifs with hk
  · rw [if_pos hk] at hbytes
    simp only [if_pos hk] at hbytes
    rw [coeff_polyDecompressD11 ha hbytes hi, coeff_polyDecompressD11 ha (fun _ _ => rfl) hi]
  · rw [if_neg hk] at hbytes
    simp only [if_neg hk] at hbytes
    rw [coeff_polyDecompressD10 ha hbytes hi, coeff_polyDecompressD10 ha (fun _ _ => rfl) hi]

theorem unpackCiphertext_packCiphertext {b : PolyVec k} (hb : ∀ l, (b l).Bound 0 3329) (v : Poly) :
    unpackCiphertext k (packCiphertext b v) =
      (fun l => polyDecompressDu k (polyCompressDu k (b l)),
        polyDecompressDv k (polyCompressDv k v)) := by
  rw [unpackCiphertext, packCiphertext]
  refine Prod.ext (funext fun l => ?_) ?_
  · exact polyDecompressDu_of_bytes (hb l) fun p hp =>
      byte32_flatMap_finRange _ (fun i => length_polyCompressDu (b i)) _ l hp
  · have hlen : (polyvecCompressDu b).length = k * polycompressedbytesDu k :=
      length_flatMap_finRange _ fun i => length_polyCompressDu (b i)
    exact congrArg (polyDecompressDv k) (List.drop_left' hlen)

theorem unpackSk_packSk {sk : PolyVec k} (hsk : ∀ l, (sk l).Bound 0 3329) :
    unpackSk k (packSk sk) = sk := by
  have h := polyvecFrombytes_polyvecTobytes hsk []
  rwa [List.append_nil] at h

theorem codec_bound {d x : ℕ} (hd : 0 < d) (hd' : d ≤ 11) :
    Kemeleon.decompressValue (Kemeleon.compressValue x d) d < 3329 :=
  decompressValue_lt hd hd' (Kemeleon.compressValue_lt x d)

theorem polyDecompressDu_bound {a : Poly} (ha : a.Bound 0 3329) :
    (polyDecompressDu k (polyCompressDu k a)).Bound 0 3329 := by
  unfold polyDecompressDu polyCompressDu
  intro i hi
  split_ifs
  · rw [toInt_polyDecompressD11 ha hi]
    exact ⟨Int.natCast_nonneg _, by exact_mod_cast codec_bound (by decide) (by decide)⟩
  · rw [toInt_polyDecompressD10 ha hi]
    exact ⟨Int.natCast_nonneg _, by exact_mod_cast codec_bound (by decide) (by decide)⟩

theorem polyDecompressDv_bound {a : Poly} (ha : a.Bound 0 3329) :
    (polyDecompressDv k (polyCompressDv k a)).Bound 0 3329 := by
  unfold polyDecompressDv polyCompressDv
  intro i hi
  split_ifs
  · rw [toInt_polyDecompressD5 ha hi]
    exact ⟨Int.natCast_nonneg _, by exact_mod_cast codec_bound (by decide) (by decide)⟩
  · rw [toInt_polyDecompressD4 ha hi]
    exact ⟨Int.natCast_nonneg _, by exact_mod_cast codec_bound (by decide) (by decide)⟩

end Packing

section Arithmetic

theorem Coeffs.Bound.absBound {n : ℕ} {r : Coeffs n} {hi : ℤ} (h : r.Bound 0 hi) :
    r.AbsBound hi := by
  intro i hlt
  have hcoeff := h i hlt
  constructor <;> omega

theorem polyAdd_spec {r b : Poly} {A B : ℤ} (hr : r.AbsBound A) (hb : b.AbsBound B)
    (hAB : A + B ≤ 32768) :
    (polyAdd r b).AbsBound (A + B) ∧ ∀ i < 256, (polyAdd r b).zq i = r.zq i + b.zq i := by
  have hsum (i : ℕ) (hi : i < 256) : (polyAdd r b).coeff i = r.coeff i + b.coeff i :=
    Coeffs.coeff_each _ r hi
  constructor
  · intro i hi
    have hri := hr i hi
    have hbi := hb i hi
    rw [hsum i hi, toInt_add_of_bounds (by omega) (by omega)]
    constructor <;> omega
  · intro i hi
    have hri := hr i hi
    have hbi := hb i hi
    rw [Coeffs.zq, hsum i hi, toZq_add (by omega) (by omega)]
    rfl

theorem zq_polySub {r b : Poly} {A B : ℤ} (hr : r.AbsBound A) (hb : b.AbsBound B)
    (hAB : A + B ≤ 32768) {i : ℕ} (hi : i < 256) :
    (polySub r b).zq i = r.zq i - b.zq i := by
  have hri := hr i hi
  have hbi := hb i hi
  rw [Coeffs.zq, polySub, Coeffs.coeff_each _ r hi, toZq_sub (by omega) (by omega)]
  rfl

theorem polyTomont_spec (r : Poly) :
    (polyTomont r).AbsBound 3329 ∧ ∀ i < 256, (polyTomont r).zq i = 65536 * r.zq i := by
  have hprod (i : ℕ) (hi : i < 256) : (polyTomont r).coeff i = fqmul (r.coeff i) 1353#16 :=
    Coeffs.coeff_each _ r hi
  constructor
  · intro i hi
    rw [hprod i hi]
    exact fqmul_bounds _ (by decide) (by decide)
  · intro i hi
    rw [Coeffs.zq, hprod i hi, toZq_fqmul_eq, mul_assoc, mul_comm]
    rfl

end Arithmetic

section Decryption
variable {k : ℕ} {s u : PolyVec k} {v : Poly}

theorem indcpaDec_eq (hu : ∀ l, (u l).Bound 0 3329) :
    indcpaDec k (packCiphertext u v) (packSk (polyvecReduce (polyvecNtt s))) =
      polyTomsg (polyReduce (polySub (polyDecompressDv k (polyCompressDv k v))
        (polyInvnttTomont (polyvecBasemulAccMontgomeryCached (polyvecReduce (polyvecNtt s))
          (polyvecNtt fun l => polyDecompressDu k (polyCompressDu k (u l)))
          (polyvecMulcacheCompute
            (polyvecNtt fun l => polyDecompressDu k (polyCompressDu k (u l)))))))) := by
  have hsk : unpackSk k (packSk (polyvecReduce (polyvecNtt s))) = polyvecReduce (polyvecNtt s) :=
    unpackSk_packSk fun l => polyReduce_bound (polyNtt (s l))
  rw [indcpaDec, unpackCiphertext_packCiphertext hu, hsk]

/-- A decryption returns the message that is left after the scalar product, up to noise. -/
theorem indcpaDec_noise (hk : k ≤ 4) (hs : ∀ l, (s l).AbsBound 3329)
    (hu : ∀ l, (u l).Bound 0 3329) (hv : v.Bound 0 3329) {msg : List Byte} (hmsg : msg.length = 32)
    {η : ℕ → ℤ} (hη : ∀ i < 256, -1664 ≤ η i ∧ η i ≤ 1664)
    (hcong : ∀ i < 256, (polyDecompressDv k (polyCompressDv k v)).zq i -
      (∑ l, negacyclic 256 (s l).zq (polyDecompressDu k (polyCompressDu k (u l))).zq i) =
        (((if msgBit msg i then 1665 else 0) + η i : ℤ) : Zq)) :
    indcpaDec k (packCiphertext u v) (packSk (polyvecReduce (polyvecNtt s))) = msg ↔
      ∀ i < 256, -832 ≤ η i ∧ η i + (msgBit msg i).toNat ≤ 832 := by
  have hround (l : Fin k) : (polyDecompressDu k (polyCompressDu k (u l))).AbsBound 3329 :=
    (polyDecompressDu_bound (hu l)).absBound
  rw [indcpaDec_eq hu]
  refine polyTomsg_noise hmsg hη fun i hi => ?_
  rw [zq_polySub ((polyDecompressDv_bound hv).absBound)
    (scalarProduct_spec hk hs hround).1 (by decide) hi, zq_scalarProduct hk hs hround hi,
    ← hcong i hi]

end Decryption

section Noise

/-- The noise of a lattice encryption, in any commutative ring: `S` and `E` are the secret and the
error of the key, `Y`, `E1`, `E2` those of the encryption, `U'` and `V'` what arrives. -/
theorem decryption_identity {R ι : Type*} [CommRing R] [Fintype ι] {F : ι → ι → R}
    {S E Y E1 T U : ι → R} {E2 M V : R} (U' : ι → R) (V' : R)
    (hT : ∀ x, T x = ∑ y, F x y * S y + E x) (hU : ∀ l, U l = ∑ x, F x l * Y x + E1 l) (hV : V = ∑ x, T x * Y x + E2 + M) :
    V' - ∑ l, S l * U' l =
      M + (∑ l, E l * Y l + E2 + (V' - V) - ∑ l, S l * (E1 l + (U' l - U l))) := by
  have hswap : ∑ x, (∑ y, F x y * S y) * Y x = ∑ l, S l * ∑ x, F x l * Y x := by
    simp only [Finset.sum_mul, Finset.mul_sum]
    rw [Finset.sum_comm]
    exact Finset.sum_congr rfl fun _ _ => Finset.sum_congr rfl fun _ _ => by ring
  have hTY : ∑ x, T x * Y x = ∑ l, S l * ∑ x, F x l * Y x + ∑ l, E l * Y l := by
    simp only [hT, add_mul, Finset.sum_add_distrib, hswap]
  have hSU : ∑ l, S l * U l = ∑ l, S l * ∑ x, F x l * Y x + ∑ l, S l * E1 l := by
    simp only [hU, mul_add, Finset.sum_add_distrib]
  have hS : ∑ l, S l * (E1 l + (U' l - U l)) =
      ∑ l, S l * E1 l + (∑ l, S l * U' l - ∑ l, S l * U l) := by
    simp only [mul_add, mul_sub, Finset.sum_add_distrib, Finset.sum_sub_distrib]
  rw [hS, hSU, hV, hTY]
  ring

variable {k : ℕ} {s e y e1 : PolyVec k} {e2 kp : Poly} {a : PolyMat k}

/-- The public vector `t = A s + e` in the leaves. -/
def publicVector (a : PolyMat k) (s e : PolyVec k) : PolyVec k :=
  polyvecReduce (polyvecAdd
    (polyvecTomont (matvecMul a (polyvecNtt s) (polyvecMulcacheCompute (polyvecNtt s))))
    (polyvecNtt e))

/-- The vector `u` of a ciphertext. -/
def cipherVector (a : PolyMat k) (y e1 : PolyVec k) : PolyVec k :=
  polyvecReduce (polyvecAdd (polyvecInvnttTomont
    (matvecMul a (polyvecNtt y) (polyvecMulcacheCompute (polyvecNtt y)))) e1)

/-- The polynomial `v` of a ciphertext. -/
def cipherPoly (t y : PolyVec k) (e2 kp : Poly) : Poly :=
  polyReduce (polyAdd (polyAdd (polyInvnttTomont (polyvecBasemulAccMontgomeryCached t (polyvecNtt y)
    (polyvecMulcacheCompute (polyvecNtt y)))) e2) kp)

theorem Coeffs.AbsBound.mono {n : ℕ} {r : Coeffs n} {A B : ℤ} (h : r.AbsBound A) (hAB : A ≤ B) :
    r.AbsBound B := by
  intro i hi
  have hcoeff := h i hi
  constructor <;> omega

theorem Coeffs.Bound.mono {n : ℕ} {r : Coeffs n} {lo A B : ℤ} (h : r.Bound lo A) (hAB : A ≤ B) :
    r.Bound lo B := fun i hi => ⟨(h i hi).1, (h i hi).2.trans_le hAB⟩

theorem polyvecReduce_bound (r : PolyVec k) (l : Fin k) : (polyvecReduce r l).Bound 0 3329 :=
  polyReduce_bound (r l)

theorem publicVector_bound (l : Fin k) : (publicVector a s e l).Bound 0 3329 := by
  rw [publicVector]
  exact polyvecReduce_bound _ l

theorem publicVector_residues (hk : k ≤ 4) (ha : ∀ x y, (a x y).Bound 0 3329)
    (hs : ∀ l, (s l).AbsBound 3329) (he : ∀ l, (e l).AbsBound 3329) {F : Fin k → Fin k → Zq[X]}
    (hF : ∀ x y, Residues zetaOf 128 2 (F x y) (a x y).zq) (x : Fin k) :
    Residues zetaOf 128 2 (∑ y, F x y * (s y).poly + (e x).poly) (publicVector a s e x).zq := by
  have hprod := basemul_residues hk (fun y => (ha x y).mono (by decide)) (hF x)
    fun y => (polyNtt_spec (hs y)).2
  have htomont := polyTomont_spec
    (matvecMul a (polyvecNtt s) (polyvecMulcacheCompute (polyvecNtt s)) x)
  have hsum := polyAdd_spec htomont.1 (polyNtt_spec (he x)).1 (by decide)
  have hadd := (hprod.scale 65536).add (polyNtt_spec (he x)).2
  rw [← mul_assoc, ← C_mul, mont_cancel, C_1, one_mul] at hadd
  refine hadd.congr fun i hi => ?_
  rw [publicVector, polyvecReduce, zq_polyReduce _ hi]
  exact ((congrArg (· + (polyNtt (e x)).zq i) (htomont.2 i hi).symm).trans (hsum.2 i hi).symm)

/-- A product in the leaves, transformed back, is the product of classes. -/
theorem tableMod_invntt (hk : k ≤ 4) {r y : PolyVec k} (hr : ∀ l, (r l).Bound 0 4096)
    (hy : ∀ l, (y l).AbsBound 3329) {F : Fin k → Zq[X]}
    (hF : ∀ l, Residues zetaOf 128 2 (F l) (r l).zq) :
    (polyInvnttTomont (polyvecBasemulAccMontgomeryCached r (polyvecNtt y)
      (polyvecMulcacheCompute (polyvecNtt y)))).AbsBound 3329 ∧
    tableMod 256 (polyInvnttTomont (polyvecBasemulAccMontgomeryCached r (polyvecNtt y)
      (polyvecMulcacheCompute (polyvecNtt y)))).zq =
        ∑ l, Ideal.Quotient.mk _ (F l) * tableMod 256 (y l).zq := by
  obtain ⟨hbound, hdvd⟩ := polyInvnttTomont_spec
    (basemul_residues hk hr hF fun l => (polyNtt_spec (hy l)).2)
  rw [← mul_assoc, ← C_mul, mont_cancel, C_1, one_mul] at hdvd
  refine ⟨hbound, ?_⟩
  have hclass := mk_eq_iff_dvd.mpr hdvd
  rw [map_sum] at hclass
  simp only [map_mul] at hclass
  exact hclass.symm

theorem tableMod_cipherVector (hk : k ≤ 4) (ha : ∀ x y, (a x y).Bound 0 3329)
    (hy : ∀ l, (y l).AbsBound 3329) (he1 : ∀ l, (e1 l).AbsBound 3329)
    {F : Fin k → Fin k → Zq[X]} (hF : ∀ x y, Residues zetaOf 128 2 (F x y) (a x y).zq) (l : Fin k) :
    tableMod 256 (cipherVector a y e1 l).zq =
      ∑ x, Ideal.Quotient.mk _ (F l x) * tableMod 256 (y x).zq + tableMod 256 (e1 l).zq := by
  obtain ⟨hbound, hclass⟩ := tableMod_invntt hk (fun x => (ha l x).mono (by decide)) hy (hF l)
  have hsum := (polyAdd_spec hbound (he1 l) (by decide)).2
  rw [← hclass, ← tableMod_add]
  refine tableMod_congr fun i hi => ?_
  rw [cipherVector, polyvecReduce, zq_polyReduce _ hi]
  exact hsum i hi

theorem tableMod_cipherPoly (hk : k ≤ 4) {t : PolyVec k} (ht : ∀ l, (t l).Bound 0 3329)
    (hy : ∀ l, (y l).AbsBound 3329) (he2 : e2.AbsBound 3329) (hkp : kp.AbsBound 3329)
    {T : Fin k → Zq[X]} (hT : ∀ x, Residues zetaOf 128 2 (T x) (t x).zq) :
    tableMod 256 (cipherPoly t y e2 kp).zq =
      ∑ x, Ideal.Quotient.mk _ (T x) * tableMod 256 (y x).zq + tableMod 256 e2.zq +
        tableMod 256 kp.zq := by
  obtain ⟨hbound, hclass⟩ := tableMod_invntt hk (fun x => (ht x).mono (by decide)) hy hT
  have hsum := polyAdd_spec hbound he2 (by decide)
  have hsum' := (polyAdd_spec hsum.1 hkp (by decide)).2
  rw [← hclass, ← tableMod_add, ← tableMod_add]
  refine tableMod_congr fun i hi => ?_
  rw [cipherPoly, zq_polyReduce _ hi]
  exact (hsum' i hi).trans (congrArg (· + kp.zq i) (hsum.2 i hi))

/-- The integers that the coefficients stand for. -/
def Coeffs.ints {n : ℕ} (r : Coeffs n) (i : ℕ) : ℤ := (r.coeff i).toInt

/-- The noise that a decryption meets when `u` and `v` arrive as `u'` and `v'`. -/
def decryptionNoise (s e y e1 : PolyVec k) (e2 : Poly) (u u' : PolyVec k) (v v' : Poly) (i : ℕ) :
    ℤ :=
  ∑ l, negacyclic 256 (e l).ints (y l).ints i + e2.ints i + (v'.ints i - v.ints i) -
    ∑ l, negacyclic 256 (s l).ints (fun j => (e1 l).ints j + ((u' l).ints j - (u l).ints j)) i

theorem cast_decryptionNoise (u u' : PolyVec k) (v v' : Poly) (i : ℕ) :
    ((decryptionNoise s e y e1 e2 u u' v v' i : ℤ) : Zq) =
      ∑ l, negacyclic 256 (e l).zq (y l).zq i + e2.zq i + (v'.zq i - v.zq i) -
        ∑ l, negacyclic 256 (s l).zq (fun j => (e1 l).zq j + ((u' l).zq j - (u l).zq j)) i := by
  simp only [decryptionNoise, Int.cast_sub, Int.cast_add, Int.cast_sum, cast_negacyclic]
  rfl

theorem exists_leaves (r : Poly) : ∃ F, Residues zetaOf 128 2 F r.zq := by
  have hleaves := exists_residues (le_refl 7) r.zq
  norm_num at hleaves
  exact hleaves

/-- What a decryption computes from any received `u'` and `v'`: the message and the noise. -/
theorem decryption_zq (hk : k ≤ 4) (ha : ∀ x y, (a x y).Bound 0 3329)
    (hs : ∀ l, (s l).AbsBound 3329) (he : ∀ l, (e l).AbsBound 3329) (hy : ∀ l, (y l).AbsBound 3329)
    (he1 : ∀ l, (e1 l).AbsBound 3329) (he2 : e2.AbsBound 3329) (hkp : kp.AbsBound 3329)
    (u' : PolyVec k) (v' : Poly) {i : ℕ} (hi : i < 256) :
    v'.zq i - ∑ l, negacyclic 256 (s l).zq (u' l).zq i =
      kp.zq i + ((decryptionNoise s e y e1 e2 (cipherVector (fun x y => a y x) y e1) u'
        (cipherPoly (publicVector a s e) y e2 kp) v' i : ℤ) : Zq) := by
  choose F hF using fun x y => exists_leaves (a x y)
  have hpublic := publicVector_residues hk ha hs he hF
  have hT (x : Fin k) : Ideal.Quotient.mk (Ideal.span {(X ^ 256 + 1 : Zq[X])})
      (∑ y, F x y * (s y).poly + (e x).poly) =
        ∑ y, Ideal.Quotient.mk _ (F x y) * tableMod 256 (s y).zq + tableMod 256 (e x).zq := by
    rw [map_add, map_sum]
    simp only [map_mul]
    rfl
  have hU := tableMod_cipherVector hk (fun x y => ha y x) hy he1 fun x y => hF y x
  have hV := tableMod_cipherPoly hk publicVector_bound hy he2 hkp hpublic
  have hid := decryption_identity (fun l => tableMod 256 (u' l).zq) (tableMod 256 v'.zq) hT hU hV
  have : Nontrivial Zq := ZMod.nontrivial_iff.mpr (by decide)
  rw [cast_decryptionNoise]
  refine eq_of_tableMod_eq (n := 256)
    (x := fun i => v'.zq i - ∑ l, negacyclic 256 (s l).zq (u' l).zq i)
    (y := fun i => kp.zq i + (∑ l, negacyclic 256 (e l).zq (y l).zq i + e2.zq i +
      (v'.zq i - (cipherPoly (publicVector a s e) y e2 kp).zq i) -
        ∑ l, negacyclic 256 (s l).zq (fun j => (e1 l).zq j +
          ((u' l).zq j - (cipherVector (fun x y => a y x) y e1 l).zq j)) i)) ?_ hi
  simp only [tableMod_sub, tableMod_add, tableMod_sum, tableMod_negacyclic]
  exact hid

end Noise

section Correctness
variable (smp : Samplers) (k : ℕ)

theorem absBound_zero {n : ℕ} {B : ℤ} (hB : 0 < B) : (Coeffs.zero n).AbsBound B := by
  intro i hi
  have hzero : (Coeffs.zero n).coeff i = 0 := by
    simp [Coeffs.coeff, Coeffs.zero, Vector.getD, Array.getD, hi]
  rw [hzero]
  exact ⟨neg_lt_zero.mpr hB, hB⟩

theorem genMatrix_bound (seed : List Byte) (transposed : Bool) (x y : Fin k) :
    (genMatrix smp k seed transposed x y).Bound 0 3329 := smp.rejUniform_bound _

theorem genMatrix_transposed (seed : List Byte) :
    genMatrix smp k seed true = fun x y => genMatrix smp k seed false y x := rfl

theorem length_publicseed (coins : List Byte) : (keypairSeeds smp k coins).1.length = 32 := by
  rw [keypairSeeds, List.length_take, smp.length_hashG]
  rfl

theorem indcpaKeypairDerand_eq (coins : List Byte) :
    indcpaKeypairDerand smp k coins =
      (packPk (publicVector (genMatrix smp k (keypairSeeds smp k coins).1 false)
          (keypairGetnoiseEta1 smp k (keypairSeeds smp k coins).2).1
          (keypairGetnoiseEta1 smp k (keypairSeeds smp k coins).2).2) (keypairSeeds smp k coins).1,
        packSk (polyvecReduce (polyvecNtt
          (keypairGetnoiseEta1 smp k (keypairSeeds smp k coins).2).1))) := rfl

theorem unpackPk_packPk {pk : PolyVec k} (hpk : ∀ l, (pk l).Bound 0 3329) {seed : List Byte}
    (hseed : seed.length = 32) : unpackPk k (packPk pk seed) = (pk, seed) := by
  have hlen : (polyvecTobytes pk).length = k * 384 :=
    length_flatMap_finRange _ fun i => length_polyTobytes (pk i)
  rw [unpackPk, packPk, polyvecFrombytes_polyvecTobytes hpk, List.drop_left' hlen,
    List.take_of_length_le hseed.le]

theorem indcpaEncVectors_eq {t : PolyVec k} (ht : ∀ l, (t l).Bound 0 3329) {seed : List Byte}
    (hseed : seed.length = 32) (m r : List Byte) :
    indcpaEncVectors smp k m (packPk t seed) r =
      (cipherVector (genMatrix smp k seed true) (encGetnoise smp k r).1 (encGetnoise smp k r).2.1,
        cipherPoly t (encGetnoise smp k r).1 (encGetnoise smp k r).2.2 (polyFrommsg m)) := by
  rw [indcpaEncVectors, unpackPk_packPk k ht hseed]
  rfl

theorem polyFrommsg_absBound (m : List Byte) : (polyFrommsg m).AbsBound 3329 := by
  intro i hi
  rw [coeff_polyFrommsg m hi]
  split_ifs <;> decide

theorem bmod_bounds (x : ℤ) : -1664 ≤ x.bmod 3329 ∧ x.bmod 3329 ≤ 1664 := by
  have hlo := Int.le_bmod (x := x) (show 0 < 3329 by decide)
  have hhi := Int.bmod_lt (x := x) (show 0 < 3329 by decide)
  constructor <;> omega

theorem zq_polyFrommsg (m : List Byte) {i : ℕ} (hi : i < 256) :
    (polyFrommsg m).zq i = ((if msgBit m i then 1665 else 0 : ℤ) : Zq) := by
  rw [Coeffs.zq, coeff_polyFrommsg m hi]
  split_ifs <;> rfl

/-- The noise of an encryption of `m` with `r` under the key from `coins`. -/
def indcpaNoise (coins m r : List Byte) : ℕ → ℤ :=
  let (s, e) := keypairGetnoiseEta1 smp k (keypairSeeds smp k coins).2
  let (y, e1, e2) := encGetnoise smp k r
  let (u, v) := indcpaEncVectors smp k m (indcpaKeypairDerand smp k coins).1 r
  decryptionNoise s e y e1 e2 u (fun l => polyDecompressDu k (polyCompressDu k (u l))) v
    (polyDecompressDv k (polyCompressDv k v))

variable {smp k}

/-- Decryption undoes encryption exactly when the noise, centred modulo `q`, stays below a quarter
of `q`. -/
theorem indcpaDec_indcpaEnc (hk : k ≤ 4) (coins r : List Byte) {m : List Byte}
    (hm : m.length = 32) :
    indcpaDec k (indcpaEnc smp k m (indcpaKeypairDerand smp k coins).1 r)
      (indcpaKeypairDerand smp k coins).2 = m ↔
    ∀ i < 256, -832 ≤ (indcpaNoise smp k coins m r i).bmod 3329 ∧
      (indcpaNoise smp k coins m r i).bmod 3329 + (msgBit m i).toNat ≤ 832 := by
  have hs (l : Fin k) := (smp.eta1_bound (keypairSeeds smp k coins).2 (BitVec.ofNat 8 l)).mono
    (show (4 : ℤ) ≤ 3329 by decide)
  have he (l : Fin k) := (smp.eta1_bound (keypairSeeds smp k coins).2 (BitVec.ofNat 8 (k + l))).mono
    (show (4 : ℤ) ≤ 3329 by decide)
  have hy (l : Fin k) := (smp.eta1_bound r (BitVec.ofNat 8 l)).mono
    (show (4 : ℤ) ≤ 3329 by decide)
  have he1 (l : Fin k) := (smp.eta2_bound r (BitVec.ofNat 8 (k + l))).mono
    (show (3 : ℤ) ≤ 3329 by decide)
  have he2 := (smp.eta2_bound r (BitVec.ofNat 8 (2 * k))).mono (show (3 : ℤ) ≤ 3329 by decide)
  have hvectors := indcpaEncVectors_eq smp k
    (publicVector_bound (a := genMatrix smp k (keypairSeeds smp k coins).1 false)
      (s := (keypairGetnoiseEta1 smp k (keypairSeeds smp k coins).2).1)
      (e := (keypairGetnoiseEta1 smp k (keypairSeeds smp k coins).2).2))
    (length_publicseed smp k coins) m r
  rw [indcpaEnc, indcpaNoise, indcpaKeypairDerand_eq, hvectors]
  refine indcpaDec_noise hk hs (polyvecReduce_bound _) (polyReduce_bound _) hm (fun i _ => ?_)
    fun i hi => ?_
  · exact bmod_bounds _
  · rw [genMatrix_transposed, decryption_zq hk (genMatrix_bound smp k _ false) hs he hy he1 he2
      (polyFrommsg_absBound m) _ _ hi, zq_polyFrommsg m hi, Int.cast_add]
    congr 1
    refine (ZMod.intCast_eq_intCast_iff' _ _ 3329).mpr ?_
    exact Int.bmod_emod.symm

/-- Samplers without any noise. -/
def quietSamplers : Samplers where
  hashG _ := List.replicate 64 0
  rejUniform _ := countingPoly
  getnoiseEta1 _ _ := Coeffs.zero 256
  getnoiseEta2 _ _ := Coeffs.zero 256
  length_hashG _ := List.length_replicate
  rejUniform_bound _ := countingPoly_bound
  eta1_bound _ _ := absBound_zero (by decide)
  eta2_bound _ _ := absBound_zero (by decide)

theorem indcpaDec_indcpaEnc_quiet :
    indcpaDec 2 (indcpaEnc quietSamplers 2 (List.replicate 32 5)
      (indcpaKeypairDerand quietSamplers 2 []).1 [])
      (indcpaKeypairDerand quietSamplers 2 []).2 = List.replicate 32 5 ↔
    ∀ i < 256, -832 ≤ (indcpaNoise quietSamplers 2 [] (List.replicate 32 5) [] i).bmod 3329 ∧
      (indcpaNoise quietSamplers 2 [] (List.replicate 32 5) [] i).bmod 3329 +
        (msgBit (List.replicate 32 5) i).toNat ≤ 832 :=
  indcpaDec_indcpaEnc (by decide) [] [] (by decide)

end Correctness

end PqPsi.MlkemNative
