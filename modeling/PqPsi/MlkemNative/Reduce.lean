import PqPsi.Common.Block
import Mathlib.Data.ZMod.Basic

/-!
# Arithmetic modulo q in 16-bit words

Coefficients are `int16_t` and products `int32_t`. Montgomery reduction divides
by `2 ^ 16` modulo `q`, Barrett reduction gives the centred residue, and the
last conversion the residue in `0 … q - 1`.
-/
namespace PqPsi.MlkemNative

abbrev I16 := BitVec 16
abbrev I32 := BitVec 32

/-- The residues modulo `MLKEM_Q`. -/
abbrev Zq := ZMod 3329

/-- The residue that a coefficient stands for. -/
def I16.toZq (x : I16) : Zq := (x.toInt : Zq)

def castUint16ToInt16 (x : U16) : I16 := x

def castInt32ToUint16 (x : I32) : U16 := (x &&& 0xFFFF#32).setWidth 16

def castInt16ToUint16 (x : I32) : U16 := castInt32ToUint16 x

def ctCmaskNegI16 (x : I16) : U16 := castInt32ToUint16 ((x.signExtend 32).sshiftRight 16)

def ctCmaskNonzeroU16 (x : U16) : U16 := castInt32ToUint16 ((-(x.setWidth 32)).sshiftRight 16)

def ctSelInt16 (a b : I16) (cond : U16) : I16 :=
  let au := castInt16ToUint16 (a.signExtend 32)
  let bu := castInt16ToUint16 (b.signExtend 32)
  castUint16ToInt16 (bu ^^^ (ctCmaskNonzeroU16 cond &&& (au ^^^ bu)))

def montgomeryReduce (a : I32) : I16 :=
  let aReduced := castInt32ToUint16 a
  let aInverted := (aReduced.setWidth 32 * 62209#32 &&& 0xFFFF#32).setWidth 16
  let t := castUint16ToInt16 aInverted
  let r := a - t.signExtend 32 * 3329#32
  (r.sshiftRight 16).setWidth 16

def fqmul (a b : I16) : I16 := montgomeryReduce (a.signExtend 32 * b.signExtend 32)

def barrettReduce (a : I16) : I16 :=
  let magic := 20159#32
  let t := (magic * a.signExtend 32 + 0x2000000#32).sshiftRight 26
  (a.signExtend 32 - t * 3329#32).setWidth 16

def scalarSignedToUnsignedQ (c : I16) : I16 :=
  ctSelInt16 ((c.signExtend 32 + 3329#32).setWidth 16) c (ctCmaskNegI16 c)

section Words

theorem castInt32ToUint16_eq (x : I32) : castInt32ToUint16 x = x.setWidth 16 := by
  rw [castInt32ToUint16, BitVec.setWidth_and,
    show (0xFFFF#32).setWidth 16 = BitVec.allOnes 16 from rfl, BitVec.and_allOnes]

theorem toInt_setWidth16 (x : I32) : (x.setWidth 16).toInt = x.toInt.bmod 65536 := by
  rw [BitVec.toInt_setWidth, BitVec.toInt_eq_toNat_bmod]
  exact (Int.bmod_bmod_of_dvd ⟨65536, by norm_num⟩).symm

theorem toInt_signExtend32 (x : I16) : (x.signExtend 32).toInt = x.toInt :=
  BitVec.toInt_signExtend_of_le (by decide)

theorem bmod16 {x : ℤ} (h : -32768 ≤ x) (h' : x < 32768) : x.bmod 65536 = x :=
  Int.bmod_eq_of_le (by simpa using h) (by simpa using h')

theorem bmod32 {x : ℤ} (h : -2147483648 ≤ x) (h' : x < 2147483648) : x.bmod (2 ^ 32) = x :=
  Int.bmod_eq_of_le (by simpa using h) (by simpa using h')

theorem I16.bounds (x : I16) : -32768 ≤ x.toInt ∧ x.toInt < 32768 :=
  ⟨BitVec.le_toInt x, BitVec.toInt_lt⟩

/-- Products of coefficients fit in 32 bits. -/
theorem toInt_mul_signExtend (a b : I16) :
    (a.signExtend 32 * b.signExtend 32).toInt = a.toInt * b.toInt := by
  have hlow := BitVec.le_toInt_mul_toInt (x := a) (y := b)
  have hhigh := BitVec.toInt_mul_toInt_le (x := a) (y := b)
  norm_num at hlow hhigh
  rw [BitVec.toInt_mul, toInt_signExtend32, toInt_signExtend32, bmod32 (by omega) (by omega)]

theorem ctCmaskNegI16_eq (x : I16) : ctCmaskNegI16 x = if x.toInt < 0 then BitVec.allOnes 16 else 0 := by
  obtain ⟨hlow, hhigh⟩ := x.bounds
  have hshift : ((x.signExtend 32).sshiftRight 16).toInt = if x.toInt < 0 then -1 else 0 := by
    rw [BitVec.toInt_sshiftRight, toInt_signExtend32, Int.shiftRight_eq_div_pow]
    split_ifs <;> omega
  apply BitVec.eq_of_toInt_eq
  rw [ctCmaskNegI16, castInt32ToUint16_eq, toInt_setWidth16, hshift]
  split_ifs <;> rfl

theorem ctCmaskNonzeroU16_eq (x : U16) :
    ctCmaskNonzeroU16 x = if x = 0 then 0 else BitVec.allOnes 16 := by
  have hx := x.isLt
  have hwide : (x.setWidth 32).toInt = x.toNat := by
    rw [BitVec.toInt_setWidth]
    exact bmod32 (by omega) (by omega)
  have hneg : (-(x.setWidth 32)).toInt = -(x.toNat : ℤ) := by
    rw [BitVec.toInt_neg, hwide]
    exact bmod32 (by omega) (by omega)
  have hzero : x = 0 ↔ x.toNat = 0 := BitVec.toNat_eq
  have hshift : ((-(x.setWidth 32)).sshiftRight 16).toInt = if x = 0 then 0 else -1 := by
    rw [BitVec.toInt_sshiftRight, hneg, Int.shiftRight_eq_div_pow]
    split_ifs with h <;> rw [hzero] at h <;> omega
  apply BitVec.eq_of_toInt_eq
  rw [ctCmaskNonzeroU16, castInt32ToUint16_eq, toInt_setWidth16, hshift]
  split_ifs <;> rfl

theorem castInt16ToUint16_signExtend (x : I16) : castInt16ToUint16 (x.signExtend 32) = x := by
  rw [castInt16ToUint16, castInt32ToUint16_eq]
  apply BitVec.eq_of_toInt_eq
  rw [toInt_setWidth16, toInt_signExtend32]
  exact bmod16 x.bounds.1 x.bounds.2

theorem ctSelInt16_eq (a b : I16) (cond : U16) :
    ctSelInt16 a b cond = if cond = 0 then b else a := by
  simp only [ctSelInt16, castInt16ToUint16_signExtend, ctCmaskNonzeroU16_eq, castUint16ToInt16]
  split_ifs with h
  · simp
  · rw [BitVec.allOnes_and, ← BitVec.xor_assoc, BitVec.xor_comm b a, BitVec.xor_assoc,
      BitVec.xor_self, BitVec.xor_zero]

end Words

section Montgomery

/-- `t` is the low half of `a / q`. -/
theorem toInt_aInverted (a : I32) :
    (((castInt32ToUint16 a).setWidth 32 * 62209#32 &&& 0xFFFF#32).setWidth 16).toInt =
      (a.toInt * 62209).bmod 65536 := by
  have hmask : ((castInt32ToUint16 a).setWidth 32 * 62209#32 &&& 0xFFFF#32).setWidth 16 =
      a.setWidth 16 * 62209#16 := by
    rw [← castInt32ToUint16, castInt32ToUint16_eq, BitVec.setWidth_mul _ _ (by decide),
      castInt32ToUint16_eq, BitVec.setWidth_setWidth_of_le _ (by decide), BitVec.setWidth_eq]
    rfl
  rw [hmask, BitVec.toInt_mul, toInt_setWidth16,
    show (62209#16).toInt = (62209 : ℤ).bmod 65536 from rfl]
  exact (Int.bmod_mul_bmod).trans Int.mul_bmod_bmod

/-- The exact value: `a` less a multiple of `q`, divided by `2 ^ 16`. -/
theorem montgomeryReduce_exact {a : I32} (h : -2038398975 ≤ a.toInt) (h' : a.toInt ≤ 2038398975) :
    ∃ t : ℤ, -32768 ≤ t ∧ t < 32768 ∧ (montgomeryReduce a).toInt * 65536 = a.toInt - 3329 * t := by
  set t : I16 := ((castInt32ToUint16 a).setWidth 32 * 62209#32 &&& 0xFFFF#32).setWidth 16 with ht
  obtain ⟨hlow, hhigh⟩ := t.bounds
  have hval : t.toInt = (a.toInt * 62209).bmod 65536 := toInt_aInverted a
  have hprod : (t.signExtend 32 * 3329#32).toInt = t.toInt * 3329 := by
    rw [BitVec.toInt_mul, toInt_signExtend32, show (3329#32).toInt = 3329 from rfl]
    exact bmod32 (by omega) (by omega)
  have hdiff : (a - t.signExtend 32 * 3329#32).toInt = a.toInt - t.toInt * 3329 := by
    rw [BitVec.toInt_sub, hprod]
    exact bmod32 (by omega) (by omega)
  have hres : (montgomeryReduce a).toInt = (a.toInt - t.toInt * 3329) / 65536 := by
    rw [montgomeryReduce, toInt_setWidth16]
    change ((a - t.signExtend 32 * 3329#32).sshiftRight 16).toInt.bmod 65536 = _
    rw [BitVec.toInt_sshiftRight, hdiff, Int.shiftRight_eq_div_pow]
    exact bmod16 (by omega) (by omega)
  -- `62209 * 3329 = 1 + 3160 * 2 ^ 16`
  obtain ⟨m, hm⟩ : ∃ m, t.toInt = a.toInt * 62209 - 65536 * m :=
    ⟨Int.bdiv (a.toInt * 62209) 65536, by rw [hval, Int.bmod_eq_self_sub_mul_bdiv]; rfl⟩
  refine ⟨t.toInt, hlow, hhigh, ?_⟩
  rw [hres]
  omega

theorem toZq_montgomeryReduce {a : I32} (h : -2038398975 ≤ a.toInt) (h' : a.toInt ≤ 2038398975) :
    (montgomeryReduce a).toZq * 65536 = (a.toInt : Zq) := by
  obtain ⟨t, -, -, hexact⟩ := montgomeryReduce_exact h h'
  have hcast : (((montgomeryReduce a).toInt * 65536 : ℤ) : Zq) = ((a.toInt - 3329 * t : ℤ) : Zq) := by
    rw [hexact]
  push_cast at hcast
  rw [I16.toZq, hcast, show (3329 : Zq) = 0 from rfl, zero_mul, sub_zero]

/-- The bound that the source derives for `mlk_fqmul`. -/
theorem fqmul_bounds (a : I16) {b : I16} (h : -1665 < b.toInt) (h' : b.toInt < 1665) :
    -3329 < (fqmul a b).toInt ∧ (fqmul a b).toInt < 3329 := by
  obtain ⟨ha, ha'⟩ := a.bounds
  have hlow : -54525952 ≤ a.toInt * b.toInt := by nlinarith
  have hhigh : a.toInt * b.toInt ≤ 54525952 := by nlinarith
  obtain ⟨t, ht, ht', hexact⟩ := montgomeryReduce_exact (a := a.signExtend 32 * b.signExtend 32)
    (by rw [toInt_mul_signExtend]; omega) (by rw [toInt_mul_signExtend]; omega)
  rw [toInt_mul_signExtend] at hexact
  rw [fqmul]
  constructor <;> omega

theorem toZq_fqmul (a b : I16) : (fqmul a b).toZq * 65536 = a.toZq * b.toZq := by
  have hlow := BitVec.le_toInt_mul_toInt (x := a) (y := b)
  have hhigh := BitVec.toInt_mul_toInt_le (x := a) (y := b)
  norm_num at hlow hhigh
  rw [fqmul, toZq_montgomeryReduce (by rw [toInt_mul_signExtend]; omega)
    (by rw [toInt_mul_signExtend]; omega), toInt_mul_signExtend, Int.cast_mul]
  rfl

end Montgomery

section Canonical

/-- The centred residue. -/
theorem barrettReduce_exact (a : I16) :
    ∃ t : ℤ, (barrettReduce a).toInt = a.toInt - 3329 * t ∧
      -1664 ≤ (barrettReduce a).toInt ∧ (barrettReduce a).toInt ≤ 1664 := by
  obtain ⟨hlow, hhigh⟩ := a.bounds
  set t : I32 := (20159#32 * a.signExtend 32 + 0x2000000#32).sshiftRight 26 with ht
  have hprod : (20159#32 * a.signExtend 32).toInt = 20159 * a.toInt := by
    rw [BitVec.toInt_mul, toInt_signExtend32, show (20159#32).toInt = 20159 from rfl]
    exact bmod32 (by omega) (by omega)
  have hsum : (20159#32 * a.signExtend 32 + 0x2000000#32).toInt = 20159 * a.toInt + 33554432 := by
    rw [BitVec.toInt_add, hprod, show (0x2000000#32).toInt = 33554432 from rfl]
    exact bmod32 (by omega) (by omega)
  have htval : t.toInt = (20159 * a.toInt + 33554432) / 67108864 := by
    rw [ht, BitVec.toInt_sshiftRight, hsum, Int.shiftRight_eq_div_pow]
    rfl
  have hmul : (t * 3329#32).toInt = t.toInt * 3329 := by
    rw [BitVec.toInt_mul, show (3329#32).toInt = 3329 from rfl]
    exact bmod32 (by omega) (by omega)
  have hdiff : (a.signExtend 32 - t * 3329#32).toInt = a.toInt - t.toInt * 3329 := by
    rw [BitVec.toInt_sub, hmul, toInt_signExtend32]
    exact bmod32 (by omega) (by omega)
  have hres : (barrettReduce a).toInt = a.toInt - t.toInt * 3329 := by
    rw [barrettReduce, toInt_setWidth16]
    change (a.signExtend 32 - t * 3329#32).toInt.bmod 65536 = _
    rw [hdiff]
    exact bmod16 (by omega) (by omega)
  refine ⟨t.toInt, by rw [hres]; ring, ?_, ?_⟩ <;> omega

theorem toZq_of_eq_sub {x y : I16} {t : ℤ} (h : y.toInt = x.toInt - 3329 * t) :
    y.toZq = x.toZq := by
  rw [I16.toZq, h, Int.cast_sub, Int.cast_mul, show ((3329 : ℤ) : Zq) = 0 from rfl, zero_mul,
    sub_zero]
  rfl

theorem toZq_barrettReduce (a : I16) : (barrettReduce a).toZq = a.toZq := by
  obtain ⟨t, hexact, -, -⟩ := barrettReduce_exact a
  exact toZq_of_eq_sub hexact

theorem scalarSignedToUnsignedQ_exact {c : I16} (h : -3329 < c.toInt) (h' : c.toInt < 3329) :
    (scalarSignedToUnsignedQ c).toInt = if c.toInt < 0 then c.toInt + 3329 else c.toInt := by
  have hsum : ((c.signExtend 32 + 3329#32).setWidth 16).toInt = c.toInt + 3329 := by
    rw [toInt_setWidth16, BitVec.toInt_add, toInt_signExtend32,
      show (3329#32).toInt = 3329 from rfl, bmod32 (by omega) (by omega)]
    exact bmod16 (by omega) (by omega)
  have hmask : ctCmaskNegI16 c = 0 ↔ ¬ c.toInt < 0 := by
    rw [ctCmaskNegI16_eq]
    split_ifs with hneg <;> simp [hneg]
  rw [scalarSignedToUnsignedQ, ctSelInt16_eq]
  split_ifs with hm hneg hneg
  · exact absurd hneg (hmask.mp hm)
  · rfl
  · exact hsum
  · exact absurd (hmask.mpr hneg) hm

/-- One coefficient of `mlk_poly_reduce`. -/
theorem canonical_exact (x : I16) :
    (scalarSignedToUnsignedQ (barrettReduce x)).toInt = x.toInt % 3329 := by
  obtain ⟨t, hexact, hlow, hhigh⟩ := barrettReduce_exact x
  rw [scalarSignedToUnsignedQ_exact (by omega) (by omega)]
  split_ifs <;> omega

end Canonical

end PqPsi.MlkemNative
