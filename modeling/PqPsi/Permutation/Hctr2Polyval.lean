import Mathlib.RingTheory.AdjoinRoot
import PqPsi.Permutation.Hctr2Encoding
import PqPsi.Permutation.Hctr2Field
import PqPsi.Permutation.Hctr2Inverse

/-!
# The hash of HCTR2 is POLYVAL

POLYVAL multiplies by the key and by `x^(-128)` in the residue ring of the
modulus. The code folds `x^(-128)` into the key once, as the constant of `polyvalKey`. Since
a block is determined by its residue, the hash is the only block with the
residue that POLYVAL computes.
-/
namespace PqPsi.Permutation.Hctr2
open Lib.BitLinear Lib.BitPoly Polynomial

noncomputable section

/-- Polynomials modulo the modulus. -/
abbrev Residue := AdjoinRoot modulus

/-- The residue of a block, whose bit `i` is the coefficient of `x^i`. -/
def residue (b : Block) : Residue := AdjoinRoot.mk modulus (toPoly b)

/-- `x^(-128)`. -/
def xInv128 : Residue := Ring.inverse (AdjoinRoot.root modulus ^ 128)

/-- POLYVAL under the key `h`. -/
def polyval (h : Residue) (blocks : List Block) : Residue :=
  blocks.foldl (fun s x => (s + residue x) * h * xInv128) 0

/-- Bytes cut into blocks of sixteen. -/
def toBlocks (bs : List Byte) : List Block := blocksOf (bs.length / 16) bs

/-- The zeros up to the next full block. -/
def zeroPadded (bs : List Byte) : List Byte := bs ++ List.replicate ((16 - bs.length % 16) % 16) 0

/-- A one and zeros up to the next full block, for a message that needs them. -/
def onePadded (bs : List Byte) : List Byte :=
  if 16 ∣ bs.length then bs else bs ++ 1 :: List.replicate (15 - bs.length % 16) 0

/-- The input of POLYVAL for a tweak and a message; the number in front is a 64-bit word. -/
def polyvalInput (tweak msg : List Byte) : List Block :=
  BitVec.ofNat 128 ((2 * 8 * tweak.length + if 16 ∣ msg.length then 2 else 3) % 2 ^ 64) ::
    (toBlocks (zeroPadded tweak) ++ toBlocks (onePadded msg))

section Residues

theorem mk_modByMonic (f : Poly) : AdjoinRoot.mk modulus (f %ₘ modulus) = AdjoinRoot.mk modulus f := by
  rw [modByMonic_eq_sub_mul_div, map_sub, map_mul, AdjoinRoot.mk_self, zero_mul, sub_zero]

theorem residue_toBlock (x : U128) : residue (toBlock x) = AdjoinRoot.mk modulus x.toPoly := by
  rw [residue, toBlock_eq]
  rfl

theorem mk_fromBlock (b : Block) : AdjoinRoot.mk modulus (fromBlock b).toPoly = residue b := by
  rw [← residue_toBlock, toBlock_fromBlock]

theorem mk_eq_mk_iff_dvd_add {f g : Poly} :
    AdjoinRoot.mk modulus f = AdjoinRoot.mk modulus g ↔ modulus ∣ f + g := by
  rw [AdjoinRoot.mk_eq_mk, CharTwo.sub_eq_add]

/-- Different blocks have different residues. -/
theorem residue_injective : Function.Injective residue := by
  intro b b' h
  rw [residue, residue, mk_eq_mk_iff_dvd_add, ← toPoly_xor] at h
  have hdeg : (toPoly (b ^^^ b')).degree < modulus.degree := by
    rw [degree_modulus]
    exact degree_toPoly_lt (b ^^^ b')
  have hzero : toPoly (b ^^^ b') = 0 := by
    by_contra hne
    exact modulus_monic.not_dvd_of_degree_lt hne hdeg h
  rw [← toPoly_zero] at hzero
  exact BitVec.xor_eq_zero_iff.mp (toPoly_injective hzero)

theorem mk_mul (a b : U128) :
    AdjoinRoot.mk modulus (mul a b).toPoly =
      AdjoinRoot.mk modulus a.toPoly * AdjoinRoot.mk modulus b.toPoly := by
  rw [toPoly_mul, mk_modByMonic, map_mul]

theorem mk_xor (a b : U128) :
    AdjoinRoot.mk modulus (a ^^^ b).toPoly =
      AdjoinRoot.mk modulus a.toPoly + AdjoinRoot.mk modulus b.toPoly := by
  rw [U128.toPoly_xor, map_add]

end Residues

section Key

/-- `x^128` below the modulus. -/
def xPow128 : U128 := ⟨1, 1 <<< 63 ||| 1 <<< 62 ||| 1 <<< 57⟩

/-- The constant of `polyvalKey`. -/
def keyConstant : U128 := ⟨1, 1 <<< 63 ||| 1 <<< 60 ||| 1 <<< 57 ||| 1 <<< 50⟩

theorem mul_keyConstant : mul keyConstant xPow128 = ⟨1, 0⟩ := by
  decide +kernel

theorem toPoly_one_word : toPoly (1#64) = 1 := by
  have h := toPoly_unit (w := 64) (i := 0) (by norm_num)
  rwa [unit, BitVec.shiftLeft_zero, pow_zero] at h

theorem toPoly_one : (⟨1, 0⟩ : U128).toPoly = 1 := by
  rw [U128.toPoly_eq]
  change toPoly (1#64) + X ^ 64 * toPoly (0#64) = 1
  rw [toPoly_one_word, toPoly_zero, mul_zero, add_zero]

theorem toPoly_xPow128 : xPow128.toPoly = X ^ 127 + X ^ 126 + X ^ 121 + 1 := by
  have hhi : xPow128.hi = unit 63 ^^^ unit 62 ^^^ unit 57 := by decide
  have hlo : toPoly xPow128.lo = 1 := toPoly_one_word
  have h63 : toPoly (unit 63 : U64) = X ^ 63 := toPoly_unit (by norm_num)
  have h62 : toPoly (unit 62 : U64) = X ^ 62 := toPoly_unit (by norm_num)
  have h57 : toPoly (unit 57 : U64) = X ^ 57 := toPoly_unit (by norm_num)
  rw [U128.toPoly_eq, hlo, hhi, toPoly_xor, toPoly_xor, h63, h62, h57]
  ring

/-- The modulus says what `x^128` is. -/
theorem mk_xPow128 :
    AdjoinRoot.mk modulus xPow128.toPoly = AdjoinRoot.root modulus ^ 128 := by
  have hsum : xPow128.toPoly + X ^ 128 = modulus := by
    rw [add_comm xPow128.toPoly (X ^ 128), toPoly_xPow128, modulus_eq]
  have hmk := mk_eq_mk_iff_dvd_add.mpr hsum.symm.dvd
  rw [hmk, map_pow, AdjoinRoot.mk_X]

/-- The constant of the key is `x^(-128)`. -/
theorem mk_keyConstant : AdjoinRoot.mk modulus keyConstant.toPoly = xInv128 := by
  have hone : AdjoinRoot.mk modulus keyConstant.toPoly * AdjoinRoot.root modulus ^ 128 = 1 := by
    rw [← mk_xPow128, ← mk_mul, mul_keyConstant, toPoly_one, map_one]
  have hunit : IsUnit (AdjoinRoot.root modulus ^ 128) := IsUnit.of_mul_eq_one_right _ hone
  have hinv : AdjoinRoot.root modulus ^ 128 * xInv128 = 1 := Ring.mul_inverse_cancel _ hunit
  calc AdjoinRoot.mk modulus keyConstant.toPoly
      = AdjoinRoot.mk modulus keyConstant.toPoly * (AdjoinRoot.root modulus ^ 128 * xInv128) := by
        rw [hinv, mul_one]
    _ = xInv128 := by rw [← mul_assoc, hone, one_mul]

/-- The key of the tables is the hash key times `x^(-128)`. -/
theorem mk_polyvalKey (hashKey : Block) :
    AdjoinRoot.mk modulus (polyvalKey hashKey).toPoly = residue hashKey * xInv128 := by
  have hkey : polyvalKey hashKey = mul (fromBlock hashKey) keyConstant := rfl
  rw [hkey, mk_mul, mk_fromBlock, mk_keyConstant]

end Key

section Padding

theorem toBlocks_of_bytesOf {row : List Block} {bs : List Byte} (h : bytesOf row = bs) :
    toBlocks bs = row := by
  have hlen : bs.length / 16 = row.length := by
    rw [← h, length_bytesOf]
    omega
  rw [toBlocks, hlen, ← h, blocksOf_bytesOf]

theorem toBlocks_zeroPadded (tweak : List Byte) :
    toBlocks (zeroPadded tweak) = padBlocks zeroFill tweak := by
  apply toBlocks_of_bytesOf
  rw [bytesOf_padBlocks length_zeroFill, zeroPadded]
  split_ifs with h
  · have hmod : (16 - tweak.length % 16) % 16 = 16 - tweak.length % 16 :=
      Nat.mod_eq_of_lt (by omega)
    rw [hmod, zeroFill]
  · rw [not_not.mp h]
    rfl

theorem toBlocks_onePadded (msg : List Byte) :
    toBlocks (onePadded msg) = padBlocks oneFill msg := by
  apply toBlocks_of_bytesOf
  rw [bytesOf_padBlocks length_oneFill, onePadded]
  by_cases h : msg.length % 16 = 0
  · rw [if_neg (not_not.mpr h), if_pos (Nat.dvd_of_mod_eq_zero h), List.append_nil]
  · rw [if_pos h, if_neg (fun hd => h (Nat.mod_eq_zero_of_dvd hd)), oneFill]
    congr 3
    omega

theorem lengthBlock_eq (tweak : List Byte) (m : ℕ) :
    lengthBlock tweak (BitVec.ofNat 64 m) =
      BitVec.ofNat 128 ((2 * 8 * tweak.length + m) % 2 ^ 64) := by
  apply BitVec.eq_of_toNat_eq
  rw [lengthBlock, lowBlock_eq, BitVec.toNat_append, BitVec.toNat_ofNat, BitVec.toNat_ofNat]
  simp only [Nat.zero_mod, Nat.zero_shiftLeft, Nat.zero_or, BitVec.toNat_add, BitVec.toNat_ofNat]
  omega

/-- The blocks that the code absorbs are the specified input. -/
theorem absorbed_eq_polyvalInput (tweak msg : List Byte) :
    absorbed tweak msg = polyvalInput tweak msg := by
  have hfirst : lengthBlock tweak (if msg.length % 16 = 0 then 2 else 3) =
      BitVec.ofNat 128 ((2 * 8 * tweak.length + if 16 ∣ msg.length then 2 else 3) % 2 ^ 64) := by
    by_cases h : msg.length % 16 = 0
    · rw [if_pos h, if_pos (Nat.dvd_of_mod_eq_zero h)]
      exact lengthBlock_eq tweak 2
    · rw [if_neg h, if_neg (fun hd => h (Nat.mod_eq_zero_of_dvd hd))]
      exact lengthBlock_eq tweak 3
  rw [absorbed, polyvalInput, toBlocks_zeroPadded, toBlocks_onePadded, hfirst]

end Padding

section Hash

theorem mk_absorb (hashKey : Block) (acc : U128) (blocks : List Block) :
    AdjoinRoot.mk modulus (absorb (makeMulTable (polyvalKey hashKey)) acc blocks).toPoly =
      blocks.foldl (fun s x => (s + residue x) * residue hashKey * xInv128)
        (AdjoinRoot.mk modulus acc.toPoly) := by
  induction blocks generalizing acc with
  | nil => rfl
  | cons b blocks ih =>
    have hstep : AdjoinRoot.mk modulus
        (mulFixed (acc ^^^ fromBlock b) (makeMulTable (polyvalKey hashKey))).toPoly =
        (AdjoinRoot.mk modulus acc.toPoly + residue b) * residue hashKey * xInv128 := by
      rw [mulFixed_makeMulTable, mk_mul, mk_xor, mk_fromBlock, mk_polyvalKey, mul_assoc]
    rw [List.foldl_cons, ← hstep, ← ih]
    rfl

/-- The hash is the only block with the residue that POLYVAL computes under the key `AES_k(0)`,
over the specified padding of tweak and message. The number in front of the input is exact for
every tweak below `2^60` bytes. -/
theorem hash_eq_polyval (lib : AesLib) (keyBytes : Block) (tweak msg : List Byte) :
    (∀ b : Block, hash (makeKey lib keyBytes tweak) msg = b ↔
        residue b = polyval (residue (lib.ecbEncBlock keyBytes 0)) (polyvalInput tweak msg)) ∧
      (tweak.length < 2 ^ 60 → (polyvalInput tweak msg).head? =
        some (BitVec.ofNat 128 (2 * 8 * tweak.length + if 16 ∣ msg.length then 2 else 3))) := by
  have hzero : (⟨0, 0⟩ : U128).toPoly = 0 := toPoly_zero
  have hkey : (makeKey lib keyBytes tweak).hashKey = lib.ecbEncBlock keyBytes 0 := by
    have hlow : lowBlock 0 = 0 := (lowBlock_eq 0).trans (by decide)
    exact congrArg (lib.ecbEncBlock keyBytes) hlow
  have hres : residue (hash (makeKey lib keyBytes tweak) msg) =
      polyval (residue (lib.ecbEncBlock keyBytes 0)) (polyvalInput tweak msg) := by
    have htable : (makeKey lib keyBytes tweak).table =
        makeMulTable (polyvalKey (makeKey lib keyBytes tweak).hashKey) := rfl
    rw [hash_eq_absorb, residue_toBlock, htable, mk_absorb, hzero, map_zero,
      absorbed_eq_polyvalInput, hkey, polyval]
  refine ⟨fun b => ⟨?_, ?_⟩, fun hlen => ?_⟩
  · rintro rfl
    exact hres
  · intro hb
    exact residue_injective (hres.trans hb.symm)
  · rw [polyvalInput, List.head?_cons, Nat.mod_eq_of_lt]
    split_ifs <;> omega

/-- The second test vector: no tweak, and an incomplete block. -/
theorem hash_eq_polyval_sample :
    (∀ b : Block, hash (makeKey sampleLib sampleKey []) (samplePlain.drop 16) = b ↔
        residue b = polyval (residue (sampleLib.ecbEncBlock sampleKey 0))
          (polyvalInput [] (samplePlain.drop 16))) ∧
      (([] : List Byte).length < 2 ^ 60 → (polyvalInput [] (samplePlain.drop 16)).head? =
        some (BitVec.ofNat 128 (2 * 8 * ([] : List Byte).length +
          if 16 ∣ (samplePlain.drop 16).length then 2 else 3))) :=
  hash_eq_polyval sampleLib sampleKey [] (samplePlain.drop 16)

end Hash

end

end PqPsi.Permutation.Hctr2
