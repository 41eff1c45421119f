import PqPsi.Common.Block
import PqPsi.Lib.BitStream
import PqPsi.Lib.Exceptions

/-!
# Coefficient packing

Public keys store two 12-bit coefficients in three bytes, ciphertexts store
`bitsPerValue` bits for each compressed coefficient, least significant bit
first and across byte boundaries. Coefficients are `u16` in the source; here
they are naturals that stay below `2 ^ 16`.
-/
namespace PqPsi.Kemeleon
open Lib.BitStream Lib.Exceptions

/-- The loop of `unpackPolyBytes`, three bytes at a time. -/
def unpackTriples : List Byte → List ℕ
  | b₀ :: b₁ :: b₂ :: src =>
    (b₀.toNat ||| (b₁.toNat &&& 0x0F) <<< 8) :: (b₁.toNat >>> 4 ||| b₂.toNat <<< 4) ::
      unpackTriples src
  | _ => []

def unpackPolyBytes (src : List Byte) : Except Err (List ℕ) := do
  throwIf (src.length % 3 ≠ 0) "Kemeleon poly bytes have unexpected size"
  return unpackTriples src

/-- The loop of `packPolyBytes`, two coefficients at a time. -/
def packPairs : List ℕ → List Byte
  | a₀ :: a₁ :: src =>
    BitVec.ofNat 8 (a₀ &&& 0xFF) :: BitVec.ofNat 8 (a₀ >>> 8 ||| (a₁ &&& 0x0F) <<< 4) ::
      BitVec.ofNat 8 (a₁ >>> 4) :: packPairs src
  | _ => []

def packPolyBytes (src : List ℕ) : Except Err (List Byte) := do
  throwIf (src.length % 2 ≠ 0) "Kemeleon coeff count has unexpected size"
  return packPairs src

/-- The inner loop of `unpackBits` and of `rejectZeroEntries`: the value at `bitPos`. -/
def readBits (src : List Byte) (bitsPerValue bitPos : ℕ) : ℕ :=
  (List.range bitsPerValue).foldl
    (fun x j => x ||| (bitAt src (bitPos + j)).toNat <<< j) 0

def unpackBits (src : List Byte) (bitsPerValue count : ℕ) : List ℕ :=
  (List.range count).map fun i => readBits src bitsPerValue (i * bitsPerValue)

def packBits (src : List ℕ) (bitsPerValue : ℕ) : List Byte :=
  let totalBits := src.length * bitsPerValue
  (List.range src.length).foldl (fun out i =>
    (List.range bitsPerValue).foldl (fun out j =>
      if (src.getD i 0).testBit j then setBit out (i * bitsPerValue + j) else out) out)
    (List.replicate ((totalBits + 7) / 8) 0)

section Triples

theorem or_shiftLeft_eq_add {a b i : ℕ} (h : a < 2 ^ i) : a ||| b <<< i = a + 2 ^ i * b := by
  rw [Nat.or_comm, Nat.shiftLeft_eq, Nat.mul_comm, ← Nat.two_pow_add_eq_or_of_lt h, Nat.add_comm]

theorem and_nibble (a : ℕ) : a &&& 0x0F = a % 16 := Nat.and_two_pow_sub_one_eq_mod a 4

theorem and_byte (a : ℕ) : a &&& 0xFF = a % 256 := Nat.and_two_pow_sub_one_eq_mod a 8

/-- The first coefficient of three bytes, in arithmetic. -/
theorem unpack_low (b₀ b₁ : Byte) :
    b₀.toNat ||| (b₁.toNat &&& 0x0F) <<< 8 = b₀.toNat + 256 * (b₁.toNat % 16) := by
  rw [or_shiftLeft_eq_add b₀.isLt, and_nibble]
  rfl

/-- The second coefficient of three bytes, in arithmetic. -/
theorem unpack_high (b₁ b₂ : Byte) :
    b₁.toNat >>> 4 ||| b₂.toNat <<< 4 = b₁.toNat / 16 + 16 * b₂.toNat := by
  have h₁ := b₁.isLt
  rw [Nat.shiftRight_eq_div_pow, or_shiftLeft_eq_add (by omega)]
  rfl

/-- The three bytes of two coefficients, in arithmetic. -/
theorem pack_triple {a₀ : ℕ} (a₁ : ℕ) (h₀ : a₀ < 4096) :
    a₀ &&& 0xFF = a₀ % 256 ∧ a₀ >>> 8 ||| (a₁ &&& 0x0F) <<< 4 = a₀ / 256 + 16 * (a₁ % 16) ∧
      a₁ >>> 4 = a₁ / 16 := by
  refine ⟨and_byte a₀, ?_, Nat.shiftRight_eq_div_pow a₁ 4⟩
  rw [Nat.shiftRight_eq_div_pow, and_nibble, or_shiftLeft_eq_add (by omega)]
  rfl

theorem length_unpackTriples : ∀ src : List Byte,
    (unpackTriples src).length = src.length / 3 * 2
  | [] => rfl
  | [_] => by simp [unpackTriples]
  | [_, _] => by simp [unpackTriples]
  | b₀ :: b₁ :: b₂ :: src => by
    rw [unpackTriples, List.length_cons, List.length_cons, length_unpackTriples src]
    simp only [List.length_cons]
    omega

theorem length_packPairs : ∀ src : List ℕ, (packPairs src).length = src.length / 2 * 3
  | [] => rfl
  | [_] => by simp [packPairs]
  | a₀ :: a₁ :: src => by
    rw [packPairs, List.length_cons, List.length_cons, List.length_cons, length_packPairs src]
    simp only [List.length_cons]
    omega

theorem packPairs_unpackTriples : ∀ src : List Byte, src.length % 3 = 0 →
    packPairs (unpackTriples src) = src
  | [], _ => rfl
  | [_], h => by simp at h
  | [_, _], h => by simp at h
  | b₀ :: b₁ :: b₂ :: src, h => by
    have h₀ := b₀.isLt
    have h₁ := b₁.isLt
    have h₂ := b₂.isLt
    have hpack := pack_triple (b₁.toNat / 16 + 16 * b₂.toNat)
      (show b₀.toNat + 256 * (b₁.toNat % 16) < 4096 by omega)
    rw [unpackTriples, unpack_low, unpack_high, packPairs, hpack.1, hpack.2.1, hpack.2.2,
      packPairs_unpackTriples src (by simp only [List.length_cons] at h; omega)]
    congr 1
    · apply BitVec.eq_of_toNat_eq
      rw [BitVec.toNat_ofNat]
      omega
    · congr 1
      · apply BitVec.eq_of_toNat_eq
        rw [BitVec.toNat_ofNat]
        omega
      · congr 1
        apply BitVec.eq_of_toNat_eq
        rw [BitVec.toNat_ofNat]
        omega

theorem unpackTriples_packPairs : ∀ src : List ℕ, src.length % 2 = 0 → (∀ t ∈ src, t < 4096) →
    unpackTriples (packPairs src) = src
  | [], _, _ => rfl
  | [_], h, _ => by simp at h
  | a₀ :: a₁ :: src, h, hlt => by
    have h₀ := hlt a₀ (by simp)
    have h₁ := hlt a₁ (by simp)
    obtain ⟨hb₀, hb₁, hb₂⟩ := pack_triple a₁ h₀
    rw [packPairs, hb₀, hb₁, hb₂, unpackTriples, unpack_low, unpack_high,
      unpackTriples_packPairs src (by simp only [List.length_cons] at h; omega)
        (fun t ht => hlt t (by simp [ht]))]
    simp only [BitVec.toNat_ofNat]
    congr 1
    · omega
    · congr 1
      omega

end Triples

section Bits

theorem testBit_readBits (src : List Byte) (bitsPerValue bitPos k : ℕ) :
    (readBits src bitsPerValue bitPos).testBit k =
      (decide (k < bitsPerValue) && bitAt src (bitPos + k)) :=
  testBit_foldl_or (fun j => bitAt src (bitPos + j)) bitsPerValue k

theorem readBits_lt (src : List Byte) (bitsPerValue bitPos : ℕ) :
    readBits src bitsPerValue bitPos < 2 ^ bitsPerValue := by
  apply Nat.lt_pow_two_of_testBit
  intro k hk
  rw [testBit_readBits, decide_eq_false (by omega), Bool.false_and]

@[simp] theorem length_unpackBits (src : List Byte) (bitsPerValue count : ℕ) :
    (unpackBits src bitsPerValue count).length = count := by
  simp [unpackBits]

theorem getElem_unpackBits {src : List Byte} {bitsPerValue count i : ℕ}
    (h : i < (unpackBits src bitsPerValue count).length) :
    (unpackBits src bitsPerValue count)[i] = readBits src bitsPerValue (i * bitsPerValue) := by
  simp [unpackBits]

theorem unpackBits_lt {src : List Byte} {bitsPerValue count : ℕ} :
    ∀ x ∈ unpackBits src bitsPerValue count, x < 2 ^ bitsPerValue := by
  intro x hx
  obtain ⟨i, -, rfl⟩ := List.mem_map.mp hx
  exact readBits_lt _ _ _

/-- The two nested loops of `packBits` as one loop over pairs. -/
theorem packBits_eq (src : List ℕ) (bitsPerValue : ℕ) :
    packBits src bitsPerValue =
      ((List.range src.length).flatMap fun i => (List.range bitsPerValue).map fun j => (i, j)).foldl
        (fun out a => if (src.getD a.1 0).testBit a.2 then setBit out (a.1 * bitsPerValue + a.2)
          else out) (List.replicate ((src.length * bitsPerValue + 7) / 8) 0) := by
  rw [packBits, List.foldl_flatMap]
  simp only [List.foldl_map]

@[simp] theorem length_packBits (src : List ℕ) (bitsPerValue : ℕ) :
    (packBits src bitsPerValue).length = (src.length * bitsPerValue + 7) / 8 := by
  rw [packBits_eq, length_foldl_setBit, List.length_replicate]

theorem bitAt_packBits (src : List ℕ) {bitsPerValue : ℕ} (hpos : 0 < bitsPerValue) (p : ℕ) :
    bitAt (packBits src bitsPerValue) p = (decide (p < src.length * bitsPerValue) &&
      (src.getD (p / bitsPerValue) 0).testBit (p % bitsPerValue)) := by
  have hmem : ∀ a ∈ (List.range src.length).flatMap fun i =>
      (List.range bitsPerValue).map fun j => (i, j),
      a.1 < src.length ∧ a.2 < bitsPerValue := by
    intro a ha
    simp only [List.mem_flatMap, List.mem_map, List.mem_range] at ha
    obtain ⟨i, hi, j, hj, rfl⟩ := ha
    exact ⟨hi, hj⟩
  have hbound : ∀ i < src.length, ∀ j < bitsPerValue,
      i * bitsPerValue + j < src.length * bitsPerValue := by
    intro i hi j hj
    calc i * bitsPerValue + j < (i + 1) * bitsPerValue := by rw [Nat.succ_mul]; omega
      _ ≤ src.length * bitsPerValue := Nat.mul_le_mul_right _ hi
  rw [packBits_eq, bitAt_foldl_setBit]
  · have hrep : bitAt (List.replicate ((src.length * bitsPerValue + 7) / 8) (0 : Byte)) p = false :=
      bitAt_replicate_zero _ _
    rw [hrep, Bool.false_or]
    apply Bool.eq_iff_iff.mpr
    simp only [List.any_eq_true, Bool.and_eq_true, decide_eq_true_eq]
    constructor
    · rintro ⟨a, ha, hbit, rfl⟩
      obtain ⟨hi, hj⟩ := hmem a ha
      refine ⟨hbound _ hi _ hj, ?_⟩
      rwa [Nat.mul_comm, Nat.mul_add_div hpos, Nat.div_eq_of_lt hj, Nat.add_zero,
        Nat.mul_add_mod, Nat.mod_eq_of_lt hj]
    · rintro ⟨hp, hbit⟩
      have hi : p / bitsPerValue < src.length := by
        rw [Nat.div_lt_iff_lt_mul hpos]
        exact hp
      have hj := Nat.mod_lt p hpos
      refine ⟨(p / bitsPerValue, p % bitsPerValue), ?_, hbit, ?_⟩
      · simp only [List.mem_flatMap, List.mem_map, List.mem_range]
        exact ⟨_, hi, _, hj, rfl⟩
      · rw [Nat.mul_comm]
        exact (Nat.div_add_mod p bitsPerValue).symm
  · intro a ha
    obtain ⟨hi, hj⟩ := hmem a ha
    have hb := hbound _ hi _ hj
    rw [List.length_replicate]
    omega

/-- Unpacking gives back packed values. -/
theorem unpackBits_packBits {src : List ℕ} {bitsPerValue : ℕ} (hpos : 0 < bitsPerValue)
    (h : ∀ x ∈ src, x < 2 ^ bitsPerValue) :
    unpackBits (packBits src bitsPerValue) bitsPerValue src.length = src := by
  apply List.ext_getElem (by simp)
  intro i hi hi'
  rw [getElem_unpackBits]
  apply Nat.eq_of_testBit_eq
  intro k
  rw [testBit_readBits, bitAt_packBits src hpos]
  by_cases hk : k < bitsPerValue
  · have hb : i * bitsPerValue + k < src.length * bitsPerValue :=
      calc i * bitsPerValue + k < (i + 1) * bitsPerValue := by rw [Nat.succ_mul]; omega
        _ ≤ src.length * bitsPerValue := Nat.mul_le_mul_right _ hi'
    rw [decide_eq_true hk, decide_eq_true hb, Bool.true_and, Bool.true_and, Nat.mul_comm,
      Nat.mul_add_div hpos, Nat.div_eq_of_lt hk, Nat.add_zero, Nat.mul_add_mod,
      Nat.mod_eq_of_lt hk, List.getD_eq_getElem _ _ hi']
  · rw [decide_eq_false hk, Bool.false_and]
    exact (Nat.testBit_lt_two_pow (lt_of_lt_of_le (h _ (List.getElem_mem hi'))
      (Nat.pow_le_pow_right two_pos (by omega)))).symm

/-- Packing gives back unpacked bytes. -/
theorem packBits_unpackBits {src : List Byte} {bitsPerValue count : ℕ} (hpos : 0 < bitsPerValue)
    (h : 8 * src.length = count * bitsPerValue) :
    packBits (unpackBits src bitsPerValue count) bitsPerValue = src := by
  apply ext_bitAt
  · rw [length_packBits, length_unpackBits]
    omega
  intro p hp
  rw [length_packBits, length_unpackBits] at hp
  have hlt : p < count * bitsPerValue := by omega
  have hi : p / bitsPerValue < count := by
    rw [Nat.div_lt_iff_lt_mul hpos]
    exact hlt
  rw [bitAt_packBits _ hpos, length_unpackBits, decide_eq_true hlt, Bool.true_and,
    List.getD_eq_getElem _ _ (by rw [length_unpackBits]; exact hi), getElem_unpackBits,
    testBit_readBits, decide_eq_true (Nat.mod_lt p hpos), Bool.true_and,
    Nat.mul_comm, Nat.div_add_mod]

end Bits

end PqPsi.Kemeleon
