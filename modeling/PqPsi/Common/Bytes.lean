import PqPsi.Common.Block
import PqPsi.Lib.BitStream

/-!
# Blocks and their memory images

Reading a row of blocks as bytes and writing these bytes back changes
nothing, in either direction. Byte strings are added with `zipWith`.
-/
namespace PqPsi
open Lib.BitStream

theorem bitAt_bytesOfBlock (b : Block) {p : ℕ} (hp : p < 128) :
    bitAt (bytesOfBlock b) p = b.getLsbD p := by
  have hget : (bytesOfBlock b).getD (p / 8) 0 = b.extractLsb' (8 * (p / 8)) 8 := by
    rw [List.getD_eq_getElem _ _ (by rw [length_bytesOfBlock]; omega)]
    simp [bytesOfBlock]
  have hmod : p % 8 < 8 := Nat.mod_lt p (by norm_num)
  rw [bitAt, hget, BitVec.getLsbD_extractLsb', decide_eq_true hmod, Bool.true_and, Nat.div_add_mod]

theorem getLsbD_blockOfBytes (bs : List Byte) {p : ℕ} (hp : p < 128) :
    (blockOfBytes bs).getLsbD p = bitAt bs p := by
  rw [blockOfBytes, BitVec.getLsbD_ofNat, decide_eq_true hp, Bool.true_and]
  exact testBit_ofBytes bs p

@[simp] theorem blockOfBytes_bytesOfBlock (b : Block) : blockOfBytes (bytesOfBlock b) = b := by
  apply BitVec.eq_of_getLsbD_eq
  intro p hp
  rw [getLsbD_blockOfBytes _ hp, bitAt_bytesOfBlock b hp]

theorem bytesOfBlock_blockOfBytes {bs : List Byte} (h : bs.length = 16) :
    bytesOfBlock (blockOfBytes bs) = bs := by
  apply ext_bitAt (by rw [length_bytesOfBlock, h])
  intro p hp
  rw [length_bytesOfBlock] at hp
  rw [bitAt_bytesOfBlock _ hp, getLsbD_blockOfBytes _ hp]

/-- Writing the bytes of a row back gives the row. -/
theorem blocksOf_bytesOf (row : List Block) : blocksOf row.length (bytesOf row) = row := by
  induction row with
  | nil => rfl
  | cons b row ih =>
    have hcons : bytesOf (b :: row) = bytesOfBlock b ++ bytesOf row := rfl
    have htake : (bytesOfBlock b ++ bytesOf row).take 16 = bytesOfBlock b := by
      rw [← length_bytesOfBlock b, List.take_left]
    have hdrop : (bytesOfBlock b ++ bytesOf row).drop 16 = bytesOf row := by
      rw [← length_bytesOfBlock b, List.drop_left]
    rw [hcons, List.length_cons, blocksOf, htake, hdrop, blockOfBytes_bytesOfBlock, ih]

/-- The bytes of a row written from bytes are these bytes. -/
theorem bytesOf_blocksOf {n : ℕ} {bs : List Byte} (h : bs.length = 16 * n) :
    bytesOf (blocksOf n bs) = bs := by
  induction n generalizing bs with
  | zero =>
    have hnil : bs = [] := List.eq_nil_of_length_eq_zero (by omega)
    rw [hnil]
    rfl
  | succ n ih =>
    have hcons : ∀ b (row : List Block), bytesOf (b :: row) = bytesOfBlock b ++ bytesOf row :=
      fun _ _ => rfl
    have htake : (bs.take 16).length = 16 := by
      rw [List.length_take]
      omega
    rw [blocksOf, hcons, bytesOfBlock_blockOfBytes htake, ih (by rw [List.length_drop]; omega),
      List.take_append_drop]

theorem bytesOf_append (row row' : List Block) : bytesOf (row ++ row') = bytesOf row ++ bytesOf row' :=
  List.flatMap_append

/-- A row is written from the front of the bytes. -/
theorem blocksOf_take (n : ℕ) (bs : List Byte) : blocksOf n (bs.take (16 * n)) = blocksOf n bs := by
  induction n generalizing bs with
  | zero => rfl
  | succ n ih =>
    have hdrop : (bs.take (16 * (n + 1))).drop 16 = (bs.drop 16).take (16 * n) := by
      rw [List.drop_take]
      congr 1
    rw [blocksOf, blocksOf, List.take_take, hdrop, ih, Nat.min_eq_left (by omega)]

/-- A string of bytes added twice cancels. -/
theorem zipWith_xor_cancel {xs ks : List Byte} (h : xs.length ≤ ks.length) :
    List.zipWith (· ^^^ ·) (List.zipWith (· ^^^ ·) xs ks) ks = xs := by
  induction xs generalizing ks with
  | nil => rfl
  | cons x xs ih =>
    cases ks with
    | nil => simp at h
    | cons k ks =>
      rw [List.zipWith_cons_cons, List.zipWith_cons_cons, ih (by simpa using h), BitVec.xor_assoc,
        BitVec.xor_self, BitVec.xor_zero]

end PqPsi
