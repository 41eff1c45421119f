import Mathlib.GroupTheory.Perm.List
import PqPsi.Permutation.Hctr2

/-!
# HCTR2 decryption inverts encryption

The counter stream depends on the nonce and the length only, and both
directions build the nonce from the same two blocks.
-/
namespace PqPsi.Permutation.Hctr2
open Lib.Buffers Lib.Exceptions

section Stream

/-- The first `n` encrypted counters. -/
def streamBlocks (aes : Aes) (nonce : Block) (n : ℕ) : List Block :=
  (List.range n).map fun i => aes.enc (counter (i + 1) nonce)

@[simp] theorem length_streamBlocks (aes : Aes) (nonce : Block) (n : ℕ) :
    (streamBlocks aes nonce n).length = n := by
  simp [streamBlocks]

/-- The stream over `len` bytes, rounded up to whole blocks. -/
def keyStream (aes : Aes) (nonce : Block) (len : ℕ) : List Byte :=
  bytesOf (streamBlocks aes nonce ((len + 15) / 16))

theorem le_length_keyStream (aes : Aes) (nonce : Block) (len : ℕ) :
    len ≤ (keyStream aes nonce len).length := by
  rw [keyStream, length_bytesOf, length_streamBlocks]
  omega

/-- The loop that fills the counters stays inside the buffer. -/
theorem foldlM_writeBlock (f : ℕ → Block) {size n : ℕ} (h : n ≤ size) :
    (List.range n).foldlM (fun buf i => writeBlock buf i (f i)) (List.replicate size 0) =
      .ok ((List.range n).map f ++ List.replicate (size - n) 0) := by
  induction n with
  | zero => rfl
  | succ n ih =>
    have hlen : n < ((List.range n).map f ++ List.replicate (size - n) (0 : Block)).length := by
      simp only [List.length_append, List.length_map, List.length_range, List.length_replicate]
      omega
    have hrest : List.replicate (size - n) (0 : Block) = 0 :: List.replicate (size - (n + 1)) 0 := by
      rw [← List.replicate_succ]
      congr 1
      omega
    have hset : ((List.range n).map f ++ List.replicate (size - n) (0 : Block)).set n (f n) =
        (List.range (n + 1)).map f ++ List.replicate (size - (n + 1)) 0 := by
      rw [List.set_append_right _ _ (by simp), hrest, List.length_map, List.length_range,
        Nat.sub_self, List.set_cons_zero, List.range_succ, List.map_append]
      simp
    rw [List.range_succ, List.foldlM_append, ih (by omega)]
    simp only [ok_bind, List.foldlM_cons, List.foldlM_nil, writeBlock, if_pos hlen, hset, pure_eq_ok,
      List.range_succ, List.map_append]

/-- `AesLib` as the code relies on it: decryption inverts encryption, and a batch is encrypted
block by block. -/
structure AesLib.Lawful (lib : AesLib) : Prop where
  dec_enc : ∀ key b, lib.ecbDecBlock key (lib.ecbEncBlock key b) = b
  encBlocks_eq : ∀ key bs, lib.ecbEncBlocks key bs = bs.map (lib.ecbEncBlock key)

/-- On a finite set of blocks a left inverse is a right inverse. -/
theorem AesLib.Lawful.enc_dec {lib : AesLib} (h : lib.Lawful) (key b : Block) :
    lib.ecbEncBlock key (lib.ecbDecBlock key b) = b := by
  have hinj : Function.Injective (lib.ecbEncBlock key) :=
    Function.LeftInverse.injective (h.dec_enc key)
  have : Finite Block := Finite.of_injective BitVec.toFin fun _ _ => BitVec.eq_of_toFin_eq
  obtain ⟨x, rfl⟩ := Finite.surjective_of_injective hinj b
  rw [h.dec_enc]

/-- What is left of a longer list does not matter. -/
theorem zipWith_xor_append {xs ks : List Byte} (h : xs.length = ks.length) (rest : List Byte) :
    List.zipWith (· ^^^ ·) xs (ks ++ rest) = List.zipWith (· ^^^ ·) xs ks := by
  have happ : List.zipWith (· ^^^ ·) (xs ++ []) (ks ++ rest) =
      List.zipWith (· ^^^ ·) xs ks ++ List.zipWith (· ^^^ ·) [] rest := List.zipWith_append h
  simpa using happ

theorem xctr_eq {aes : Aes} (h : aes.lib.Lawful) {input : List Byte} (nonce : Block)
    (hfull : input.length / 16 ≤ bufferBlocks) :
    xctr aes input nonce =
      .ok (List.zipWith (· ^^^ ·) input (keyStream aes nonce input.length)) := by
  have hcounters := foldlM_writeBlock (fun i => counter (i + 1) nonce) hfull
  have hlen : ((List.range (input.length / 16)).map fun i => counter (i + 1) nonce).length =
      input.length / 16 := by simp
  have hstream : aes.encBlocks ((List.range (input.length / 16)).map fun i => counter (i + 1) nonce) =
      streamBlocks aes nonce (input.length / 16) := by
    rw [Aes.encBlocks, h.encBlocks_eq, List.map_map]
    rfl
  have htake : (input.take (input.length / 16 * 16)).length =
      (bytesOf (streamBlocks aes nonce (input.length / 16))).length := by
    rw [length_bytesOf, length_streamBlocks, List.length_take]
    omega
  have hfront : (if input.length / 16 ≠ 0 then
        List.zipWith (· ^^^ ·) (input.take (input.length / 16 * 16))
          (bytesOf (splice (List.replicate bufferBlocks 0) 0
            (streamBlocks aes nonce (input.length / 16))))
      else []) =
      List.zipWith (· ^^^ ·) (input.take (input.length / 16 * 16))
        (bytesOf (streamBlocks aes nonce (input.length / 16))) := by
    split_ifs with hz
    · rw [splice, List.take_zero, List.nil_append, bytesOf_append, zipWith_xor_append htake]
    · rw [not_not.mp hz, Nat.zero_mul, List.take_zero, List.zipWith_nil_left]
  simp only [xctr, hcounters, ok_bind, List.take_left' hlen, hstream, hfront, keyStream]
  by_cases hrem : input.length % 16 = 0
  · have hup : (input.length + 15) / 16 = input.length / 16 := by omega
    rw [if_neg (not_not.mpr hrem), hup, List.take_of_length_le (by omega)]
    rfl
  · have hup : (input.length + 15) / 16 = input.length / 16 + 1 := by omega
    have hlast : streamBlocks aes nonce (input.length / 16 + 1) =
        streamBlocks aes nonce (input.length / 16) ++
          [aes.enc (counter (input.length / 16 + 1) nonce)] := by
      rw [streamBlocks, List.range_succ, List.map_append]
      rfl
    have hjoin : ∀ last : List Byte,
        List.zipWith (· ^^^ ·) (input.take (input.length / 16 * 16) ++
          input.drop (input.length / 16 * 16))
          (bytesOf (streamBlocks aes nonce (input.length / 16)) ++ last) =
        List.zipWith (· ^^^ ·) (input.take (input.length / 16 * 16))
          (bytesOf (streamBlocks aes nonce (input.length / 16))) ++
        List.zipWith (· ^^^ ·) (input.drop (input.length / 16 * 16)) last :=
      fun last => List.zipWith_append htake
    simp only [List.take_append_drop] at hjoin
    rw [if_pos hrem, hup, hlast, bytesOf_append, pure_eq_ok, hjoin]
    simp [bytesOf]

end Stream

section Crypt

theorem length_zipWith_keyStream (aes : Aes) (nonce : Block) (input : List Byte) :
    (List.zipWith (· ^^^ ·) input (keyStream aes nonce input.length)).length = input.length := by
  have hle := le_length_keyStream aes nonce input.length
  rw [List.length_zipWith]
  omega

/-- The block cipher in the direction of the call. -/
def Aes.dir (aes : Aes) (encrypt : Bool) (b : Block) : Block :=
  if encrypt then aes.enc b else aes.dec b

theorem Aes.dir_dir {aes : Aes} (h : aes.lib.Lawful) (encrypt : Bool) (b : Block) :
    aes.dir (!encrypt) (aes.dir encrypt b) = b := by
  cases encrypt with
  | true => exact h.dec_enc aes.key b
  | false => exact h.enc_dec aes.key b

theorem crypt_eq {key : Key} (h : key.aes.lib.Lawful) {data tail : List Byte} {x y : Block}
    (hlen : 16 ≤ data.length) (hfull : (data.length - 16) / 16 ≤ bufferBlocks) (encrypt : Bool)
    (hx : blockOfBytes (data.take 16) ^^^ hash key (data.drop 16) = x)
    (hy : key.aes.dir encrypt x = y)
    (ht : List.zipWith (· ^^^ ·) (data.drop 16)
      (keyStream key.aes (x ^^^ y ^^^ key.l) (data.drop 16).length) = tail) :
    crypt data key encrypt = .ok (bytesOfBlock (y ^^^ hash key tail) ++ tail) := by
  have hshort : ¬ data.length < 16 := by omega
  have htail : (data.drop 16).length / 16 ≤ bufferBlocks := by rwa [List.length_drop]
  subst ht hy hx
  rw [crypt, throwIf, if_neg hshort, ok_bind]
  cases encrypt with
  | true =>
    simp only [xctr_eq h _ htail]
    rfl
  | false =>
    simp only [xctr_eq h _ htail, Bool.false_eq_true, if_false, Aes.dir,
      BitVec.xor_comm (key.aes.dec _)]
    rfl

/-- One direction undoes the other: it starts from the block that the other one ended with, and
its nonce is the sum of the same two blocks. -/
theorem crypt_crypt {key : Key} (h : key.aes.lib.Lawful) {data : List Byte}
    (hlen : 16 ≤ data.length) (hfull : (data.length - 16) / 16 ≤ bufferBlocks) (encrypt : Bool) :
    (crypt data key encrypt >>= fun y => crypt y key !encrypt) = .ok data := by
  obtain ⟨x, hx⟩ : ∃ x, blockOfBytes (data.take 16) ^^^ hash key (data.drop 16) = x := ⟨_, rfl⟩
  obtain ⟨y, hy⟩ : ∃ y, key.aes.dir encrypt x = y := ⟨_, rfl⟩
  obtain ⟨tail, ht⟩ : ∃ tail, List.zipWith (· ^^^ ·) (data.drop 16)
    (keyStream key.aes (x ^^^ y ^^^ key.l) (data.drop 16).length) = tail := ⟨_, rfl⟩
  have htail : tail.length = (data.drop 16).length := by rw [← ht, length_zipWith_keyStream]
  have hhead : (bytesOfBlock (y ^^^ hash key tail)).length = 16 := length_bytesOfBlock _
  have hsize : (bytesOfBlock (y ^^^ hash key tail) ++ tail).length = data.length := by
    rw [List.length_append, hhead, htail, List.length_drop]
    omega
  have hx' : blockOfBytes ((bytesOfBlock (y ^^^ hash key tail) ++ tail).take 16) ^^^
      hash key ((bytesOfBlock (y ^^^ hash key tail) ++ tail).drop 16) = y := by
    rw [List.take_left' hhead, List.drop_left' hhead, blockOfBytes_bytesOfBlock, BitVec.xor_assoc,
      BitVec.xor_self, BitVec.xor_zero]
  have hy' : key.aes.dir (!encrypt) y = x := by rw [← hy, Aes.dir_dir h]
  have ht' : List.zipWith (· ^^^ ·) ((bytesOfBlock (y ^^^ hash key tail) ++ tail).drop 16)
      (keyStream key.aes (y ^^^ x ^^^ key.l)
        ((bytesOfBlock (y ^^^ hash key tail) ++ tail).drop 16).length) = data.drop 16 := by
    rw [List.drop_left' hhead, htail, BitVec.xor_comm y x, ← ht,
      zipWith_xor_cancel (le_length_keyStream _ _ _)]
  rw [crypt_eq h hlen hfull encrypt hx hy ht, ok_bind,
    crypt_eq h (by omega) (by omega) (!encrypt) hx' hy' ht', ← hx, BitVec.xor_assoc,
    BitVec.xor_self, BitVec.xor_zero, bytesOfBlock_blockOfBytes (by rw [List.length_take]; omega),
    List.take_append_drop]

/-- Decryption after encryption, and encryption after decryption, restore every message whose
full blocks fit the counter buffer. -/
theorem crypt_inverts {lib : AesLib} (hlib : lib.Lawful) (keyBytes : Block) (tweak msg : List Byte)
    (hlen : 16 ≤ msg.length) (hfull : (msg.length - 16) / 16 ≤ 50) :
    (crypt msg (makeKey lib keyBytes tweak) true >>=
        fun y => crypt y (makeKey lib keyBytes tweak) false) = .ok msg ∧
      (crypt msg (makeKey lib keyBytes tweak) false >>=
        fun y => crypt y (makeKey lib keyBytes tweak) true) = .ok msg :=
  ⟨crypt_crypt hlib hlen hfull true, crypt_crypt hlib hlen hfull false⟩

/-- AES under the key of the second test vector, at the blocks that both directions meet. -/
def sampleAes : Equiv.Perm Block :=
  List.formPerm [0x0, 0x29052c2a9ae5b44f4d1976f67f8f546c] *
  List.formPerm [0x1, 0x2aeb50d8e4a9e7c892f98db55adbd4a7] *
  List.formPerm [0x45338db739e7880ac4c266f8936405ed, 0x2ae9be1c68dd64e7e45ade8e6817fdad,
    0x9de42312f050a7bde7cff555f504e312] *
  List.formPerm [0x9de6cdd67c242492916ca66ec7c8ca19, 0xf4c852cda20442fec5e23ffa1b923785] *
  List.formPerm [0x45316373b5930b25b26135c3a1a82ce6, 0x2f7863c0b02c8d4397161c5904471739]

def sampleLib : AesLib where
  ecbEncBlock _ b := sampleAes b
  ecbEncBlocks _ bs := bs.map sampleAes
  ecbDecBlock _ b := sampleAes.symm b

theorem sampleLib_lawful : sampleLib.Lawful where
  dec_enc _ b := sampleAes.symm_apply_apply b
  encBlocks_eq _ _ := rfl

/-- The plaintext of the second test vector: one block and fifteen bytes. -/
def samplePlain : List Byte :=
  [0x99, 0xd5, 0xcb, 0xe3, 0x0b, 0x34, 0x03, 0x7f, 0x65, 0x5f, 0x60, 0xfa, 0xd0, 0x17, 0x66, 0x7f,
    0x7a, 0x33, 0x1e, 0x94, 0x1c, 0x3a, 0xe9, 0xee, 0xba, 0xe0, 0x94, 0x58, 0xe6, 0xa1, 0x36]

def sampleKey : Block := 0x19591aea74f3bdff0ed10afef8a6368d

theorem crypt_inverts_sample :
    (crypt samplePlain (makeKey sampleLib sampleKey []) true >>=
        fun y => crypt y (makeKey sampleLib sampleKey []) false) = .ok samplePlain ∧
      (crypt samplePlain (makeKey sampleLib sampleKey []) false >>=
        fun y => crypt y (makeKey sampleLib sampleKey []) true) = .ok samplePlain :=
  crypt_inverts sampleLib_lawful sampleKey [] samplePlain (by decide) (by decide)

end Crypt

end PqPsi.Permutation.Hctr2
