import PqPsi.Lib.Words
import PqPsi.Permutation.Hctr2

/-!
# What the hash of HCTR2 absorbs

The prefix states of a key absorb a length block and the tweak padded with
zeros; `hash` goes on with the message, padded with a one and zeros when its last
block is incomplete. The length block tells the length of the tweak and which of
the two paddings the message has, so nothing else absorbs the same blocks.
-/
namespace PqPsi.Permutation.Hctr2
open Lib.BitStream Lib.Buffers Lib.Words

section Words

theorem getLsbD_load64 (bs : List Byte) {i : ℕ} (hi : i < 64) :
    (load64 bs).getLsbD i = bitAt bs i := by
  have hloop : ∀ n ≤ 8, ((List.range n).foldl
      (fun x i => x ||| (bs.getD i 0).setWidth 64 <<< (8 * i)) (0 : U64)).getLsbD i =
      (decide (i < 8 * n) && bitAt bs i) := by
    intro n
    induction n with
    | zero => simp
    | succ n ih =>
      intro hn
      rw [List.range_succ, List.foldl_append, List.foldl_cons, List.foldl_nil, BitVec.getLsbD_or,
        ih (by omega), getLsbD_byteAt _ _ hi]
      by_cases hn' : i / 8 = n
      · have hlt : i < 8 * (n + 1) := by omega
        have hge : ¬ i < 8 * n := by omega
        simp [hlt, hge, hn', bitAt]
      · have hlt : i < 8 * (n + 1) ↔ i < 8 * n := by omega
        simp [hlt, hn']
  have hall := hloop 8 le_rfl
  rwa [decide_eq_true (by omega), Bool.true_and] at hall

@[simp] theorem length_store64 (x : U64) : (store64 x).length = 8 := by simp [store64]

theorem bitAt_store64 (x : U64) {i : ℕ} (hi : i < 64) : bitAt (store64 x) i = x.getLsbD i := by
  have hmod : i % 8 < 8 := Nat.mod_lt i (by norm_num)
  have hmask : (0xff : U64).getLsbD (i % 8) = true := by
    interval_cases i % 8 <;> rfl
  have hget : (store64 x).getD (i / 8) 0 = (x >>> (8 * (i / 8)) &&& 0xff).setWidth 8 := by
    rw [List.getD_eq_getElem _ _ (by rw [length_store64]; omega)]
    simp [store64]
  rw [bitAt, hget, BitVec.getLsbD_setWidth, BitVec.getLsbD_and, BitVec.getLsbD_ushiftRight, hmask,
    decide_eq_true hmod, Bool.true_and, Bool.and_true, Nat.div_add_mod]

/-- A block is the high word in front of the low word. -/
theorem toBlock_eq (x : U128) : toBlock x = x.hi ++ x.lo := by
  apply BitVec.eq_of_getLsbD_eq
  intro i hi
  rw [toBlock, getLsbD_blockOfBytes _ hi, store128, bitAt_append, BitVec.getLsbD_append,
    length_store64]
  split_ifs with h
  · exact bitAt_store64 x.lo h
  · exact bitAt_store64 x.hi (by omega)

theorem fromBlock_eq (b : Block) : fromBlock b = ⟨b.extractLsb' 0 64, b.extractLsb' 64 64⟩ := by
  apply U128.ext
  · apply BitVec.eq_of_getLsbD_eq
    intro i hi
    rw [BitVec.getLsbD_extractLsb', decide_eq_true hi, Bool.true_and, Nat.zero_add]
    exact (getLsbD_load64 _ hi).trans (bitAt_bytesOfBlock b (by omega))
  · apply BitVec.eq_of_getLsbD_eq
    intro i hi
    have hdrop : bitAt ((bytesOfBlock b).drop 8) i = bitAt (bytesOfBlock b) (64 + i) := by
      have hdiv : (64 + i) / 8 = 8 + i / 8 := by omega
      have hmod : (64 + i) % 8 = i % 8 := by omega
      rw [bitAt, bitAt, hdiv, hmod]
      simp
    rw [BitVec.getLsbD_extractLsb', decide_eq_true hi, Bool.true_and]
    exact (getLsbD_load64 _ hi).trans (hdrop.trans (bitAt_bytesOfBlock b (by omega)))

theorem toBlock_fromBlock (b : Block) : toBlock (fromBlock b) = b := by
  rw [toBlock_eq, fromBlock_eq]
  exact BitVec.extractLsb'_append_extractLsb'

end Words

section Blocks

/-- The bytes that complete a tweak: zeros. -/
def zeroFill (k : ℕ) : List Byte := List.replicate k 0

/-- The bytes that complete a message: a one and zeros. -/
def oneFill (k : ℕ) : List Byte := 1 :: List.replicate (k - 1) 0

/-- The full blocks of a byte string, and its last block completed by `fill` if there is one. -/
def padBlocks (fill : ℕ → List Byte) (bs : List Byte) : List Block :=
  blocksOf (bs.length / 16) bs ++
    if bs.length % 16 ≠ 0 then
      [blockOfBytes (bs.drop (bs.length / 16 * 16) ++ fill (16 - bs.length % 16))]
    else []

theorem length_padBlocks (fill : ℕ → List Byte) (bs : List Byte) :
    (padBlocks fill bs).length = (bs.length + 15) / 16 := by
  rw [padBlocks, List.length_append, length_blocksOf]
  split_ifs with h
  · rw [List.length_singleton]
    omega
  · rw [List.length_nil]
    omega

/-- The bytes of the blocks are the string and what completes it. -/
theorem bytesOf_padBlocks {fill : ℕ → List Byte} (hfill : ∀ k, 0 < k → (fill k).length = k)
    (bs : List Byte) :
    bytesOf (padBlocks fill bs) =
      bs ++ if bs.length % 16 ≠ 0 then fill (16 - bs.length % 16) else [] := by
  have hlen : (bs.take (16 * (bs.length / 16))).length = 16 * (bs.length / 16) := by
    rw [List.length_take]
    omega
  rw [padBlocks, bytesOf_append, ← blocksOf_take, bytesOf_blocksOf hlen]
  split_ifs with h
  · have hlast : (bs.drop (bs.length / 16 * 16) ++ fill (16 - bs.length % 16)).length = 16 := by
      rw [List.length_append, List.length_drop, hfill _ (by omega)]
      omega
    have hone : bytesOf [blockOfBytes (bs.drop (bs.length / 16 * 16) ++ fill (16 - bs.length % 16))] =
        bs.drop (bs.length / 16 * 16) ++ fill (16 - bs.length % 16) := by
      rw [bytesOf, List.flatMap_singleton, bytesOfBlock_blockOfBytes hlast]
    rw [hone, ← List.append_assoc, Nat.mul_comm, List.take_append_drop]
  · rw [List.take_of_length_le (by omega)]
    rfl

/-- The block in front: twice the length of the tweak in bits, and the modifier. -/
def lengthBlock (tweak : List Byte) (modifier : U64) : Block :=
  lowBlock (BitVec.ofNat 64 (tweak.length * 8 * 2) + modifier)

/-- The blocks that `initHash` and `hash` absorb for a tweak and a message. -/
def absorbed (tweak msg : List Byte) : List Block :=
  lengthBlock tweak (if msg.length % 16 = 0 then 2 else 3) ::
    (padBlocks zeroFill tweak ++ padBlocks oneFill msg)

end Blocks

section Absorbing
variable (table : MulTable)

/-- The hash state after a list of blocks. -/
def absorb (acc : U128) (blocks : List Block) : U128 :=
  blocks.foldl (fun acc b => mulFixed (acc ^^^ fromBlock b) table) acc

theorem fromBlock_blockOfBytes {bs : List Byte} (h : bs.length = 16) :
    fromBlock (blockOfBytes bs) = load128 bs := by
  rw [fromBlock, bytesOfBlock_blockOfBytes h]

theorem blocksOf_one {bs : List Byte} (h : bs.length = 16) : blocksOf 1 bs = [blockOfBytes bs] := by
  have htake : blocksOf 1 bs = [blockOfBytes (bs.take 16)] := rfl
  rw [htake, List.take_of_length_le h.le]

theorem update_eq_absorb {bs : List Byte} {count : ℕ} (h : 16 * count ≤ bs.length) (acc : U128) :
    update acc table bs count = absorb table acc (blocksOf count bs) := by
  induction count generalizing bs acc with
  | zero => rfl
  | succ n ih =>
    have hfirst : slice bs (0 * 16) 16 = bs.take 16 := by rw [slice, Nat.zero_mul, List.drop_zero]
    have hrest : ∀ i, slice bs ((i + 1) * 16) 16 = slice (bs.drop 16) (i * 16) 16 := by
      intro i
      rw [slice, slice, List.drop_drop]
      congr 2
      omega
    have hload : load128 (bs.take 16) = fromBlock (blockOfBytes (bs.take 16)) :=
      (fromBlock_blockOfBytes (by rw [List.length_take]; omega)).symm
    have hlen : 16 * n ≤ (bs.drop 16).length := by
      rw [List.length_drop]
      omega
    have hih := ih hlen (mulFixed (acc ^^^ fromBlock (blockOfBytes (bs.take 16))) table)
    rw [update, List.range_succ_eq_map, List.foldl_cons, List.foldl_map, hfirst, hload, blocksOf]
    simp only [Nat.succ_eq_add_one, hrest]
    exact hih

theorem absorb_append (acc : U128) (blocks blocks' : List Block) :
    absorb table acc (blocks ++ blocks') = absorb table (absorb table acc blocks) blocks' :=
  List.foldl_append

/-- Absorbing the full blocks and then the completed last one. -/
theorem absorb_padBlocks {fill : ℕ → List Byte} (hfill : ∀ k, 0 < k → (fill k).length = k)
    (acc : U128) (bs : List Byte) :
    absorb table acc (padBlocks fill bs) =
      let acc := update acc table bs (bs.length / 16)
      if bs.length % 16 ≠ 0 then
        update acc table (bs.drop (bs.length / 16 * 16) ++ fill (16 - bs.length % 16)) 1
      else acc := by
  have hfull : update acc table bs (bs.length / 16) =
      absorb table acc (blocksOf (bs.length / 16) bs) := update_eq_absorb table (by omega) acc
  rw [padBlocks, absorb_append, ← hfull]
  simp only
  split_ifs with h
  · have hlast : (bs.drop (bs.length / 16 * 16) ++ fill (16 - bs.length % 16)).length = 16 := by
      rw [List.length_append, List.length_drop, hfill _ (by omega)]
      omega
    generalize bs.drop (bs.length / 16 * 16) ++ fill (16 - bs.length % 16) = last at hlast ⊢
    rw [← blocksOf_one hlast, ← update_eq_absorb table (by omega)]
  · rfl

theorem length_zeroFill (k : ℕ) (_ : 0 < k) : (zeroFill k).length = k := List.length_replicate

theorem length_oneFill (k : ℕ) (hk : 0 < k) : (oneFill k).length = k := by
  rw [oneFill, List.length_cons, List.length_replicate]
  omega

theorem updatePaddedZero_eq_absorb (acc : U128) (tweak : List Byte) :
    updatePaddedZero acc table tweak = absorb table acc (padBlocks zeroFill tweak) := by
  have hrem : tweak.length - tweak.length % 16 = tweak.length / 16 * 16 := by omega
  rw [absorb_padBlocks table length_zeroFill, updatePaddedZero]
  simp only [hrem, zeroFill]

theorem initHash_eq_absorb (tweak : List Byte) (modifier : U64) :
    initHash table tweak modifier =
      absorb table ⟨0, 0⟩ (lengthBlock tweak modifier :: padBlocks zeroFill tweak) := by
  have hfirst : update ⟨0, 0⟩ table (bytesOfBlock (lengthBlock tweak modifier)) 1 =
      absorb table ⟨0, 0⟩ [lengthBlock tweak modifier] := by
    rw [update_eq_absorb table (by rw [length_bytesOfBlock]), blocksOf_one (length_bytesOfBlock _),
      blockOfBytes_bytesOfBlock]
  rw [initHash, updatePaddedZero_eq_absorb]
  exact congrArg (absorb table · (padBlocks zeroFill tweak)) hfirst

/-- The code absorbs these blocks in this order. -/
theorem hash_eq_absorb (lib : AesLib) (keyBytes : Block) (tweak msg : List Byte) :
    hash (makeKey lib keyBytes tweak) msg =
      toBlock (absorb (makeKey lib keyBytes tweak).table ⟨0, 0⟩ (absorbed tweak msg)) := by
  have hone : oneFill (16 - msg.length % 16) = 1 :: List.replicate (15 - msg.length % 16) 0 := by
    rw [oneFill]
    congr 2
    omega
  have hinit : (if msg.length % 16 = 0 then (makeKey lib keyBytes tweak).initDiv
      else (makeKey lib keyBytes tweak).initAwk) =
      initHash (makeKey lib keyBytes tweak).table tweak (if msg.length % 16 = 0 then 2 else 3) := by
    split_ifs <;> rfl
  rw [absorbed, ← List.cons_append, absorb_append, ← initHash_eq_absorb,
    absorb_padBlocks _ length_oneFill, hone, ← hinit, hash]
  simp only
  split_ifs <;> rfl

end Absorbing

section Injectivity

theorem lowBlock_eq (x : U64) : lowBlock x = 0#64 ++ x := by
  apply BitVec.eq_of_getLsbD_eq
  intro i hi
  rw [lowBlock, getLsbD_blockOfBytes _ hi, bitAt_append, BitVec.getLsbD_append, length_store64]
  split_ifs with h
  · exact bitAt_store64 x h
  · rw [BitVec.getLsbD_zero]
    exact bitAt_replicate_zero 8 (i - 64)

/-- The length block tells the length of the tweak from the modifier. -/
theorem lengthBlock_inj {tweak tweak' : List Byte} {b b' : Bool} (ht : tweak.length < 2 ^ 60)
    (ht' : tweak'.length < 2 ^ 60)
    (h : lengthBlock tweak (if b then 2 else 3) = lengthBlock tweak' (if b' then 2 else 3)) :
    tweak.length = tweak'.length ∧ b = b' := by
  have hval : ∀ (t : List Byte) (c : Bool), t.length < 2 ^ 60 →
      (lengthBlock t (if c then 2 else 3)).toNat = t.length * 16 + if c then 2 else 3 := by
    intro t c hlt
    rw [lengthBlock, lowBlock_eq, BitVec.toNat_append]
    cases c <;> simp <;> omega
  have hnat := congrArg BitVec.toNat h
  rw [hval tweak b ht, hval tweak' b' ht'] at hnat
  cases b <;> cases b' <;> simp at hnat ⊢ <;> omega

/-- Padding with zeros is injective at a known length. -/
theorem padBlocks_zeroFill_inj {bs bs' : List Byte} (hlen : bs.length = bs'.length)
    (h : padBlocks zeroFill bs = padBlocks zeroFill bs') : bs = bs' := by
  have hbytes := congrArg bytesOf h
  rw [bytesOf_padBlocks length_zeroFill, bytesOf_padBlocks length_zeroFill] at hbytes
  exact (List.append_inj hbytes hlen).1

/-- The one that ends a message is its last byte besides zeros. -/
theorem append_oneFill_inj {bs bs' : List Byte} {k k' : ℕ}
    (h : bs ++ oneFill k = bs' ++ oneFill k') : bs = bs' := by
  have hstrip : ∀ (bs : List Byte) (k : ℕ),
      ((bs ++ oneFill k).reverse.dropWhile (· = 0)).tail.reverse = bs := by
    intro bs k
    have hzeros : (bs ++ oneFill k).reverse = List.replicate (k - 1) 0 ++ 1 :: bs.reverse := by
      simp [oneFill]
    rw [hzeros, List.dropWhile_append]
    simp
  rw [← hstrip bs k, h, hstrip]

/-- Padding with a one is injective where it is known whether it was needed. -/
theorem padBlocks_oneFill_inj {bs bs' : List Byte} (hrem : bs.length % 16 = 0 ↔ bs'.length % 16 = 0)
    (h : padBlocks oneFill bs = padBlocks oneFill bs') : bs = bs' := by
  have hbytes := congrArg bytesOf h
  rw [bytesOf_padBlocks length_oneFill, bytesOf_padBlocks length_oneFill] at hbytes
  by_cases h0 : bs.length % 16 = 0
  · have h0' := hrem.mp h0
    simpa [h0, h0'] using hbytes
  · have h0' : ¬ bs'.length % 16 = 0 := fun hz => h0 (hrem.mpr hz)
    rw [if_pos h0, if_pos h0'] at hbytes
    exact append_oneFill_inj hbytes

/-- The encoding is injective: tweak and message are read back from the absorbed blocks. -/
theorem absorbed_injective (tweak tweak' msg msg' : List Byte) (ht : tweak.length < 2 ^ 60)
    (ht' : tweak'.length < 2 ^ 60) (_hm : msg.length < 2 ^ 60) (_hm' : msg'.length < 2 ^ 60)
    (h : absorbed tweak msg = absorbed tweak' msg') : tweak = tweak' ∧ msg = msg' := by
  obtain ⟨hhead, htail⟩ := List.cons.inj h
  have hmod : ∀ m : List Byte, (if m.length % 16 = 0 then (2 : U64) else 3) =
      if decide (m.length % 16 = 0) then 2 else 3 := by
    intro m
    simp only [decide_eq_true_eq]
  rw [hmod msg, hmod msg'] at hhead
  obtain ⟨hlen, hrem⟩ := lengthBlock_inj ht ht' hhead
  have hcount : (padBlocks zeroFill tweak).length = (padBlocks zeroFill tweak').length := by
    rw [length_padBlocks, length_padBlocks, hlen]
  obtain ⟨htweak, hmsg⟩ := List.append_inj htail hcount
  exact ⟨padBlocks_zeroFill_inj hlen htweak, padBlocks_oneFill_inj (decide_eq_decide.mp hrem) hmsg⟩

/-- A tweak of one byte and an incomplete block. -/
theorem absorbed_injective_sample :
    ([0x7f] : List Byte) = [0x7f] ∧ ([1, 0, 0] : List Byte) = [1, 0, 0] :=
  absorbed_injective [0x7f] [0x7f] [1, 0, 0] [1, 0, 0] (by decide) (by decide) (by decide)
    (by decide) rfl

end Injectivity

end PqPsi.Permutation.Hctr2
