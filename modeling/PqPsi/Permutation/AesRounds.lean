import PqPsi.Common.Bytes
import PqPsi.Permutation.Aes

/-!
# AES computes the cipher of the standard

The register of a round is the state of the cipher, and the round keys are the
words of the expanded key. Decryption runs the equivalent inverse cipher, for
every key, and the batches encrypt block by block.
-/
namespace PqPsi.Permutation.Aes
open Lib.BitStream Lib.Buffers Lib.Rijndael

section Registers
variable (a b : Block)

theorem ofFn_bytesAt : List.ofFn (bytesAt b) = bytesOfBlock b := by
  apply List.ext_getElem
  · rw [List.length_ofFn, length_bytesOfBlock]
  · intro i _ _
    rw [List.getElem_ofFn]
    simp [bytesOfBlock, bytesAt]

@[simp] theorem ofBytesAt_bytesAt : ofBytesAt (bytesAt b) = b := by
  rw [ofBytesAt, ofFn_bytesAt, blockOfBytes_bytesOfBlock]

@[simp] theorem bytesAt_ofBytesAt (s : State) : bytesAt (ofBytesAt s) = s := by
  apply List.ofFn_injective
  rw [ofFn_bytesAt, ofBytesAt, bytesOfBlock_blockOfBytes (List.length_ofFn)]

theorem bytesAt_injective (h : bytesAt a = bytesAt b) : a = b := by
  rw [← ofBytesAt_bytesAt a, h, ofBytesAt_bytesAt]

theorem bytesAt_xor : bytesAt (a ^^^ b) = addRoundKey (bytesAt a) (bytesAt b) := by
  funext i
  exact BitVec.extractLsb'_xor

@[simp] theorem bytesAt_onBlock (f : State → State) : bytesAt (onBlock f a) = f (bytesAt a) :=
  bytesAt_ofBytesAt _

end Registers

section KeySchedule

/-- Word `c` of a register. -/
def wordAt (b : Block) (c : ℕ) : BitVec 32 := b.extractLsb' (32 * c) 32

/-- Byte `r` of a word. -/
def byteOf (x : BitVec 32) (r : ℕ) : Byte := x.extractLsb' (8 * r) 8

theorem byteOf_xor (x y : BitVec 32) (r : ℕ) : byteOf (x ^^^ y) r = byteOf x r ^^^ byteOf y r :=
  BitVec.extractLsb'_xor

theorem wordAt_xor (a b : Block) (c : ℕ) : wordAt (a ^^^ b) c = wordAt a c ^^^ wordAt b c :=
  BitVec.extractLsb'_xor

theorem byteOf_wordAt (b : Block) {r c : ℕ} (hr : r < 4) (hc : c < 4) :
    byteOf (wordAt b c) r = bytesAt b (place r c) := by
  apply BitVec.eq_of_getLsbD_eq
  intro i hi
  have hplace : 8 * (place r c).val + i = 32 * c + (8 * r + i) := by
    simp only [place, Fin.val_ofNat]
    omega
  have hlt : 8 * r + i < 32 := by omega
  rw [byteOf, wordAt, bytesAt]
  simp only [BitVec.getLsbD_extractLsb', hi, decide_true, Bool.true_and, hlt, hplace]

theorem wordAt_shiftLeft_zero (b : Block) : wordAt (b <<< 32) 0 = 0 := by
  apply BitVec.eq_of_getLsbD_eq
  intro i hi
  simp [wordAt, hi]

theorem wordAt_shiftLeft_succ (b : Block) {c : ℕ} (hc : c < 3) :
    wordAt (b <<< 32) (c + 1) = wordAt b c := by
  apply BitVec.eq_of_getLsbD_eq
  intro i hi
  have hlt : 32 * (c + 1) + i < 128 := by omega
  have hge : ¬ 32 * (c + 1) + i < 32 := by omega
  have hsub : 32 * (c + 1) + i - 32 = 32 * c + i := by omega
  simp only [wordAt, BitVec.getLsbD_extractLsb', BitVec.getLsbD_shiftLeft, hi, hlt, hge, hsub,
    decide_true, decide_false, Bool.not_false, Bool.true_and]

theorem wordAt_shuffle3333 (a : Block) {c : ℕ} (hc : c < 4) : wordAt (shuffle3333 a) c = wordAt a 3 := by
  apply BitVec.eq_of_getLsbD_eq
  intro i hi
  have hread : ∀ p, (shuffle3333 a).getLsbD p =
      if p < 32 then (wordAt a 3).getLsbD p
      else if p - 32 < 32 then (wordAt a 3).getLsbD (p - 32)
      else if p - 32 - 32 < 32 then (wordAt a 3).getLsbD (p - 32 - 32)
      else (wordAt a 3).getLsbD (p - 32 - 32 - 32) := by
    intro p
    simp only [shuffle3333, BitVec.getLsbD_append, wordAt]
  have hcases : c = 0 ∨ c = 1 ∨ c = 2 ∨ c = 3 := by omega
  rw [wordAt, BitVec.getLsbD_extractLsb', decide_eq_true hi, Bool.true_and, hread]
  rcases hcases with rfl | rfl | rfl | rfl
  · rw [if_pos (by omega), Nat.mul_zero, Nat.zero_add]
  · rw [if_neg (by omega), if_pos (by omega), Nat.add_sub_cancel_left]
  · rw [if_neg (by omega), if_neg (by omega), if_pos (by omega)]
    congr 1
    omega
  · rw [if_neg (by omega), if_neg (by omega), if_neg (by omega)]
    congr 1
    omega

theorem wordAt_addShifted_zero (b : Block) : wordAt (b ^^^ b <<< 32) 0 = wordAt b 0 := by
  rw [wordAt_xor, wordAt_shiftLeft_zero]
  exact BitVec.xor_zero

theorem wordAt_addShifted_succ (b : Block) {c : ℕ} (hc : c < 3) :
    wordAt (b ^^^ b <<< 32) (c + 1) = wordAt b (c + 1) ^^^ wordAt b c := by
  rw [wordAt_xor, wordAt_shiftLeft_succ b hc]

/-- Adding a shifted copy twice shifts twice as far. -/
theorem addShifted_addShifted (b : Block) (n : ℕ) :
    b ^^^ b <<< n ^^^ (b ^^^ b <<< n) <<< n = b ^^^ b <<< (n + n) := by
  rw [BitVec.shiftLeft_xor_distrib, ← BitVec.shiftLeft_add, BitVec.xor_assoc,
    ← BitVec.xor_assoc (b <<< n), BitVec.xor_self, BitVec.zero_xor]

/-- The fourth addition shifts everything out, so three of them give each word the sum of the
words up to it. -/
theorem addShifted_four (b : Block) : ∃ y, y = b ^^^ b <<< 32 ^^^ (b ^^^ b <<< 32) <<< 32 ^^^
    (b ^^^ b <<< 32 ^^^ (b ^^^ b <<< 32) <<< 32) <<< 32 ∧ y ^^^ y <<< 32 = b := by
  refine ⟨_, rfl, ?_⟩
  have hout : b <<< (32 + 32 + (32 + 32)) = 0#128 := BitVec.shiftLeft_eq_zero (by norm_num)
  rw [addShifted_addShifted b 32, addShifted_addShifted (b ^^^ b <<< (32 + 32)) 32,
    addShifted_addShifted b (32 + 32), hout, BitVec.xor_zero]

theorem wordAt_keyGenHelper_zero (k a : Block) :
    wordAt (keyGenHelper k a) 0 = wordAt k 0 ^^^ wordAt a 3 := by
  simp only [keyGenHelper, wordAt_xor _ (shuffle3333 a), wordAt_addShifted_zero,
    wordAt_shuffle3333 a (show 0 < 4 by norm_num)]

theorem wordAt_keyGenHelper_succ (k a : Block) {c : ℕ} (hc : c < 3) :
    wordAt (keyGenHelper k a) (c + 1) = wordAt k (c + 1) ^^^ wordAt (keyGenHelper k a) c := by
  obtain ⟨y, hy, hfour⟩ := addShifted_four k
  have hkey : keyGenHelper k a = y ^^^ shuffle3333 a := by rw [hy, keyGenHelper]
  have hsum : wordAt k (c + 1) = wordAt y (c + 1) ^^^ wordAt y c := by
    rw [← wordAt_addShifted_succ y hc, hfour]
  rw [hkey, wordAt_xor, wordAt_xor, hsum, wordAt_shuffle3333 a (by omega),
    wordAt_shuffle3333 a (by omega), ← BitVec.xor_assoc, BitVec.xor_assoc (wordAt y (c + 1)),
    BitVec.xor_self, BitVec.xor_zero]

theorem wordAt_aeskeygenassist (a : Block) (imm : Byte) {r : ℕ} (hr : r < 4) :
    byteOf (wordAt (aeskeygenassist a imm) 3) r =
      sbox (byteOf (wordAt a 3) ((r + 1) % 4)) ^^^ if r = 0 then imm else 0 := by
  have hcol : col (place r 3) = 3 ∧ row (place r 3) = r := by
    revert r
    decide
  have hplace : place (r + 1) 3 = place ((r + 1) % 4) 3 := by
    simp only [place, Nat.mod_mod]
  rw [byteOf_wordAt _ hr (by norm_num), aeskeygenassist, bytesAt_ofBytesAt, hcol.1, hcol.2]
  rw [byteOf_wordAt _ (Nat.mod_lt _ (by norm_num)) (by norm_num), ← hplace]
  rfl

theorem rcons_getD : ∀ j < 10, rcons.getD j 0 = rcon (j + 1) := by decide

/-- The register of round `j` holds four words of the expanded key. -/
theorem byteOf_expand (userKey : Block) {j : ℕ} (hj : j ≤ 10) {c : ℕ} (hc : c < 4) (r : Fin 4) :
    byteOf (wordAt (expand userKey j) c) r = keyWord (bytesAt userKey) (4 * j + c) r := by
  induction j generalizing c r with
  | zero => rw [expand, byteOf_wordAt _ r.isLt hc, Nat.mul_zero, Nat.zero_add, keyWord_of_lt _ hc]
  | succ j ih =>
    have hprev := fun {c : ℕ} (hc : c < 4) (r : Fin 4) => ih (by omega) hc r
    induction c generalizing r with
    | zero =>
      have hnext : ((r.val + 1) % 4) = (r + 1 : Fin 4).val := by
        revert r
        decide
      have hzero : (r.val = 0) ↔ r = 0 := by
        rw [Fin.ext_iff]
        rfl
      rw [expand, wordAt_keyGenHelper_zero, byteOf_xor, wordAt_aeskeygenassist _ _ r.isLt, hnext,
        hprev (by norm_num), hprev (by norm_num), rcons_getD j (by omega), Nat.add_zero,
        Nat.add_zero (4 * (j + 1)), keyWord_of_mod_eq_zero _ j]
      simp only [hzero]
    | succ c ihc =>
      have hstep := ihc (by omega) r
      rw [expand] at hstep ⊢
      rw [wordAt_keyGenHelper_succ _ _ (by omega), byteOf_xor, hstep, hprev hc,
        keyWord_of_mod_ne_zero _ j (by omega)]

/-- `setKey` stores the round keys of the standard. -/
theorem bytesAt_expand (userKey : Block) {j : ℕ} (hj : j ≤ 10) :
    bytesAt (expand userKey j) = roundKey (bytesAt userKey) j := by
  funext i
  have hrow : row i < 4 := Nat.mod_lt _ (by norm_num)
  have hcol : col i < 4 := Nat.div_lt_of_lt_mul i.isLt
  have hplace : place (row i) (col i) = i := by
    revert i
    decide
  have hbyte := byteOf_expand userKey hj hcol (Fin.ofNat 4 (row i))
  rw [Fin.val_ofNat, Nat.mod_eq_of_lt hrow, byteOf_wordAt _ hrow hcol, hplace] at hbyte
  exact hbyte

end KeySchedule

section Rounds
variable (userKey a k : Block)

/-- The rounds of a direction in front of the mixing, and the mixing. -/
def subShift : Block → Block := onBlock fun s => subBytes (shiftRows s)

def mix : Block → Block := onBlock mixColumns

def invSubShift : Block → Block := onBlock fun s => invSubBytes (invShiftRows s)

def invMix : Block → Block := onBlock invMixColumns

theorem onBlock_onBlock (f g : State → State) : onBlock f (onBlock g a) = onBlock (fun s => f (g s)) a := by
  rw [onBlock, bytesAt_onBlock, onBlock]

theorem onBlock_id (f : State → State) (hf : ∀ s, f s = s) : onBlock f a = a := by
  rw [onBlock, hf, ofBytesAt_bytesAt]

theorem invSubShift_subShift : invSubShift (subShift a) = a := by
  rw [invSubShift, subShift, onBlock_onBlock]
  refine onBlock_id a _ fun s => ?_
  rw [subBytes_shiftRows, invShiftRows_shiftRows, invSubBytes_subBytes]

theorem subShift_invSubShift : subShift (invSubShift a) = a := by
  rw [invSubShift, subShift, onBlock_onBlock]
  refine onBlock_id a _ fun s => ?_
  rw [subBytes_shiftRows, subBytes_invSubBytes, shiftRows_invShiftRows]

theorem invMix_mix : invMix (mix a) = a := by
  rw [invMix, mix, onBlock_onBlock]
  exact onBlock_id a _ invMixColumns_mixColumns

theorem mix_invMix : mix (invMix a) = a := by
  rw [invMix, mix, onBlock_onBlock]
  exact onBlock_id a _ mixColumns_invMixColumns

theorem onBlock_circulant_xor (c : Fin 4 → Byte) :
    onBlock (circulant c) (a ^^^ k) = onBlock (circulant c) a ^^^ onBlock (circulant c) k := by
  apply bytesAt_injective
  rw [bytesAt_onBlock, bytesAt_xor, bytesAt_xor, bytesAt_onBlock, bytesAt_onBlock,
    circulant_addRoundKey]

theorem mix_xor : mix (a ^^^ k) = mix a ^^^ mix k := onBlock_circulant_xor a k _

theorem invMix_xor : invMix (a ^^^ k) = invMix a ^^^ invMix k := onBlock_circulant_xor a k _

theorem xor_xor_cancel (x y : Block) : x ^^^ y ^^^ y = x := by
  rw [BitVec.xor_assoc, BitVec.xor_self, BitVec.xor_zero]

theorem aesenc_eq : aesenc a k = mix (subShift a) ^^^ k := by
  rw [aesenc, mix, subShift, onBlock_onBlock]

theorem aesdec_eq : aesdec a k = invMix (invSubShift a) ^^^ k := by
  rw [aesdec, invMix, invSubShift, onBlock_onBlock]

theorem setKey_key {i : ℕ} (hi : i ≤ 10) : (AES.setKey userKey).key i = expand userKey i := by
  have hval : (Fin.ofNat 11 i).val = i := Nat.mod_eq_of_lt (by omega)
  exact congrArg (expand userKey) hval

/-- The keys of the middle rounds. -/
def middleKeys : List Block := (List.range' 1 9).map (expand userKey)

theorem ecbEncBlock_eq_run : (AES.setKey userKey).ecbEncBlock a =
    run (· ^^^ ·) subShift mix userKey (middleKeys userKey) (expand userKey 10) a := by
  have hmiddle : ∀ x, (List.range' 1 9).foldl (fun c i => aesenc c ((AES.setKey userKey).key i)) x =
      (middleKeys userKey).foldl (fun c k => mix (subShift c) ^^^ k) x := by
    intro x
    rw [middleKeys, List.foldl_map]
    refine List.foldl_ext _ _ _ fun c i hi => ?_
    rw [List.mem_range'_1] at hi
    rw [aesenc_eq, setKey_key userKey (by omega)]
  rw [AES.ecbEncBlock, hmiddle, setKey_key userKey (by norm_num), setKey_key userKey le_rfl]
  rfl

theorem ecbDecBlock_eq_run : (AESDec.setKey userKey).ecbDecBlock a =
    run (· ^^^ ·) invSubShift invMix (expand userKey 10) ((middleKeys userKey).reverse.map invMix)
      userKey a := by
  have hkeys : (middleKeys userKey).reverse.map invMix =
      (List.range' 1 9).map (AESDec.setKey userKey).key := rfl
  have hmiddle : ∀ x, (List.range' 1 9).foldl (fun p i => aesdec p ((AESDec.setKey userKey).key i)) x =
      ((middleKeys userKey).reverse.map invMix).foldl
        (fun p k => invMix (invSubShift p) ^^^ k) x := by
    intro x
    rw [hkeys, List.foldl_map]
    exact List.foldl_ext _ _ _ fun p i _ => aesdec_eq p _
  rw [AESDec.ecbDecBlock, hmiddle]
  rfl

/-- Encryption computes the cipher of the standard. -/
theorem bytesAt_ecbEncBlock :
    bytesAt ((AES.setKey userKey).ecbEncBlock a) = cipher (bytesAt userKey) (bytesAt a) := by
  have hmiddle : ∀ (l : List ℕ) (hl : ∀ j ∈ l, j ≤ 10) (x : Block),
      bytesAt (l.foldl (fun c i => aesenc c ((AES.setKey userKey).key i)) x) =
        l.foldl (fun state j => addRoundKey (mixColumns (shiftRows (subBytes state)))
          (roundKey (bytesAt userKey) j)) (bytesAt x) := by
    intro l hl
    induction l with
    | nil => exact fun _ => rfl
    | cons j l ih =>
      intro x
      have hj := hl j List.mem_cons_self
      rw [List.foldl_cons, List.foldl_cons, ih fun i hi => hl i (List.mem_cons_of_mem _ hi), aesenc,
        bytesAt_xor, bytesAt_onBlock, subBytes_shiftRows, setKey_key userKey hj,
        bytesAt_expand userKey hj]
  have hrange : ∀ j ∈ List.range' 1 9, j ≤ 10 := by
    intro j hj
    rw [List.mem_range'_1] at hj
    omega
  rw [AES.ecbEncBlock, aesenclast, bytesAt_xor, bytesAt_onBlock, subBytes_shiftRows,
    hmiddle _ hrange, bytesAt_xor, setKey_key userKey (by norm_num), setKey_key userKey le_rfl,
    bytesAt_expand userKey (by norm_num), bytesAt_expand userKey le_rfl]
  rfl

theorem ecbDecBlock_ecbEncBlock :
    (AESDec.setKey userKey).ecbDecBlock ((AES.setKey userKey).ecbEncBlock a) = a := by
  rw [ecbDecBlock_eq_run, ecbEncBlock_eq_run]
  exact run_run xor_xor_cancel invMix_xor invSubShift_subShift invMix_mix userKey
    (middleKeys userKey) (expand userKey 10) a

theorem ecbEncBlock_ecbDecBlock :
    (AES.setKey userKey).ecbEncBlock ((AESDec.setKey userKey).ecbDecBlock a) = a := by
  have hkeys : ((middleKeys userKey).reverse.map invMix).reverse.map mix = middleKeys userKey := by
    rw [← List.map_reverse, List.reverse_reverse, List.map_map]
    exact (List.map_congr_left fun k _ => mix_invMix k).trans (List.map_id _)
  have hcancel := run_run xor_xor_cancel mix_xor subShift_invSubShift mix_invMix
    (expand userKey 10) ((middleKeys userKey).reverse.map invMix) userKey a
  rw [hkeys] at hcancel
  rw [ecbDecBlock_eq_run, ecbEncBlock_eq_run]
  exact hcancel

end Rounds

section Batches
variable (aes : AES)

/-- Interleaved rounds are the rounds of each block. -/
theorem ecbEncWide_eq (plaintexts : List Block) :
    aes.ecbEncWide plaintexts = plaintexts.map aes.ecbEncBlock := by
  have hrounds : ∀ (l : List ℕ) (temp : List Block),
      l.foldl (fun temp i => temp.map (aesenc · (aes.key i))) temp =
        temp.map fun x => l.foldl (fun c i => aesenc c (aes.key i)) x := by
    intro l
    induction l with
    | nil => exact fun temp => (List.map_id temp).symm
    | cons i l ih =>
      intro temp
      rw [List.foldl_cons, ih, List.map_map]
      rfl
  rw [AES.ecbEncWide, hrounds, List.map_map, List.map_map]
  rfl

theorem ecbEncBlocks_eq {plaintexts cyphertext : List Block}
    (h : plaintexts.length ≤ cyphertext.length) :
    aes.ecbEncBlocks plaintexts cyphertext =
      plaintexts.map aes.ecbEncBlock ++ cyphertext.drop plaintexts.length := by
  have hall : plaintexts.map aes.ecbEncBlock =
      (List.range plaintexts.length).map fun idx => aes.ecbEncBlock (plaintexts.getD idx 0) := by
    apply List.ext_getElem (by simp)
    intro i hi _
    rw [List.length_map] at hi
    rw [List.getElem_map, List.getElem_map, List.getElem_range, List.getD_eq_getElem _ _ hi]
  rw [hall]
  refine fill_steps (by norm_num) (fun i hi => ?_) h
  have hlen : (slice plaintexts (i * 8) 8).length = 8 := length_slice (by omega)
  rw [ecbEncWide_eq]
  apply List.ext_getElem
  · rw [List.length_map, hlen, List.length_map, List.length_range]
  · intro j hj _
    rw [List.length_map, hlen] at hj
    have hget : i * 8 + j < plaintexts.length := by omega
    rw [List.getElem_map, List.getElem_map, List.getElem_range, List.getD_eq_getElem _ _ hget]
    simp only [slice, List.getElem_take, List.getElem_drop]

/-- The counter of the next turn. -/
theorem foldl_counters (m : ℕ) (baseIdx : U64) (cyphertext : List Block) :
    (List.range m).foldl (fun (s : U64 × List Block) i =>
      (s.1 + BitVec.ofNat 64 8, splice s.2 (i * 8)
        (aes.ecbEncWide ((List.range 8).map fun j => set1 (s.1 + BitVec.ofNat 64 j)))))
      (baseIdx, cyphertext) =
    (baseIdx + BitVec.ofNat 64 (m * 8), (List.range m).foldl (fun out i => splice out (i * 8)
      ((List.range 8).map fun j => aes.ecbEncBlock (set1 (baseIdx + BitVec.ofNat 64 (i * 8 + j)))))
      cyphertext) := by
  induction m with
  | zero => simp
  | succ m ih =>
    have hnext : baseIdx + BitVec.ofNat 64 (m * 8) + BitVec.ofNat 64 8 =
        baseIdx + BitVec.ofNat 64 ((m + 1) * 8) := by
      rw [BitVec.add_assoc, ← BitVec.ofNat_add, Nat.succ_mul]
    have hcounter : ∀ j, baseIdx + BitVec.ofNat 64 (m * 8) + BitVec.ofNat 64 j =
        baseIdx + BitVec.ofNat 64 (m * 8 + j) := by
      intro j
      rw [BitVec.add_assoc, ← BitVec.ofNat_add]
    rw [List.range_succ (n := m), List.foldl_append, ih, List.foldl_append, List.foldl_cons,
      List.foldl_nil, List.foldl_cons, List.foldl_nil, hnext, ecbEncWide_eq, List.map_map]
    simp only [hcounter]
    rfl

theorem foldl_counter (k m : ℕ) (baseIdx : U64) (cyphertext : List Block) :
    ((List.range' k m).foldl (fun (s : U64 × List Block) idx =>
      (s.1 + 1, s.2.set idx (aes.ecbEncBlock (set1 s.1))))
      (baseIdx + BitVec.ofNat 64 k, cyphertext)).2 =
    (List.range' k m).foldl (fun out idx =>
      out.set idx (aes.ecbEncBlock (set1 (baseIdx + BitVec.ofNat 64 idx)))) cyphertext := by
  induction m generalizing k cyphertext with
  | zero => rfl
  | succ m ih =>
    have hnext : baseIdx + BitVec.ofNat 64 k + 1 = baseIdx + BitVec.ofNat 64 (k + 1) := by
      rw [BitVec.add_assoc, BitVec.ofNat_add]
      rfl
    rw [List.range'_succ, List.foldl_cons, List.foldl_cons, hnext, ih]

theorem ecbEncCounterMode_eq (baseIdx : U64) {blockLength : ℕ} {cyphertext : List Block}
    (h : blockLength ≤ cyphertext.length) :
    aes.ecbEncCounterMode baseIdx blockLength cyphertext =
      ((List.range blockLength).map fun i =>
        aes.ecbEncBlock (set1 (baseIdx + BitVec.ofNat 64 i))) ++ cyphertext.drop blockLength := by
  have hwhole : (blockLength - blockLength % 8) / 8 * 8 = blockLength - blockLength % 8 := by omega
  have hfill := fill_steps (g := fun i => aes.ecbEncBlock (set1 (baseIdx + BitVec.ofNat 64 i)))
    (f := fun i => (List.range 8).map fun j =>
      aes.ecbEncBlock (set1 (baseIdx + BitVec.ofNat 64 (i * 8 + j))))
    (by norm_num) (fun _ _ => rfl) h
  have hcounters := foldl_counters aes ((blockLength - blockLength % 8) / 8) baseIdx cyphertext
  rw [hwhole] at hcounters
  rw [← hfill, ← foldl_counter, ← hcounters]
  rfl

end Batches

section Results

/-- For every key the stored round keys are those of the standard, and a block is encrypted by its
cipher. -/
theorem aes_eq_cipher (userKey x : Block) :
    (∀ j : Fin 11, bytesAt ((AES.setKey userKey).mRoundKey j) = roundKey (bytesAt userKey) j.val) ∧
      bytesAt ((AES.setKey userKey).ecbEncBlock x) = cipher (bytesAt userKey) (bytesAt x) :=
  ⟨fun j => bytesAt_expand userKey (by omega), bytesAt_ecbEncBlock userKey x⟩

/-- `AESDec` and `AES` of one key undo each other on every block. -/
theorem aesDec_inverts_aes (userKey x : Block) :
    (AESDec.setKey userKey).ecbDecBlock ((AES.setKey userKey).ecbEncBlock x) = x ∧
      (AES.setKey userKey).ecbEncBlock ((AESDec.setKey userKey).ecbDecBlock x) = x :=
  ⟨ecbDecBlock_ecbEncBlock userKey x, ecbEncBlock_ecbDecBlock userKey x⟩

/-- All batches encrypt block by block into the front of their buffer, for every number of blocks,
and the counters go on across the turns of eight. -/
theorem batches_eq_blocks (aes : AES) (baseIdx : U64) {plaintexts cyphertext : List Block}
    (h : plaintexts.length ≤ cyphertext.length) :
    aes.ecbEncBlocks plaintexts cyphertext =
        plaintexts.map aes.ecbEncBlock ++ cyphertext.drop plaintexts.length ∧
      aes.ecbEncCounterMode baseIdx plaintexts.length cyphertext =
        ((List.range plaintexts.length).map fun i =>
          aes.ecbEncBlock (set1 (baseIdx + BitVec.ofNat 64 i))) ++
            cyphertext.drop plaintexts.length ∧
      (plaintexts.length = 2 →
        aes.ecbEncTwoBlocks plaintexts cyphertext = aes.ecbEncBlocks plaintexts cyphertext) ∧
      (plaintexts.length = 4 →
        aes.ecbEncFourBlocks plaintexts cyphertext = aes.ecbEncBlocks plaintexts cyphertext) ∧
      (plaintexts.length = 16 →
        aes.ecbEnc16Blocks plaintexts cyphertext = aes.ecbEncBlocks plaintexts cyphertext) := by
  have hfront : ∀ n, plaintexts.length = n →
      splice cyphertext 0 (aes.ecbEncWide (slice plaintexts 0 n)) =
        aes.ecbEncBlocks plaintexts cyphertext := by
    rintro n rfl
    rw [ecbEncBlocks_eq aes h, ecbEncWide_eq, slice, List.drop_zero, List.take_length, splice,
      List.take_zero, List.nil_append, List.length_map, Nat.zero_add]
  exact ⟨ecbEncBlocks_eq aes h, ecbEncCounterMode_eq aes baseIdx h, hfront 2, hfront 4, hfront 16⟩

/-- Two turns and three more blocks, into a buffer with one block to spare. The counters wrap. -/
theorem batches_eq_blocks_nineteen :
    (AES.setKey 7).ecbEncBlocks (List.replicate 19 5) (List.replicate 20 0) =
        (List.replicate 19 5).map (AES.setKey 7).ecbEncBlock ++ (List.replicate 20 0).drop 19 ∧
      (AES.setKey 7).ecbEncCounterMode (-3) 19 (List.replicate 20 0) =
        ((List.range 19).map fun i =>
          (AES.setKey 7).ecbEncBlock (set1 (-3 + BitVec.ofNat 64 i))) ++
            (List.replicate 20 0).drop 19 ∧
      (19 = 2 → (AES.setKey 7).ecbEncTwoBlocks (List.replicate 19 5) (List.replicate 20 0) =
        (AES.setKey 7).ecbEncBlocks (List.replicate 19 5) (List.replicate 20 0)) ∧
      (19 = 4 → (AES.setKey 7).ecbEncFourBlocks (List.replicate 19 5) (List.replicate 20 0) =
        (AES.setKey 7).ecbEncBlocks (List.replicate 19 5) (List.replicate 20 0)) ∧
      (19 = 16 → (AES.setKey 7).ecbEnc16Blocks (List.replicate 19 5) (List.replicate 20 0) =
        (AES.setKey 7).ecbEncBlocks (List.replicate 19 5) (List.replicate 20 0)) := by
  have hlen : (List.replicate 19 (5 : Block)).length ≤ (List.replicate 20 (0 : Block)).length := by
    decide
  exact batches_eq_blocks (AES.setKey 7) (-3) hlen

end Results

end PqPsi.Permutation.Aes
