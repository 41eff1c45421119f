import PqPsi.Common.Block
import PqPsi.Lib.Buffers
import PqPsi.Lib.Rijndael

/-!
# AES of cryptoTools

Classes `AES` and `AESDec`, written with the instructions of the processor,
which take the layers of Rijndael in the order they are documented in. Blocks
are encrypted one by one, or several at once with their rounds interleaved.
-/
namespace PqPsi.Permutation.Aes
open Lib.Buffers Lib.Rijndael

section Instructions

/-- The bytes of a register. -/
def bytesAt (b : Block) : State := fun i => b.extractLsb' (8 * i.val) 8

def ofBytesAt (s : State) : Block := blockOfBytes (List.ofFn s)

def onBlock (f : State → State) (b : Block) : Block := ofBytesAt (f (bytesAt b))

/-- `_mm_aesenc_si128`. -/
def aesenc (a roundKey : Block) : Block :=
  onBlock (fun s => mixColumns (subBytes (shiftRows s))) a ^^^ roundKey

/-- `_mm_aesenclast_si128`. -/
def aesenclast (a roundKey : Block) : Block := onBlock (fun s => subBytes (shiftRows s)) a ^^^ roundKey

/-- `_mm_aesdec_si128`. -/
def aesdec (a roundKey : Block) : Block :=
  onBlock (fun s => invMixColumns (invSubBytes (invShiftRows s))) a ^^^ roundKey

/-- `_mm_aesdeclast_si128`. -/
def aesdeclast (a roundKey : Block) : Block :=
  onBlock (fun s => invSubBytes (invShiftRows s)) a ^^^ roundKey

/-- `_mm_aesimc_si128`. -/
def aesimc (a : Block) : Block := onBlock invMixColumns a

/-- `_mm_aeskeygenassist_si128`: words 1 and 3, substituted, and once more with a rotation and
the constant. -/
def aeskeygenassist (a : Block) (imm : Byte) : Block :=
  ofBytesAt fun i =>
    let c := if col i < 2 then 1 else 3
    if col i % 2 = 0 then sbox (bytesAt a (place (row i) c))
    else sbox (bytesAt a (place (row i + 1) c)) ^^^ if row i = 0 then imm else 0

/-- `_mm_shuffle_epi32` that puts word 3 everywhere. -/
def shuffle3333 (a : Block) : Block :=
  let x : BitVec 32 := a.extractLsb' 96 32
  x ++ x ++ x ++ x

/-- `_mm_set1_epi64x`. -/
def set1 (x : U64) : Block := toBlock x x

end Instructions

section Keys

def keyGenHelper (key keyRcon : Block) : Block :=
  let keyRcon := shuffle3333 keyRcon
  let key := key ^^^ key <<< 32
  let key := key ^^^ key <<< 32
  let key := key ^^^ key <<< 32
  key ^^^ keyRcon

/-- The constants in the calls of `_mm_aeskeygenassist_si128`. -/
def rcons : List Byte := [0x01, 0x02, 0x04, 0x08, 0x10, 0x20, 0x40, 0x80, 0x1B, 0x36]

/-- `mRoundKey[i]` of class `AES`. -/
def expand (userKey : Block) : ℕ → Block
  | 0 => userKey
  | i + 1 =>
    let key := expand userKey i
    keyGenHelper key (aeskeygenassist key (rcons.getD i 0))

end Keys

structure AES where
  mRoundKey : Fin 11 → Block

def AES.setKey (userKey : Block) : AES := ⟨fun i => expand userKey i.val⟩

namespace AES
variable (aes : AES)

/-- `mRoundKey[i]`. -/
def key (i : ℕ) : Block := aes.mRoundKey (Fin.ofNat 11 i)

def ecbEncBlock (plaintext : Block) : Block :=
  let cyphertext := plaintext ^^^ aes.key 0
  let cyphertext := (List.range' 1 9).foldl (fun c i => aesenc c (aes.key i)) cyphertext
  aesenclast cyphertext (aes.key 10)

/-- Several blocks at once, each round on all of them before the next round. -/
def ecbEncWide (plaintexts : List Block) : List Block :=
  let temp := plaintexts.map (· ^^^ aes.key 0)
  let temp := (List.range' 1 9).foldl (fun temp i => temp.map (aesenc · (aes.key i))) temp
  temp.map (aesenclast · (aes.key 10))

/-- Eight blocks in each turn, and the rest one by one. -/
def ecbEncBlocks (plaintexts cyphertext : List Block) : List Block :=
  let blockLength := plaintexts.length
  let step := 8
  let length := blockLength - blockLength % step
  let cyphertext := (List.range (length / step)).foldl
    (fun out i => splice out (i * step) (aes.ecbEncWide (slice plaintexts (i * step) step)))
    cyphertext
  (List.range' length (blockLength - length)).foldl
    (fun out idx => out.set idx (aes.ecbEncBlock (plaintexts.getD idx 0))) cyphertext

def ecbEncTwoBlocks (plaintexts cyphertext : List Block) : List Block :=
  splice cyphertext 0 (aes.ecbEncWide (slice plaintexts 0 2))

def ecbEncFourBlocks (plaintexts cyphertext : List Block) : List Block :=
  splice cyphertext 0 (aes.ecbEncWide (slice plaintexts 0 4))

def ecbEnc16Blocks (plaintexts cyphertext : List Block) : List Block :=
  splice cyphertext 0 (aes.ecbEncWide (slice plaintexts 0 16))

/-- The loops of `ecbEncBlocks` on counters that start at `baseIdx`. -/
def ecbEncCounterMode (baseIdx : U64) (blockLength : ℕ) (cyphertext : List Block) : List Block :=
  let step := 8
  let length := blockLength - blockLength % step
  let (baseIdx, cyphertext) := (List.range (length / step)).foldl
    (fun (baseIdx, out) i =>
      (baseIdx + BitVec.ofNat 64 step, splice out (i * step)
        (aes.ecbEncWide ((List.range step).map fun j => set1 (baseIdx + BitVec.ofNat 64 j)))))
    (baseIdx, cyphertext)
  ((List.range' length (blockLength - length)).foldl
    (fun (baseIdx, out) idx => (baseIdx + 1, out.set idx (aes.ecbEncBlock (set1 baseIdx))))
    (baseIdx, cyphertext)).2

end AES

structure AESDec where
  mRoundKey : Fin 11 → Block

/-- The keys from the last to the first, those between them through `_mm_aesimc_si128`. -/
def AESDec.setKey (userKey : Block) : AESDec where
  mRoundKey i :=
    let v := expand userKey (10 - i.val)
    if i.val = 0 ∨ i.val = 10 then v else aesimc v

namespace AESDec
variable (dec : AESDec)

def key (i : ℕ) : Block := dec.mRoundKey (Fin.ofNat 11 i)

def ecbDecBlock (cyphertext : Block) : Block :=
  let plaintext := cyphertext ^^^ dec.key 0
  let plaintext := (List.range' 1 9).foldl (fun p i => aesdec p (dec.key i)) plaintext
  aesdeclast plaintext (dec.key 10)

end AESDec

end PqPsi.Permutation.Aes
