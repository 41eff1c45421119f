import PqPsi.Common.Bytes
import PqPsi.Lib.Buffers
import PqPsi.Lib.Exceptions

/-!
# HCTR2

The wide-block mode over AES: a polynomial hash of the tail, one block
through AES, and a counter stream over the tail. A `Block` is the memory image
of sixteen bytes; the field elements of the hash are pairs of 64-bit words.
The two buffers of `xctr` hold 50 blocks, and a write behind their end is a
fault of its own.
-/
namespace PqPsi.Permutation.Hctr2
open Lib.Buffers Lib.Exceptions

/-- What ends a call early: an exception, or an index outside a buffer. -/
inductive Fault where
  | thrown (e : Err)
  | outOfBounds
deriving DecidableEq

/-- `osuCrypto::AES` and `osuCrypto::AESDec`. -/
structure AesLib where
  ecbEncBlock : (key : Block) → Block → Block
  ecbEncBlocks : (key : Block) → List Block → List Block
  ecbDecBlock : (key : Block) → Block → Block

section Field

@[ext]
structure U128 where
  lo : U64
  hi : U64
deriving DecidableEq

instance : XorOp U128 where
  xor a b := ⟨a.lo ^^^ b.lo, a.hi ^^^ b.hi⟩

def load64 (bs : List Byte) : U64 :=
  (List.range 8).foldl (fun x i => x ||| (bs.getD i 0).setWidth 64 <<< (8 * i)) 0

def store64 (x : U64) : List Byte :=
  (List.range 8).map fun i => (x >>> (8 * i) &&& 0xff).setWidth 8

def load128 (bs : List Byte) : U128 := ⟨load64 bs, load64 (bs.drop 8)⟩

def store128 (x : U128) : List Byte := store64 x.lo ++ store64 x.hi

/-- The four words of a product before the reduction. -/
abbrev Limbs := Vector U64 4

def limbBit (x : Limbs) (bit : ℕ) : Bool := (x.getD (bit / 64) 0 >>> (bit % 64) &&& 1) != 0

/-- `p[i] ^= x`. -/
def xorLimb (p : Limbs) (i : ℕ) (x : U64) : Limbs := if h : i < 4 then p.set i (p[i] ^^^ x) else p

def flipBit (x : Limbs) (bit : ℕ) : Limbs := xorLimb x (bit / 64) (1 <<< (bit % 64))

def U128.getBit (x : U128) (bit : ℕ) : Bool :=
  if bit < 64 then (x.lo >>> bit &&& 1) != 0 else (x.hi >>> (bit - 64) &&& 1) != 0

/-- One turn of the first loop of `mul`. -/
def mulStep (a b : U128) (p : Limbs) (i : ℕ) : Limbs :=
  if ¬ a.getBit i then p
  else
    let word := i / 64
    let shift := i % 64
    let p := xorLimb p word (b.lo <<< shift)
    let p := if shift ≠ 0 then xorLimb p (word + 1) (b.lo >>> (64 - shift)) else p
    let p := xorLimb p (word + 1) (b.hi <<< shift)
    if shift ≠ 0 ∧ word + 2 < 4 then xorLimb p (word + 2) (b.hi >>> (64 - shift)) else p

/-- One turn of the reduction by `x^128 + x^127 + x^126 + x^121 + 1`. -/
def reduceStep (p : Limbs) (d : ℕ) : Limbs :=
  if limbBit p d then
    flipBit (flipBit (flipBit (flipBit (flipBit p d) (d - 1)) (d - 2)) (d - 7)) (d - 128)
  else p

def mul (a b : U128) : U128 :=
  let p := (List.range 128).foldl (mulStep a b) (Vector.replicate 4 0)
  let p := (List.range' 128 128).reverse.foldl reduceStep p
  ⟨p[0], p[1]⟩

/-- `MulTable`: a row for each byte position, an entry for each byte. -/
abbrev MulTable := Fin 16 → Byte → U128

def makeMulTable (h : U128) : MulTable := fun pos v =>
  let bit := pos.val * 8
  let x : U128 := if bit < 64 then ⟨v.setWidth 64 <<< bit, 0⟩ else ⟨0, v.setWidth 64 <<< (bit - 64)⟩
  mul x h

def mulFixed (x : U128) (table : MulTable) : U128 :=
  (List.finRange 8).foldl
    (fun out (pos : Fin 8) =>
      let out := out ^^^ table ⟨pos, by omega⟩ ((x.lo >>> (pos.val * 8) &&& 0xff).setWidth 8)
      out ^^^ table ⟨pos + 8, by omega⟩ ((x.hi >>> (pos.val * 8) &&& 0xff).setWidth 8))
    ⟨0, 0⟩

def toBlock (x : U128) : Block := blockOfBytes (store128 x)

def fromBlock (b : Block) : U128 := load128 (bytesOfBlock b)

end Field

section Hash

/-- A cleared block with a word stored at its front. -/
def lowBlock (x : U64) : Block := blockOfBytes (store64 x ++ List.replicate 8 0)

/-- `Aes`: both directions under one key. -/
structure Aes where
  lib : AesLib
  key : Block

def Aes.enc (aes : Aes) (b : Block) : Block := aes.lib.ecbEncBlock aes.key b

def Aes.encBlocks (aes : Aes) (bs : List Block) : List Block := aes.lib.ecbEncBlocks aes.key bs

def Aes.dec (aes : Aes) (b : Block) : Block := aes.lib.ecbDecBlock aes.key b

def schedule (aes : Aes) (i : U64) : Block := aes.enc (lowBlock i)

def polyvalKey (hashKey : Block) : U128 :=
  let c : U128 := ⟨1, 1 <<< 63 ||| 1 <<< 60 ||| 1 <<< 57 ||| 1 <<< 50⟩
  mul (fromBlock hashKey) c

/-- `update` over `count` blocks of sixteen bytes. -/
def update (acc : U128) (table : MulTable) (blocks : List Byte) (count : ℕ) : U128 :=
  (List.range count).foldl
    (fun acc i => mulFixed (acc ^^^ load128 (slice blocks (i * 16) 16)) table) acc

def updatePaddedZero (acc : U128) (table : MulTable) (data : List Byte) : U128 :=
  let acc := update acc table data (data.length / 16)
  let rem := data.length % 16
  if rem ≠ 0 then
    let last := data.drop (data.length - rem) ++ List.replicate (16 - rem) 0
    update acc table last 1
  else acc

def initHash (table : MulTable) (tweak : List Byte) (modifier : U64) : U128 :=
  let first := bytesOfBlock (lowBlock (BitVec.ofNat 64 (tweak.length * 8 * 2) + modifier))
  let acc := update ⟨0, 0⟩ table first 1
  updatePaddedZero acc table tweak

structure Key where
  aes : Aes
  hashKey : Block
  l : Block
  h : U128
  table : MulTable
  initDiv : U128
  initAwk : U128

/-- The constructor of `Key`. -/
def makeKey (lib : AesLib) (keyBytes : Block) (tweak : List Byte) : Key :=
  let aes : Aes := ⟨lib, keyBytes⟩
  let hashKey := schedule aes 0
  let l := schedule aes 1
  let h := polyvalKey hashKey
  let table := makeMulTable h
  { aes, hashKey, l, h, table
    initDiv := initHash table tweak 2
    initAwk := initHash table tweak 3 }

def hash (key : Key) (msg : List Byte) : Block :=
  let full := msg.length / 16
  let rem := msg.length % 16
  let acc := if rem = 0 then key.initDiv else key.initAwk
  let acc := update acc key.table msg full
  if rem ≠ 0 then
    let last := msg.drop (full * 16) ++ 1 :: List.replicate (15 - rem) 0
    toBlock (update acc key.table last 1)
  else toBlock acc

end Hash

section Crypt

/-- `KEM_key_block_size`. -/
def bufferBlocks : ℕ := 50

/-- `buf[i] = x`. -/
def writeBlock (buf : List Block) (i : ℕ) (x : Block) : Except Fault (List Block) :=
  if i < buf.length then .ok (buf.set i x) else .error .outOfBounds

def counter (i : ℕ) (nonce : Block) : Block := lowBlock (BitVec.ofNat 64 i) ^^^ nonce

/-- `xctr` in place: the counters are written first and encrypted in one call. -/
def xctr (aes : Aes) (input : List Byte) (nonce : Block) : Except Fault (List Byte) := do
  let full := input.length / 16
  let rem := input.length % 16
  let counters ← (List.range full).foldlM
    (fun counters i => writeBlock counters i (counter (i + 1) nonce))
    (List.replicate bufferBlocks 0)
  let out :=
    if full ≠ 0 then
      let stream := splice (List.replicate bufferBlocks 0) 0 (aes.encBlocks (counters.take full))
      List.zipWith (· ^^^ ·) (input.take (full * 16)) (bytesOf stream)
    else []
  if rem ≠ 0 then
    let last := aes.enc (counter (full + 1) nonce)
    return out ++ List.zipWith (· ^^^ ·) (input.drop (full * 16)) (bytesOfBlock last)
  else return out

def crypt (data : List Byte) (key : Key) (encrypt : Bool) : Except Fault (List Byte) := do
  throwIf (data.length < 16) (.thrown "HCTR2 needs at least one AES block")
  let src := blockOfBytes (data.take 16)
  let tail := data.drop 16
  if encrypt then
    let d1 := hash key tail
    let mm := src ^^^ d1
    let uu := key.aes.enc mm
    let s := mm ^^^ uu ^^^ key.l
    let tail ← xctr key.aes tail s
    let d2 := hash key tail
    return bytesOfBlock (uu ^^^ d2) ++ tail
  else
    let d1 := hash key tail
    let uu := src ^^^ d1
    let mm := key.aes.dec uu
    let s := mm ^^^ uu ^^^ key.l
    let tail ← xctr key.aes tail s
    let d2 := hash key tail
    return bytesOfBlock (mm ^^^ d2) ++ tail

end Crypt

end PqPsi.Permutation.Hctr2
