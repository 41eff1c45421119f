import PqPsi.Common.Bytes
import PqPsi.Kemeleon.Key
import PqPsi.Lib.Slots
import PqPsi.Protocol.Primitives

/-!
# Rows of the protocol

The loops that both parties run over rows of blocks: masks, permutations, key
generation, encapsulation and the count of hits. `parallelFor` hands index
ranges to workers, which write disjoint rows; the loops visit the ranges in
order. An exception of any row ends the loop with an exception.
-/
namespace PqPsi.Protocol
open Kemeleon Lib Lib.Buffers Lib.Exceptions Lib.Ranges

/-- The threads a party works with: the flag and the number from its parameters. -/
structure Workers where
  env : Env
  multiThread : Bool
  workerThreads : ℕ

section Parallel

def workerLimit (env : Env) (multiThread : Bool) (requested : ℕ) : ℕ :=
  if !multiThread then 1
  else
    let hw := max 1 env.hardwareConcurrency
    if requested = 0 then hw else max 1 (min requested hw)

def workerCount (w : Workers) (n minWork : ℕ) : ℕ :=
  if n = 0 ∨ !w.multiThread then 1
  else
    let maxThreads := max 1 (n / max 1 minWork)
    max 1 (min (workerLimit w.env w.multiThread w.workerThreads) maxThreads)

/-- The index ranges `parallelFor` hands to its workers. -/
def parallelRanges (w : Workers) (n minWork : ℕ) : List (ℕ × ℕ) :=
  if n = 0 then []
  else if !w.multiThread then [(0, n)]
  else
    let threadCount := workerCount w n minWork
    if threadCount ≤ 1 then [(0, n)]
    else chunkRanges n ((n + threadCount - 1) / threadCount) threadCount

def parallelFor {σ : Type} (w : Workers) (n minWork : ℕ) (body : σ → ℕ → Except Err σ) (s : σ) :
    Except Err σ :=
  forRanges (parallelRanges w n minWork) body s

theorem parallelFor_eq {σ : Type} (w : Workers) (n minWork : ℕ) (body : σ → ℕ → Except Err σ)
    (s : σ) : parallelFor w n minWork body s = (List.range n).foldlM body s := by
  have hone : indices (0, n) = List.range n := by simp [indices, List.range_eq_range']
  rw [parallelFor, forRanges_eq]
  congr 1
  unfold parallelRanges
  dsimp only
  split_ifs with h₀ h₁ h₂
  · simp [h₀]
  · rw [List.flatMap_singleton, hone]
  · rw [List.flatMap_singleton, hone]
  · exact flatMap_chunkRanges (le_count_mul_chunk (by omega))

end Parallel

section Masks
variable (w : Workers) (rowSize : ℕ)

/-- `fillMask`: AES under the item as key, on the counter blocks from one on. -/
def fillMask (env : Env) (key : Block) (rowSize : ℕ) : List Block :=
  (List.range rowSize).map fun i => env.ecbEncBlock key (toBlock 0 (BitVec.ofNat 64 (i + 1)))

/-- `xorMask`, block by block. -/
def xorMask (mask row : List Block) : List Block := List.zipWith (· ^^^ ·) row mask

def precomputeMasks (set : List Block) : Except Err (List Block) :=
  parallelFor w set.length 16 ((Slots.rows Block rowSize set.length).turn fun i _ =>
    return fillMask w.env (set.getD i 0) rowSize)
    (List.replicate (set.length * rowSize) 0)

end Masks

section Permute

/-- `permute` of one row. -/
def permute (pi : Perm) (row : List Block) : Except Err (List Block) := do
  return blocksOf row.length (← pi.encryptBytes (bytesOf row))

/-- `unpermute` of one row. -/
def unpermute (pi : Perm) (row : List Block) : Except Err (List Block) := do
  return blocksOf row.length (← pi.decryptBytes (bytesOf row))

end Permute

section KeyGen

/-- A secret key. -/
abbrev RawKey := List Byte

def kMaxKeyTries : ℕ := 64

/-- `fillMlKemKeySeed`, with what `randombytes_buf` returns in `random`. -/
def fillMlKemKeySeed (random : List Byte) (row attempt : ℕ) (deterministic : Bool) : List Byte :=
  if !deterministic then random
  else (List.range 64).map fun j =>
    BitVec.ofNat 8 ((row + 1) * 131 + (j + 3) * 17 + attempt * 29)

/-- The randomness of a receiver: key seeds by row and attempt, and the switch to fixed seeds. -/
structure KeySeeds where
  deterministic : Bool
  mlKem : ℕ → ℕ → List Byte
  ec : ℕ → List Byte

/-- The loop over attempts: the first key pair whose public key has a code. -/
def tryKeys (prims : Primitives) (seed : ℕ → List Byte) :
    ℕ → ℕ → Except Err (Option (RawKey × List Byte))
  | 0, _ => return none
  | tries + 1, t => do
    let (rawPk, sk) ← prims.mlKem.keyGen (seed t)
    match ← encodeKey prims.hashByte .mlKem512 rawPk with
    | some code => return some (sk, code)
    | none => tryKeys prims seed tries (t + 1)

/-- Secret key `i` and row `i` are filled in the same turn. -/
def keySlots (rowSize count : ℕ) : Slots (List RawKey × List Block) (RawKey × List Block) count :=
  (Slots.entries RawKey count).prod (Slots.rows Block rowSize count)

/-- One row of `genMlKemKeys`. -/
def genMlKemKey (prims : Primitives) (seeds : KeySeeds) (rowSize i : ℕ) :
    Except Err (RawKey × List Block) := do
  let seed := fun t => fillMlKemKeySeed (seeds.mlKem i t) i t seeds.deterministic
  match ← tryKeys prims seed kMaxKeyTries 0 with
  | none => throw "genMlKemKeys: encodeKey failed"
  | some (sk, code) =>
    throwIf (code.length > blockBytes * rowSize) "genMlKemKeys: encoded pk too large"
    return (sk, blocksOf rowSize (splice (List.replicate (blockBytes * rowSize) 0) 0 code))

def genMlKemKeys (prims : Primitives) (w : Workers) (seeds : KeySeeds) (pk : List Block)
    (rowSize : ℕ) : Except Err (List RawKey × List Block) := do
  throwIf (rowSize ≠ kemKeyBlockSize ∨ pk.length % rowSize ≠ 0) "genMlKemKeys: wrong row size"
  let count := pk.length / rowSize
  parallelFor w count 8 ((keySlots rowSize count).turn fun i _ =>
    genMlKemKey prims seeds rowSize i)
    (List.replicate count (List.replicate (getSizes .mlKem512).secretKeyBytes 0), pk)

/-- `eckem_raw::keyGen` on a fresh seed: the representative of the public key, and the secret. -/
def ecKeyGen (curve : Curve) (seed : List Byte) : Except Err (List Byte × List Byte) := do
  throwIf (!curve.sodiumInit) "eckem: libsodium init failed"
  return curve.elligatorKeyPair seed

/-- One row of `genEcKeys`. -/
def genEcKey (prims : Primitives) (seeds : KeySeeds) (rowSize i : ℕ) :
    Except Err (RawKey × List Block) := do
  let (rep, sk) ← ecKeyGen prims.curve (seeds.ec i)
  return (sk, blocksOf rowSize (splice (List.replicate (blockBytes * rowSize) 0) 0 rep))

def genEcKeys (prims : Primitives) (w : Workers) (seeds : KeySeeds) (pk : List Block)
    (rowSize : ℕ) : Except Err (List RawKey × List Block) := do
  throwIf (rowSize ≠ kemRowBlocks .ecKem ∨ pk.length % rowSize ≠ 0) "genEcKeys: wrong row size"
  let count := pk.length / rowSize
  parallelFor w count 8 ((keySlots rowSize count).turn fun i _ =>
    genEcKey prims seeds rowSize i)
    (List.replicate count (List.replicate 32 0), pk)

def genRows (prims : Primitives) (w : Workers) (seeds : KeySeeds) (kem : PsiKemKind)
    (pk : List Block) (rowSize : ℕ) : Except Err (List RawKey × List Block) :=
  match kem with
  | .obfMlKem => genMlKemKeys prims w seeds pk rowSize
  | .ecKem => genEcKeys prims w seeds pk rowSize

end KeyGen

section Encap

/-- The code bytes at the front of a row. -/
def codeOf (row : List Block) : List Byte := (bytesOf row).take (codeKeyBytes .mlKem512)

/-- One row of `encapMlKem`. `decodeKey` overwrites all of `rawPk`. -/
def encapMlKemRow (prims : Primitives) (seed : List Byte) (rowSize i : ℕ) (row : List Block) :
    Except Err (List Block) := do
  match ← decodeKeyInto .mlKem512 (codeOf row) (List.replicate (rawKeyBytes .mlKem512) 0) with
  | none => throw ("encapMlKem: decodeKey failed at row " ++ toString i)
  | some rawPk => do
    let (cipher, shared) ← prims.mlKem.encaps rawPk seed
    throwIf ((getSizes .mlKem512).cipherTextBytes + 32 > blockBytes * rowSize)
      "encapMlKem: output row too small"
    let out := List.replicate (blockBytes * rowSize) 0
    let out := splice out 0 cipher
    let out := splice out (getSizes .mlKem512).cipherTextBytes shared
    return blocksOf rowSize out

/-- `encapMlKem` of the rows into a buffer of the same size. -/
def encapMlKem (prims : Primitives) (w : Workers) (seeds : ℕ → List Byte) (rows : List Block)
    (rowSize : ℕ) : Except Err (List Block) := do
  throwIf (rowSize ≠ kemKeyBlockSize ∨ rows.length % rowSize ≠ 0)
    "encapMlKem: flat row size mismatch"
  let count := rows.length / rowSize
  parallelFor w count 8 ((Slots.rows Block rowSize count).turn fun i _ =>
    encapMlKemRow prims (seeds i) rowSize i (slice rows (i * rowSize) rowSize))
    (List.replicate rows.length 0)

def eckemLabel : List Byte := [0x65, 0x63, 0x6b, 0x65, 0x6d, 0x2f, 0x74, 0x61, 0x67]

/-- `eckem_raw::kdf`. -/
def ecKdf (curve : Curve) (shared : List Byte) : List Byte := curve.blake2b (eckemLabel ++ shared)

/-- `eckem_raw::encap`: the representative of an ephemeral key, and the tag. -/
def ecEncap (curve : Curve) (pk seed : List Byte) : Except Err (List Byte) := do
  throwIf (!curve.sodiumInit) "eckem: libsodium init failed"
  let pkCurve := curve.elligatorMap pk
  let (repR, skR) := curve.elligatorKeyPair seed
  let tag := ecKdf curve (curve.x25519 skR pkCurve)
  return repR ++ tag

/-- One row of `encapEc`. -/
def encapEcRow (prims : Primitives) (seed : List Byte) (rowSize : ℕ) (row : List Block) :
    Except Err (List Block) := do
  let ct ← ecEncap prims.curve ((bytesOf row).take 32) seed
  return blocksOf rowSize (splice (List.replicate (blockBytes * rowSize) 0) 0 ct)

def encapEc (prims : Primitives) (w : Workers) (seeds : ℕ → List Byte) (rows : List Block)
    (rowSize : ℕ) : Except Err (List Block) := do
  throwIf (rowSize ≠ kemRowBlocks .ecKem ∨ rows.length % rowSize ≠ 0) "encapEc: wrong row size"
  let count := rows.length / rowSize
  parallelFor w count 8 ((Slots.rows Block rowSize count).turn fun i _ =>
    encapEcRow prims (seeds i) rowSize (slice rows (i * rowSize) rowSize))
    (List.replicate rows.length 0)

def encapRows (prims : Primitives) (w : Workers) (seeds : ℕ → List Byte) (kem : PsiKemKind)
    (rows : List Block) (rowSize : ℕ) : Except Err (List Block) :=
  match kem with
  | .obfMlKem => encapMlKem prims w seeds rows rowSize
  | .ecKem => encapEc prims w seeds rows rowSize

end Encap

section Decap

def decapBytes (prims : Primitives) (sk : RawKey) (row : List Block) (rowSize : ℕ) :
    Except Err Bool := do
  let sizes := getSizes .mlKem512
  if rowSize ≠ kemKeyBlockSize ∨ sk.length ≠ sizes.secretKeyBytes then return false
  else if sizes.cipherTextBytes + 32 > blockBytes * kemKeyBlockSize then return false
  else
    let got ← prims.mlKem.decaps ((bytesOf row).take sizes.cipherTextBytes) sk
    return got == slice (bytesOf row) sizes.cipherTextBytes got.length

/-- `eckem_raw::decap` behind the size check of `countEcHits`. -/
def ecDecap (curve : Curve) (sk : RawKey) (row : List Block) : Except Err Bool :=
  if sk.length ≠ 32 then return false
  else
    let shared := curve.x25519 sk (curve.elligatorMap ((bytesOf row).take 32))
    return ecKdf curve shared == slice (bytesOf row) 32 16

/-- Hits of the rows `[from, to)`, one after the other. -/
def countRange (one : ℕ → Except Err Bool) (r : ℕ × ℕ) : Except Err ℕ :=
  (indices r).foldlM (fun hits i => return hits + (← one i).toNat) 0

/-- The count of `countDecapHits` and `countEcHits`: sequential, or partial sums by thread. -/
def countRows (w : Workers) (n : ℕ) (one : ℕ → Except Err Bool) : Except Err ℕ := do
  if !w.multiThread ∨ n < 64 then countRange one (0, n)
  else
    let threads := min (workerLimit w.env w.multiThread w.workerThreads) n
    let chunk := (n + threads - 1) / threads
    let partials ← parallelFor ⟨w.env, true, threads⟩ threads 1
      ((Slots.entries ℕ threads).turn fun t _ => countRange one (t * chunk, min n (t * chunk + chunk)))
      (List.replicate threads 0)
    return partials.sum

def countDecapHits (prims : Primitives) (w : Workers) (sk : List RawKey) (rows : List Block)
    (rowSize : ℕ) : Except Err ℕ := do
  throwIf (rowSize ≠ kemKeyBlockSize ∨ rows.length ≠ sk.length * rowSize)
    "countDecapHits: flat size mismatch"
  countRows w sk.length fun i =>
    decapBytes prims (sk.getD i []) (slice rows (i * rowSize) rowSize) rowSize

def countEcHits (prims : Primitives) (w : Workers) (sk : List RawKey) (rows : List Block)
    (rowSize : ℕ) : Except Err ℕ := do
  throwIf (rowSize ≠ kemRowBlocks .ecKem ∨ rows.length ≠ sk.length * rowSize)
    "countEcHits: flat size mismatch"
  countRows w sk.length fun i =>
    ecDecap prims.curve (sk.getD i []) (slice rows (i * rowSize) rowSize)

def countHits (prims : Primitives) (w : Workers) (kem : PsiKemKind) (sk : List RawKey)
    (rows : List Block) (rowSize : ℕ) : Except Err ℕ :=
  match kem with
  | .obfMlKem => countDecapHits prims w sk rows rowSize
  | .ecKem => countEcHits prims w sk rows rowSize

end Decap

end PqPsi.Protocol
