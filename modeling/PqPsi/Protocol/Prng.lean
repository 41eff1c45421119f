import PqPsi.Common.Bytes
import PqPsi.Lib.Calls
import PqPsi.Permutation.AesRounds

/-!
# The generator of cryptoTools

Class `PRNG` reads from a buffer of 64 blocks, which it refills in counter
mode as soon as it is used up. Whatever the lengths that are read, the bytes
are those of one endless stream: AES under the seed on the counters from zero
on.
-/
namespace PqPsi.Protocol
open Lib.Buffers Lib.Calls Permutation.Aes

/-- `DEFAULT_BUFF_SIZE`. -/
def defaultBuffSize : ℕ := 64

/-- `mBufferByteCapacity` of every object that was not moved from. -/
def bufferByteCapacity : ℕ := blockBytes * defaultBuffSize

/-- An object that was not moved from: between two calls it holds at least one fresh byte. -/
structure PRNG where
  mSeed : Block
  mBuffer : List Block
  mAes : AES
  mBytesIdx : Fin bufferByteCapacity
  mBlockIdx : U64
  length_mBuffer : mBuffer.length = defaultBuffSize

namespace PRNG

/-- The index blocks of `refillBuffer` from a counter on. -/
def indexArray (blockIdx : U64) : List Block :=
  (List.range defaultBuffSize).map fun i => toBlock 0 (blockIdx + BitVec.ofNat 64 i)

theorem refill_eq (aes : AES) (blockIdx : U64) {buffer : List Block}
    (h : buffer.length = defaultBuffSize) :
    aes.ecbEncBlocks (indexArray blockIdx) buffer = (indexArray blockIdx).map aes.ecbEncBlock := by
  have hlen : (indexArray blockIdx).length = buffer.length := by simp [indexArray, h]
  rw [ecbEncBlocks_eq aes hlen.le, hlen, List.drop_length, List.append_nil]

def refillBuffer (g : PRNG) : PRNG where
  mSeed := g.mSeed
  mBuffer := g.mAes.ecbEncBlocks (indexArray g.mBlockIdx) g.mBuffer
  mAes := g.mAes
  mBytesIdx := ⟨0, by decide⟩
  mBlockIdx := g.mBlockIdx + BitVec.ofNat 64 defaultBuffSize
  length_mBuffer := by rw [refill_eq _ _ g.length_mBuffer, List.length_map]; simp [indexArray]

/-- `PRNG()`, which does not fill its buffer. -/
def empty : PRNG :=
  ⟨zeroBlock, List.replicate defaultBuffSize 0, .setKey zeroBlock, ⟨0, by decide⟩, 0,
    List.length_replicate⟩

/-- `PRNG(seed)`. -/
def new (seed : Block) : PRNG :=
  refillBuffer ⟨seed, List.replicate defaultBuffSize 0, .setKey seed, ⟨0, by decide⟩, 0,
    List.length_replicate⟩

/-- `SetSeed`. -/
def setSeed (g : PRNG) (seed : Block) : PRNG :=
  refillBuffer { g with mSeed := seed, mAes := .setKey seed, mBlockIdx := 0 }

/-- The bytes behind the first `step` unread ones. -/
def advance (g : PRNG) (step : ℕ) : PRNG :=
  if h : g.mBytesIdx + step < bufferByteCapacity then { g with mBytesIdx := ⟨_, h⟩ }
  else g.refillBuffer

/-- `get` of `lengthu8` bytes. -/
def get (g : PRNG) (lengthu8 : ℕ) : List Byte × PRNG :=
  if _h : lengthu8 = 0 then ([], g)
  else
    let step := min lengthu8 (bufferByteCapacity - g.mBytesIdx)
    let (dest, g') := get (g.advance step) (lengthu8 - step)
    (slice (bytesOf g.mBuffer) g.mBytesIdx step ++ dest, g')
termination_by lengthu8
decreasing_by
  have hidx := g.mBytesIdx.isLt
  omega

/-- `get<block>`. -/
def getBlock (g : PRNG) : Block × PRNG :=
  let (bytes, g) := g.get blockBytes
  (blockOfBytes bytes, g)

end PRNG

section Streams
open PRNG

/-- Byte `p` of AES in counter mode. -/
def counterByte (aes : AES) (blockIdx : U64) (p : ℕ) : Byte :=
  (aes.ecbEncBlock (toBlock 0 (blockIdx + BitVec.ofNat 64 (p / 16)))).extractLsb' (8 * (p % 16)) 8

/-- The bytes that a seed stands for. -/
def stream (seed : Block) : ℕ → Byte := counterByte (.setKey seed) 0

/-- The counter of a later block. -/
theorem counterByte_add (aes : AES) (blockIdx : U64) (n p : ℕ) :
    counterByte aes (blockIdx + BitVec.ofNat 64 n) p = counterByte aes blockIdx (16 * n + p) := by
  have hdiv : (16 * n + p) / 16 = n + p / 16 := by omega
  have hmod : (16 * n + p) % 16 = p % 16 := by omega
  rw [counterByte, counterByte, hdiv, hmod, BitVec.ofNat_add, BitVec.add_assoc]

/-- The bytes of encrypted counters. -/
theorem bytesOf_map_enc (aes : AES) (blockIdx : U64) (n : ℕ) :
    bytesOf ((List.range n).map fun i => aes.ecbEncBlock (toBlock 0 (blockIdx + BitVec.ofNat 64 i))) =
      window (counterByte aes blockIdx) 0 (16 * n) := by
  induction n with
  | zero => rfl
  | succ n ih =>
    have hlast : bytesOf [aes.ecbEncBlock (toBlock 0 (blockIdx + BitVec.ofNat 64 n))] =
        window (counterByte aes blockIdx) (0 + 16 * n) 16 := by
      rw [bytesOf, List.flatMap_singleton, bytesOfBlock, window]
      refine List.map_congr_left fun i hi => ?_
      have hi := List.mem_range.mp hi
      have hdiv : (0 + 16 * n + i) / 16 = n := by omega
      have hmod : (0 + 16 * n + i) % 16 = i := by omega
      rw [counterByte, hdiv, hmod]
    rw [List.range_succ, List.map_append, bytesOf_append, ih, List.map_singleton, hlast,
      window_append, Nat.mul_succ]

/-- The object is at place `pos` of the stream `f`: the buffer holds one window of it, and the
counters go on with the next one. -/
structure At (f : ℕ → Byte) (pos : ℕ) (g : PRNG) : Prop where
  buffer : bytesOf g.mBuffer = window f (pos - g.mBytesIdx) bufferByteCapacity
  idx_le : g.mBytesIdx ≤ pos
  next : ∀ p, f (pos - g.mBytesIdx + bufferByteCapacity + p) = counterByte g.mAes g.mBlockIdx p

variable {f : ℕ → Byte} {pos : ℕ} {g : PRNG}

theorem bytesOf_refillBuffer (g : PRNG) : bytesOf g.refillBuffer.mBuffer =
    window (counterByte g.mAes g.mBlockIdx) 0 bufferByteCapacity := by
  have hbuffer : g.refillBuffer.mBuffer = (indexArray g.mBlockIdx).map g.mAes.ecbEncBlock :=
    refill_eq _ _ g.length_mBuffer
  rw [hbuffer, indexArray, List.map_map]
  exact bytesOf_map_enc g.mAes g.mBlockIdx defaultBuffSize

/-- A refill goes on with the counters. -/
theorem refillBuffer_at (h : ∀ p, f (pos + p) = counterByte g.mAes g.mBlockIdx p) :
    At f pos g.refillBuffer where
  buffer := by
    have hwindow : window (counterByte g.mAes g.mBlockIdx) 0 bufferByteCapacity =
        window f pos bufferByteCapacity :=
      window_congr _ fun i _ => by rw [Nat.zero_add, h]
    exact (bytesOf_refillBuffer g).trans hwindow
  idx_le := Nat.zero_le pos
  next p := by
    have hnext := counterByte_add g.mAes g.mBlockIdx defaultBuffSize p
    exact (congrArg f (Nat.add_assoc _ _ _)).trans ((h _).trans hnext.symm)

theorem new_at (seed : Block) : At (stream seed) 0 (PRNG.new seed) := by
  apply refillBuffer_at
  intro p
  rw [Nat.zero_add, stream]

theorem setSeed_at (g : PRNG) (seed : Block) : At (stream seed) 0 (g.setSeed seed) := by
  apply refillBuffer_at
  intro p
  rw [Nat.zero_add, stream]

theorem advance_at (h : At f pos g) {step : ℕ} (hstep : g.mBytesIdx + step ≤ bufferByteCapacity) :
    At f (pos + step) (g.advance step) := by
  have hle := h.idx_le
  unfold advance
  split_ifs with hlt
  · have hbase : pos + step - (g.mBytesIdx + step) = pos - g.mBytesIdx := by omega
    exact ⟨by rw [hbase]; exact h.buffer, by simp only; omega, by rw [hbase]; exact h.next⟩
  · have hfull : pos + step = pos - g.mBytesIdx + bufferByteCapacity := by omega
    rw [hfull]
    exact refillBuffer_at h.next

/-- Reading any number of bytes reads that window of the stream. -/
theorem get_at (h : At f pos g) (n : ℕ) :
    (g.get n).1 = window f pos n ∧ At f (pos + n) (g.get n).2 := by
  induction n using Nat.strong_induction_on generalizing pos g with
  | _ n ih =>
    rw [PRNG.get]
    split_ifs with hn
    · subst hn
      exact ⟨rfl, h⟩
    · have hidx := g.mBytesIdx.isLt
      have hle := h.idx_le
      have hmin : min n (bufferByteCapacity - g.mBytesIdx) ≤ n ∧
          0 < min n (bufferByteCapacity - g.mBytesIdx) ∧
          g.mBytesIdx + min n (bufferByteCapacity - g.mBytesIdx) ≤ bufferByteCapacity := by omega
      generalize min n (bufferByteCapacity - g.mBytesIdx) = step at hmin
      obtain ⟨hstep, hpos, hfit⟩ := hmin
      obtain ⟨hbytes, hat⟩ := ih (n - step) (by omega) (advance_at h hfit)
      have hplace : pos - g.mBytesIdx + g.mBytesIdx = pos := Nat.sub_add_cancel hle
      have hsum : pos + step + (n - step) = pos + n := by omega
      rw [hsum] at hat
      refine ⟨?_, hat⟩
      simp only [hbytes]
      rw [h.buffer, slice_window _ hfit, hplace, window_append, Nat.add_sub_cancel' hstep]

end Streams

section Results
open PRNG

inductive PRNG.Call where
  | setSeed (seed : Block)
  | get (lengthu8 : ℕ)

/-- A call on the object. -/
def PRNG.call (g : PRNG) : Call → List Byte × PRNG
  | .setSeed seed => ([], g.setSeed seed)
  | .get lengthu8 => g.get lengthu8

/-- The same call on a stream and a place in it. -/
def streamCall (c : (ℕ → Byte) × ℕ) : Call → List Byte × ((ℕ → Byte) × ℕ)
  | .setSeed seed => ([], (stream seed, 0))
  | .get lengthu8 => (window c.1 c.2 lengthu8, (c.1, c.2 + lengthu8))

theorem call_at {g : PRNG} {c : (ℕ → Byte) × ℕ} (a : Call) (h : At c.1 c.2 g) :
    (g.call a).1 = (streamCall c a).1 ∧ At (streamCall c a).2.1 (streamCall c a).2.2 (g.call a).2 := by
  cases a with
  | setSeed seed => exact ⟨rfl, setSeed_at g seed⟩
  | get lengthu8 => exact get_at h lengthu8

/-- What an object without a seed returns: one buffer of zeros, and then the stream of the zero
seed. -/
def emptyStream (p : ℕ) : Byte :=
  if p < bufferByteCapacity then 0 else stream zeroBlock (p - bufferByteCapacity)

theorem empty_at : At emptyStream 0 PRNG.empty where
  buffer := by
    have hzeros : ∀ n, bytesOf (List.replicate n (0 : Block)) = List.replicate (16 * n) 0 := by
      intro n
      induction n with
      | zero => rfl
      | succ n ih =>
        have hcons : bytesOf (List.replicate (n + 1) (0 : Block)) =
            bytesOfBlock 0 ++ bytesOf (List.replicate n 0) := rfl
        have hblock : bytesOfBlock 0 = List.replicate 16 0 := by decide
        rw [hcons, ih, hblock, List.replicate_append_replicate, Nat.mul_succ, Nat.add_comm]
    have hwindow : window emptyStream 0 bufferByteCapacity = List.replicate bufferByteCapacity 0 := by
      rw [List.eq_replicate_iff]
      refine ⟨length_window _ _ _, fun b hb => ?_⟩
      obtain ⟨i, hi, rfl⟩ := List.mem_map.mp hb
      rw [Nat.zero_add]
      exact if_pos (List.mem_range.mp hi)
    exact (hzeros defaultBuffSize).trans hwindow.symm
  idx_le := Nat.le_refl 0
  next p := by
    have hle : ¬ bufferByteCapacity + p < bufferByteCapacity := by omega
    have hzero : 0 - PRNG.empty.mBytesIdx.val + bufferByteCapacity + p = bufferByteCapacity + p := by
      rw [Nat.zero_sub, Nat.zero_add]
    rw [hzero, emptyStream, if_neg hle, Nat.add_sub_cancel_left]
    rfl

/-- Whatever is read and seeded in whatever order, the bytes are those of the streams: of the seed
from its start on, and of an object without a seed zeros first. -/
theorem prng_reads_streams (seed : Block) (calls : List Call) :
    (answers PRNG.call (PRNG.new seed) calls).1 = (answers streamCall (stream seed, 0) calls).1 ∧
      (answers PRNG.call PRNG.empty calls).1 = (answers streamCall (emptyStream, 0) calls).1 := by
  have hrun : ∀ {g : PRNG} {c : (ℕ → Byte) × ℕ}, At c.1 c.2 g →
      (answers PRNG.call g calls).1 = (answers streamCall c calls).1 := fun h =>
    (answers_eq (R := fun g c => At c.1 c.2 g) (fun _ _ a h => call_at a h) calls h).1
  exact ⟨hrun (c := (stream seed, 0)) (new_at seed), hrun (c := (emptyStream, 0)) empty_at⟩

end Results

end PqPsi.Protocol
