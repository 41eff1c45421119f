import PqPsi.Okvs.Fit
import PqPsi.Lib.Buffers
import PqPsi.Lib.Ranges
import Mathlib.Data.BitVec
import Mathlib.Data.List.Sort

/-!
# Band rows

A row of the linear system is a start column and a 256-bit mask in four
64-bit limbs. The operations on masks work limb by limb with the special
cases of the source at multiples of 64. `BandRow` is generic in the right
hand side: the nested encoder stores the value row itself, the flat one an
offset into a shared buffer.
-/
namespace PqPsi.Okvs
open Lib.Buffers Lib.Exceptions Lib.Ranges

/-- `RBBits`: four limbs, least significant first. -/
abbrev RBBits := Fin 4 → U64

/-- A row of the system with a right-hand side of type `ρ`. -/
structure BandRow (ρ : Type) where
  start : ℕ
  bits : RBBits
  rhs : ρ

/-- `RBRow` owns its right-hand side. -/
abbrev RBRow := BandRow (List Block)

/-- `RBFlatRow` points into a shared buffer. -/
abbrev RBFlatRow := BandRow ℕ

section Hash
variable {F : Type} (env : Env) (params : RBParams F)

/-- The start hash: the two halves of one AES block, folded. -/
def rbHash64 (key : Block) : U64 :=
  let x := env.ecbEncBlock params.startSeed key
  word x 0 ^^^ word x 1

/-- Two AES blocks under the two derived mask keys. -/
def rbMask256 (key : Block) : RBBits :=
  let x₀ := env.ecbEncBlock (params.maskSeed ^^^ toBlock 0 1) key
  let x₁ := env.ecbEncBlock (params.maskSeed ^^^ toBlock 0 2) key
  ![word x₀ 0, word x₀ 1, word x₁ 0, word x₁ 1]

end Hash

/-- Clear the bits from `width` on. -/
def rbTrimBits (bits : RBBits) (width : ℕ) : Except Err RBBits :=
  if width > 256 then .error "RBTrimBits width > 256"
  else if width = 256 then .ok bits
  else
    let full := width / 64
    let rem := width % 64
    .ok fun i =>
      if full + (if rem ≠ 0 then 1 else 0) ≤ i.val then 0#64
      else if rem ≠ 0 ∧ i.val = full then bits i &&& ((1#64 <<< rem) - 1#64)
      else bits i

def rbMaskBits (m : RBBits) (width : ℕ) : Except Err RBBits := rbTrimBits m width

def rbHasBits (bits : RBBits) : Bool := (bits 0 ||| bits 1 ||| bits 2 ||| bits 3) != 0#64

/-- An empty mask becomes the mask of bit 0. -/
def rbEnsureBits (bits : RBBits) : RBBits :=
  if rbHasBits bits then bits else Function.update bits 0 1#64

/-- Bit `idx`; an index from 256 on is outside the array. -/
def rbBit (bits : RBBits) (idx : ℕ) : Bool :=
  if h : idx / 64 < 4 then ((bits ⟨idx / 64, h⟩ >>> (idx % 64)) &&& 1#64) != 0#64 else false

/-- The first set bit, found by a scan for a nonzero limb; `width` if there is none. -/
def rbLead (bits : RBBits) (width : ℕ) : ℕ :=
  match (List.finRange 4).find? fun i => bits i != 0#64 with
  | some i => i.val * 64 + (bits i).ctz.toNat
  | none => width

def rbZeroBelow (bits : RBBits) (idx : ℕ) : RBBits :=
  let limb := idx / 64
  let off := idx % 64
  fun i =>
    if i.val < limb then 0#64
    else if i.val = limb ∧ off ≠ 0 then bits i &&& ~~~((1#64 <<< off) - 1#64)
    else bits i

/-- `out[dst] |= x`, skipped when `dst` is outside the array. -/
def orLimb (out : RBBits) (dst : ℕ) (x : U64) : RBBits :=
  fun i => if i.val = dst then out i ||| x else out i

/-- One turn of the loop of `RBShiftLeft`. -/
def shiftLeftLimb (bits : RBBits) (limbShift bitShift : ℕ) (out : RBBits) (i : Fin 4) : RBBits :=
  if bits i = 0#64 then out
  else
    let dst := i.val + limbShift
    let out := orLimb out dst (bits i <<< bitShift)
    if bitShift ≠ 0 then orLimb out (dst + 1) (bits i >>> (64 - bitShift)) else out

def rbShiftLeft (bits : RBBits) (shift : ℕ) : RBBits :=
  if shift ≥ 256 then 0
  else (List.finRange 4).foldl (shiftLeftLimb bits (shift / 64) (shift % 64)) 0

/-- One turn of the loop of `RBShiftRight`, entered from limb `limbShift` on. -/
def shiftRightLimb (bits : RBBits) (limbShift bitShift : ℕ) (out : RBBits) (i : Fin 4) : RBBits :=
  if i.val < limbShift then out
  else
    let dst := i.val - limbShift
    let out := orLimb out dst (bits i >>> bitShift)
    if h : bitShift ≠ 0 ∧ i.val + 1 < 4 then
      orLimb out dst (bits ⟨i.val + 1, h.2⟩ <<< (64 - bitShift))
    else out

def rbShiftRight (bits : RBBits) (shift : ℕ) : RBBits :=
  if shift ≥ 256 then 0
  else (List.finRange 4).foldl (shiftRightLimb bits (shift / 64) (shift % 64)) 0

/-- XOR `src` from `srcOff` on into `dst` from `dstOff` on, cut at `width`. -/
def rbXorShifted (dst : RBBits) (dstOff : ℕ) (src : RBBits) (srcOff width : ℕ) :
    Except Err RBBits := do
  let tmp := rbZeroBelow src srcOff
  let tmp := if srcOff ≤ dstOff then rbShiftLeft tmp (dstOff - srcOff)
    else rbShiftRight tmp (srcOff - dstOff)
  let tmp ← rbTrimBits tmp width
  return fun i => dst i ^^^ tmp i

/-- Blockwise XOR of two rows. -/
def xorRow (a b : List Block) : List Block := List.zipWith (· ^^^ ·) a b

/-- `RBXor` on vectors. -/
def rbXor (a b : List Block) : Except Err (List Block) := do
  throwIf (a.length ≠ b.length) "RBXor size mismatch"
  return xorRow a b

/-- `RBXor(vector, pointer, n)`. -/
def rbXorPtr (a b : List Block) (n : ℕ) : Except Err (List Block) := do
  throwIf (a.length ≠ n) "RBXor ptr size mismatch"
  return xorRow a (b.take n)

/-- `RBXor(pointer, pointer, n)` inside one buffer, element by element. -/
def rbXorAt (buf : List Block) (a b n : ℕ) : List Block :=
  (List.range n).foldl
    (fun buf k => buf.set (a + k) (buf.getD (a + k) 0 ^^^ buf.getD (b + k) 0)) buf

/-- The index ranges `RBFor` hands to its workers. -/
def rbRanges (env : Env) (n : ℕ) (multiThread : Bool) (workerThreads : ℕ) : List (ℕ × ℕ) :=
  if n = 0 then []
  else if !multiThread then [(0, n)]
  else
    let thrN := min (rbWorkerThreads env multiThread workerThreads) n
    if thrN ≤ 1 ∨ n < 64 then [(0, n)] else chunkRanges n ((n + thrN - 1) / thrN) thrN

section Rows
variable {F : Type} (env : Env) (params : RBParams F) (columns bandWidth : ℕ)

/-- The band of a key: its start column and its mask. -/
def rbBand (key : Block) : Except Err (ℕ × RBBits) := do
  let h := rbHash64 env params key
  let range := columns - bandWidth + 1
  let start := if range = 0 then 0 else h.toNat % range
  let bits ← rbMaskBits (rbMask256 env params key) bandWidth
  return (start, rbEnsureBits bits)

/-- `std::stable_sort` by start column. -/
def sortRows {ρ : Type} (rows : List (BandRow ρ)) : List (BandRow ρ) :=
  rows.insertionSort fun a b => a.start ≤ b.start

/-- `RBRows`. -/
def rbRows (setKeys : List Block) (setValues : List (List Block)) : Except Err (List RBRow) := do
  throwIf (setKeys.length ≠ setValues.length) "RBRows key/value mismatch"
  if setKeys.isEmpty then return []
  let rowSize := (setValues.getD 0 []).length
  throwIf (rowSize = 0) "RBRows empty row"
  throwIf (columns < bandWidth) "RBRows columns < bandWidth"
  let rows ← forRanges (rbRanges env setKeys.length params.multiThread params.workerThreads)
    (fun rows i => do
      throwIf ((setValues.getD i []).length ≠ rowSize) "RBRows row width mismatch"
      let (start, bits) ← rbBand env params columns bandWidth (setKeys.getD i 0)
      return rows.set i ⟨start, bits, setValues.getD i []⟩)
    (List.replicate setKeys.length (⟨0, 0, []⟩ : RBRow))
  return sortRows rows

/-- `RBRowsFlat`: the rows and the buffer their offsets point into. -/
def rbRowsFlat (setKeys setValues : List Block) (rowSize : ℕ) :
    Except Err (List RBFlatRow × List Block) := do
  throwIf (rowSize = 0) "RBRowsFlat empty row"
  throwIf (setValues.length ≠ setKeys.length * rowSize) "RBRowsFlat key/value mismatch"
  if setKeys.isEmpty then return ([], [])
  throwIf (columns < bandWidth) "RBRowsFlat columns < bandWidth"
  let (rows, rhs) ← forRanges
    (rbRanges env setKeys.length params.multiThread params.workerThreads)
    (fun (rows, rhs) i => do
      let (start, bits) ← rbBand env params columns bandWidth (setKeys.getD i 0)
      return (rows.set i ⟨start, bits, i * rowSize⟩,
        splice rhs (i * rowSize) (slice setValues (i * rowSize) rowSize)))
    (List.replicate setKeys.length (⟨0, 0, 0⟩ : RBFlatRow), List.replicate setValues.length 0)
  return (sortRows rows, rhs)

end Rows

end PqPsi.Okvs
