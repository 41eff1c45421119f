import PqPsi.Lib.BitStream
import PqPsi.Lib.Buffers
import PqPsi.Lib.Exceptions
import PqPsi.Protocol.Primitives

/-!
# The wide permutation built from a small one

`ConsPi` runs a permutation of `n` bits over a window of a state of `N` bits.
The state stays where it is while the window moves by `s` bits each round, and
it is rotated once at the end. Sizes and offsets are numbers without wrap:
they index a state that fits in memory.
-/
namespace PqPsi.Permutation
open Lib.BitStream Lib.Buffers Lib.Exceptions Protocol

/-- `pi::Params`. -/
structure Params where
  kind : SmallKind
  n : ℕ
  N : ℕ
  s : ℕ
  lambda : ℕ

/-- `pi::Perm`: an adapter around a permutation of a buffer. -/
structure Small where
  bits : ℕ
  bits_mod : bits % 8 = 0
  apply : List Byte → List Byte
  invert : List Byte → List Byte
  length_apply : ∀ buf, (apply buf).length = buf.length
  length_invert : ∀ buf, (invert buf).length = buf.length

def Small.bytes (small : Small) : ℕ := small.bits / 8

/-- `invert` is the two-sided inverse of `apply` on the buffers of the adapter. -/
def Small.Inverts (small : Small) : Prop :=
  ∀ buf, buf.length = small.bytes →
    small.invert (small.apply buf) = buf ∧ small.apply (small.invert buf) = buf

/-- The widths of the adapters. -/
def smallBits : SmallKind → ℕ
  | .keccak800 => 800
  | .keccak1600 => 1600
  | .keccak1600R12 => 1600
  | .sneikF512 => 512

/-- The permutations behind the adapters. -/
structure Smalls where
  apply : SmallKind → List Byte → List Byte
  invert : SmallKind → List Byte → List Byte
  length_apply : ∀ kind buf, (apply kind buf).length = buf.length
  length_invert : ∀ kind buf, (invert kind buf).length = buf.length

def makePerm (smalls : Smalls) (kind : SmallKind) : Small where
  bits := smallBits kind
  bits_mod := by cases kind <;> rfl
  apply := smalls.apply kind
  invert := smalls.invert kind
  length_apply := smalls.length_apply kind
  length_invert := smalls.length_invert kind

def checkParams (small : Small) (params : Params) : Except Err Unit := do
  throwIf (params.n = 0 ∨ params.N = 0 ∨ params.s = 0) "Pi params must be positive"
  throwIf (params.n ≠ small.bits) "Pi n must match the small permutation width"
  throwIf (params.N ≤ params.n) "Pi needs N > n"
  throwIf ((params.N - params.n) % params.s ≠ 0) "Pi needs step to divide N - n"
  throwIf (params.s > params.n) "Pi needs s <= n"
  let minGap := 2 * params.lambda % 2 ^ 64
  throwIf (¬ (params.s ≥ minGap ∧ params.n - params.s ≥ minGap)) "Pi lambda check failed"

/-- An object of class `ConsPi`: its constructor has accepted the parameters. -/
structure ConsPi where
  params : Params
  small : Small
  party : Bool
  accepted : checkParams small params = .ok ()

/-- The constructor of `ConsPi`. -/
def consPi (smalls : Smalls) (params : Params) (party : ℕ) : Except Err ConsPi :=
  match h : checkParams (makePerm smalls params.kind) params with
  | .ok () => .ok ⟨params, makePerm smalls params.kind, party % 2 ≠ 0, h⟩
  | .error e => .error e

def bitsNeeded (x : ℕ) : ℕ := if h : x / 2 = 0 then 1 else bitsNeeded (x / 2) + 1
termination_by x
decreasing_by omega

section Bits

/-- The index behind the end of the state wraps to its front. -/
def wrap (N pos : ℕ) : ℕ := if pos < N then pos else pos - N

def getByteBit (data : List Byte) (idx : ℕ) : Bool := bitAt data idx

def setByteBit (data : List Byte) (idx : ℕ) (bit : Bool) : List Byte := writeBit data idx bit

/-- `setBufBit` only ever sets. -/
def setBufBit (buf : List Byte) (idx : ℕ) (bit : Bool) : List Byte :=
  if bit then setBit buf idx else buf

def getBufBit (buf : List Byte) (idx : ℕ) : Bool := bitAt buf idx

end Bits

namespace ConsPi
variable (c : ConsPi)

def t : ℕ := (c.params.N - c.params.n) / c.params.s + 1

def r : ℕ := 5 * c.t - 2

def roundBits : ℕ := bitsNeeded (c.r - 1)

def packShifted (data : List Byte) (off : ℕ) (buf : List Byte) : List Byte :=
  let nBytes := c.params.n / 8
  let totalBytes := c.params.N / 8
  if off % 8 = 0 then
    let start := off / 8
    let first := min nBytes (totalBytes - start)
    let buf := splice buf 0 (slice data start first)
    if first < nBytes then splice buf first (slice data 0 (nBytes - first)) else buf
  else
    (List.range c.params.n).foldl
      (fun buf i => setBufBit buf i (getByteBit data (wrap c.params.N (off + i))))
      (List.replicate buf.length 0#8)

def unpackShifted (buf data : List Byte) (off : ℕ) : List Byte :=
  let nBytes := c.params.n / 8
  let totalBytes := c.params.N / 8
  if off % 8 = 0 then
    let start := off / 8
    let first := min nBytes (totalBytes - start)
    let data := splice data start (slice buf 0 first)
    if first < nBytes then splice data 0 (slice buf first (nBytes - first)) else data
  else
    (List.range c.params.n).foldl
      (fun data i => setByteBit data (wrap c.params.N (off + i)) (getBufBit buf i)) data

def materialize (data : List Byte) (off : ℕ) : List Byte :=
  if off = 0 then data
  else if off % 8 = 0 then data.rotate (off / 8)
  else
    (List.range c.params.N).foldl
      (fun tmp i => setByteBit tmp i (getByteBit data (wrap c.params.N (i + off))))
      (List.replicate data.length 0#8)

/-- `applyShift` and `applyInvShift`, which leave the permuted window in `buf`. -/
def shiftWith (perm : List Byte → List Byte) (data : List Byte) (off : ℕ) (buf : List Byte) :
    List Byte × List Byte :=
  let buf := perm (c.packShifted data off buf)
  (c.unpackShifted buf data off, buf)

def applyShift : List Byte → ℕ → List Byte → List Byte × List Byte := c.shiftWith c.small.apply

def applyInvShift : List Byte → ℕ → List Byte → List Byte × List Byte := c.shiftWith c.small.invert

/-- The loop of `xorRound` over the bits of the round number; `left` is `len - bit`. -/
def xorBits (N start : ℕ) : (left bit v : ℕ) → List Byte → List Byte
  | 0, _, _, data => data
  | left + 1, bit, v, data =>
    if v = 0 then data
    else
      let data := if v % 2 ≠ 0 then flipBit data (wrap N (start + bit)) else data
      xorBits N start left (bit + 1) (v / 2) data

def xorRound (data : List Byte) (off round : ℕ) : List Byte :=
  let len := c.params.n - c.params.s
  let start := wrap c.params.N (off + c.params.s)
  let data := xorBits c.params.N start len 0 round data
  if c.party ∧ c.roundBits < len then
    flipBit data (wrap c.params.N (start + c.roundBits))
  else data

/-- The rounds of `encryptBytes`: state, offset and buffer. -/
def encryptRound (st : List Byte × ℕ × List Byte) (round : ℕ) : List Byte × ℕ × List Byte :=
  let (data, off, buf) := st
  let (data, buf) := c.applyShift data off buf
  (c.xorRound data off round, (off + c.params.s) % c.params.N, buf)

def encryptBytes (data : List Byte) : Except Err (List Byte) := do
  throwIf (data.length * 8 ≠ c.params.N) "Pi byte state size mismatch"
  let (data, off, buf) := (List.range' 1 (c.r - 1)).foldl c.encryptRound
    (data, 0, List.replicate c.small.bytes 0#8)
  return c.materialize (c.applyShift data off buf).1 off

/-- The rounds of `decryptBytes`, from `round` down to one. -/
def decryptRounds : ℕ → List Byte × ℕ × List Byte → List Byte × ℕ × List Byte
  | 0, st => st
  | round + 1, (data, off, buf) =>
    let off := (off + c.params.N - c.params.s) % c.params.N
    let (data, buf) := c.applyInvShift (c.xorRound data off (round + 1)) off buf
    decryptRounds round (data, off, buf)

def decryptBytes (data : List Byte) : Except Err (List Byte) := do
  throwIf (data.length * 8 ≠ c.params.N) "Pi byte state size mismatch"
  let (data, buf) := c.applyInvShift data 0 (List.replicate c.small.bytes 0#8)
  let (data, off, _) := c.decryptRounds (c.r - 1) (data, 0, buf)
  return c.materialize data off

/-- `Bits`: one byte for each bit. -/
abbrev BitBytes := List Byte

def checkState (x : BitBytes) : Except Err Unit := do
  throwIf (x.length ≠ c.params.N) "Pi state size mismatch"
  throwIf (∃ bit ∈ x, bit ≠ 0 ∧ bit ≠ 1) "Pi state must be binary"

def bitsToBytes (bits : BitBytes) : List Byte :=
  (List.range bits.length).foldl
    (fun bytes i => if bits.getD i 0 &&& 1 ≠ 0 then setBit bytes i else bytes)
    (List.replicate ((bits.length + 7) / 8) 0#8)

def bytesToBits (bytes : List Byte) (size : ℕ) : BitBytes :=
  (List.range size).map fun i => if getByteBit bytes i then 1 else 0

/-- `encrypt` of a state given bit by bit. -/
def encrypt (x : BitBytes) : Except Err BitBytes := do
  c.checkState x
  let bytes ← c.encryptBytes (bitsToBytes x)
  return bytesToBits bytes x.length

/-- `decrypt` of a state given bit by bit. -/
def decrypt (x : BitBytes) : Except Err BitBytes := do
  c.checkState x
  let bytes ← c.decryptBytes (bitsToBytes x)
  return bytesToBits bytes x.length

end ConsPi

end PqPsi.Permutation
