import PqPsi.Common.Block
import PqPsi.Lib.Buffers

/-!
# The Keccak permutations of KeccakTools

Class `KeccakF` on its 25 lanes. A lane of any of the seven sizes sits in the
low bits of a 64-bit word. The inverse of `theta` walks through all positions
of one table for 64-bit lanes, which it folds for the shorter ones, and the
inverse of `chi` rewrites each row in place.
-/
namespace PqPsi.Permutation.Keccak
open Lib.Buffers

instance neZero_twentyfive : NeZero 25 := ⟨by decide⟩

abbrev LaneValue := U64

/-- `vector<LaneValue>` of the 25 lanes. -/
@[ext]
structure State where
  lane : Fin 25 → LaneValue

instance : CoeFun State fun _ => Fin 25 → LaneValue := ⟨State.lane⟩

def State.set (A : State) (i : Fin 25) (L : LaneValue) : State := ⟨Function.update A.lane i L⟩

section Integers

/-- An `int` as `unsigned int`. -/
def toUnsigned (i : ℤ) : ℕ := (i % 2 ^ 32).toNat

/-- An `unsigned int` as `int`. -/
def toInt (u : ℕ) : ℤ := (BitVec.ofNat 32 u).toInt

end Integers

section Coordinates

/-- `index(int x)`. -/
def index1 (x : ℤ) : Fin 5 :=
  let x := x.tmod 5
  Fin.ofNat 5 (if x < 0 then x + 5 else x).toNat

/-- `index(int x, int y)`. -/
def index (x y : ℤ) : Fin 25 := Fin.ofNat 25 ((index1 x).val + 5 * (index1 y).val)

def getX (i : Fin 25) : ℕ := i.val % 5

def getY (i : Fin 25) : ℕ := i.val / 5

/-- `pi` on coordinates, which is also the step from one offset of `rho` to the next. -/
def piXY (x y : ℕ) : ℕ × ℕ := ((0 * x + 1 * y) % 5, (2 * x + 3 * y) % 5)

def inversePiXY (X Y : ℕ) : ℕ × ℕ := ((1 * X + 3 * Y) % 5, (1 * X + 0 * Y) % 5)

end Coordinates

section Object

def initializeNominalNumberOfRounds : ℕ → Except Err ℕ
  | 25 => .ok 12
  | 50 => .ok 14
  | 100 => .ok 16
  | 200 => .ok 18
  | 400 => .ok 20
  | 800 => .ok 22
  | 1600 => .ok 24
  | _ => .error "The width must be 25 times a power of two between 1 and 64."

def initializeRhoOffsets (laneSize : ℕ) : Fin 25 → ℕ :=
  ((List.range 24).foldl
    (fun (s : (Fin 25 → ℕ) × ℕ × ℕ) t =>
      (Function.update s.1 (index s.2.1 s.2.2) ((t + 1) * (t + 2) / 2 % laneSize),
        piXY s.2.1 s.2.2))
    (Function.update (fun _ => 0) (index 0 0) 0, 1, 0)).1

/-- `LFSR86540`: the bit it returns and the state it leaves. -/
def lfsr86540 (state : Byte) : Bool × Byte :=
  (state &&& 0x01 != 0, if state &&& 0x80 != 0 then state <<< 1 ^^^ 0x71 else state <<< 1)

/-- One turn of the inner loop of `initializeRoundConstants`, for bit `2^j - 1`. -/
def roundConstantBit (s : Byte × LaneValue) (j : ℕ) : Byte × LaneValue :=
  let (result, lfsr) := lfsr86540 s.1
  let bitPosition := 2 ^ j - 1
  (lfsr, if result then s.2 ^^^ 1#64 <<< bitPosition else s.2)

/-- One turn of the outer loop, on the register and the constants so far. -/
def roundConstantStep (mask : LaneValue) (s : Byte × List LaneValue) :
    Byte × List LaneValue :=
  let (lfsr, c) := (List.range 7).foldl roundConstantBit (s.1, 0)
  (lfsr, s.2 ++ [c &&& mask])

def initializeRoundConstants (mask : LaneValue) : List LaneValue :=
  ((List.range 255).foldl (fun s _ => roundConstantStep mask s) (0x01, [])).2

/-- An object of class `KeccakF`: its constructor has accepted the width. -/
structure KeccakF where
  width : ℕ
  startRoundIndex : ℤ
  nrRounds : ℕ
  nominalNrRounds : ℕ
  accepted : initializeNominalNumberOfRounds width = .ok nominalNrRounds

/-- The constructor with a range of rounds. -/
def keccakF (aWidth : ℕ) (aStartRoundIndex : ℤ) (aNrRounds : ℕ) : Except Err KeccakF :=
  match h : initializeNominalNumberOfRounds aWidth with
  | .ok nominal => .ok ⟨aWidth, aStartRoundIndex, aNrRounds, nominal, h⟩
  | .error e => .error e

/-- The constructor with the nominal number of rounds. -/
def keccakFNominal (aWidth : ℕ) : Except Err KeccakF :=
  match h : initializeNominalNumberOfRounds aWidth with
  | .ok nominal => .ok ⟨aWidth, 0, nominal, nominal, h⟩
  | .error e => .error e

/-- The constructor of `KeccakP`: the last rounds of the nominal ones. -/
def keccakP (aWidth aNrRounds : ℕ) : Except Err KeccakF :=
  (keccakF aWidth 0 aNrRounds).map fun k =>
    { k with startRoundIndex := toInt k.nominalNrRounds - toInt k.nrRounds }

end Object

namespace KeccakF
variable (k : KeccakF)

def laneSize : ℕ := k.width / 25

def mask : LaneValue := BitVec.allOnes 64 >>> (64 - k.laneSize)

def rhoOffsets : Fin 25 → ℕ := initializeRhoOffsets k.laneSize

def roundConstants : List LaneValue := initializeRoundConstants k.mask

def getRoundConstant (roundIndex : ℤ) : LaneValue :=
  k.roundConstants.getD ((roundIndex.tmod 255 + 255).tmod 255).toNat 0

/-- `ROL`: a translation by any distance, also a negative one. -/
def rol (L : LaneValue) (offset : ℤ) : LaneValue :=
  let offset := offset.tmod k.laneSize
  let offset := (if offset < 0 then offset + k.laneSize else offset).toNat
  let L :=
    if offset ≠ 0 then
      let L := L &&& k.mask
      L <<< offset ^^^ L >>> (k.laneSize - offset)
    else L
  L &&& k.mask

section Steps

/-- The vector `C` of `theta` and of its inverse. -/
def columns (A : State) (x : Fin 5) : LaneValue :=
  [1, 2, 3, 4].foldl (fun c (y : ℤ) => c ^^^ A (index x y)) (A (index x 0))

def theta (A : State) : State :=
  let C := columns A
  let D (x : ℤ) := k.rol (C (index1 (x + 1))) 1 ^^^ C (index1 (x - 1))
  ⟨fun i => A i ^^^ D (getX i)⟩

def inversePositions64 : Fin 5 → LaneValue :=
  ![0xDE26BC4D789AF134, 0x09AF135E26BC4D78, 0xEBC4D789AF135E26, 0x7135E26BC4D789AF,
    0xCD789AF135E26BC4]

/-- The table, folded for lanes of `laneSize` bits. -/
def inversePositions (x : Fin 5) : LaneValue :=
  (List.range (64 / k.laneSize)).foldl
    (fun p i => p ^^^ inversePositions64 x >>> (i * k.laneSize)) 0

/-- One turn of the loop over `z`, on the lanes, the vector `C` and the table. -/
def inverseThetaStep (s : State × (Fin 5 → LaneValue) × (Fin 5 → LaneValue)) :
    State × (Fin 5 → LaneValue) × (Fin 5 → LaneValue) :=
  let (A, C, positions) := s
  (⟨fun i => (List.finRange 5).foldl
      (fun L xOff =>
        if positions xOff &&& 1 != 0 then L ^^^ C (index1 ((getX i : ℤ) - xOff.val)) else L) (A i)⟩,
    fun xOff => k.rol (C xOff) 1, fun xOff => positions xOff >>> 1)

def inverseTheta (A : State) : State :=
  ((List.range k.laneSize).foldl (fun s _ => k.inverseThetaStep s)
    (A, columns A, k.inversePositions)).1

def rho (A : State) : State := ⟨fun i => k.rol (A i) (k.rhoOffsets i)⟩

def inverseRho (A : State) : State := ⟨fun i => k.rol (A i) (-(k.rhoOffsets i))⟩

def pi (a : State) : State :=
  (List.range 5).foldl
    (fun A x => (List.range 5).foldl
      (fun A y => A.set (index (piXY x y).1 (piXY x y).2) (a (index x y))) A) a

def inversePi (a : State) : State :=
  (List.range 5).foldl
    (fun A X => (List.range 5).foldl
      (fun A Y => A.set (index (inversePiXY X Y).1 (inversePiXY X Y).2) (a (index X Y))) A) a

/-- Every row is computed from its old lanes before it is written. -/
def chi (A : State) : State :=
  ⟨fun i => A i ^^^
    (~~~A (index (getX i + 1) (getY i)) &&& A (index (getX i + 2) (getY i)))⟩

/-- One assignment of `inverseChi` in row `y`, of which `C` is a copy. -/
def inverseChiStep (C : Fin 5 → LaneValue) (y : ℕ) (A : State) (x : ℕ) : State :=
  let X : ℤ := (5 - 2) * x
  A.set (index X y) (C (index1 X) ^^^ (A (index (X + 2) y) &&& ~~~C (index1 (X + 1))))

/-- Row `y` in place: the lanes 0, 3, 1, 4, 2, and 0 once more. -/
def inverseChiRow (A : State) (y : ℕ) : State :=
  let C (x : Fin 5) : LaneValue := A (index x.val y)
  (List.range (3 * (5 - 1) / 2)).foldl (inverseChiStep C y) A

def inverseChi (A : State) : State := (List.range 5).foldl inverseChiRow A

def iota (A : State) (roundIndex : ℤ) : State :=
  A.set (index 0 0) (A (index 0 0) ^^^ k.getRoundConstant roundIndex)

def round (A : State) (roundIndex : ℤ) : State :=
  k.iota (chi (pi (k.rho (k.theta A)))) roundIndex

def inverseRound (A : State) (roundIndex : ℤ) : State :=
  k.inverseTheta (k.inverseRho (inversePi (inverseChi (k.iota A roundIndex))))

end Steps

section Rounds

/-- The loop of `forward`, over unsigned numbers. -/
def forwardRounds : List ℤ :=
  let first := toUnsigned k.startRoundIndex
  let last := (first + k.nrRounds) % 2 ^ 32
  (List.range' first (last - first)).map toInt

/-- The loop of `inverse`, over signed numbers. -/
def inverseRounds : List ℤ :=
  let last := toInt (toUnsigned k.startRoundIndex + k.nrRounds + (2 ^ 32 - 1))
  (List.range (last + 1 - k.startRoundIndex).toNat).reverse.map fun (i : ℕ) =>
    k.startRoundIndex + i

def forward (A : State) : State := k.forwardRounds.foldl k.round A

def inverse (A : State) : State := k.inverseRounds.foldl k.inverseRound A

end Rounds

section Bytes

def fromBytesToLanes (input : List Byte) : State :=
  if k.laneSize ∈ [1, 2, 4, 8] then
    ⟨fun i => (input.getD (i.val * k.laneSize / 8) 0 >>> (i.val * k.laneSize % 8)).setWidth 64 &&&
      k.mask⟩
  else
    ⟨fun i => (List.range (k.laneSize / 8)).foldl
      (fun out j => out ||| (input.getD (i.val * k.laneSize / 8 + j) 0).setWidth 64 <<< (8 * j)) 0⟩

/-- The bytes that hold the lanes, packed when they are shorter than a byte. -/
def laneBytes (A : State) : List Byte :=
  if k.laneSize ∈ [1, 2, 4, 8] then
    (List.range 25).foldl
      (fun out i => out.modify (i * k.laneSize / 8)
        (· ||| (A (Fin.ofNat 25 i) <<< (i * k.laneSize % 8)).setWidth 8))
      (List.replicate ((25 * k.laneSize + 7) / 8) 0)
  else
    (List.range 25).flatMap fun i => (List.range (k.laneSize / 8)).map fun j =>
      (A (Fin.ofNat 25 i) >>> (8 * j) &&& 0xFF).setWidth 8

/-- The lanes, written over the front of the buffer. -/
def fromLanesToBytes (A : State) (out : List Byte) : List Byte := splice out 0 (k.laneBytes A)

/-- `operator()`. -/
def apply (state : List Byte) : List Byte :=
  k.fromLanesToBytes (k.forward (k.fromBytesToLanes state)) state

/-- `inverse` on bytes. -/
def invert (state : List Byte) : List Byte :=
  k.fromLanesToBytes (k.inverse (k.fromBytesToLanes state)) state

end Bytes

end KeccakF

end PqPsi.Permutation.Keccak
