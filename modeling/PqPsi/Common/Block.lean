import Mathlib.Tactic

/-!
# Machine words, blocks and the primitives taken from outside the protocol

A `block` is a 128-bit register. Its memory image is sixteen bytes, least
significant first, and the bytes of a row of blocks follow each other in
order. AES and the number of hardware threads are fields of `Env`.
-/
namespace PqPsi

abbrev Byte := BitVec 8
abbrev U16 := BitVec 16
abbrev U64 := BitVec 64
abbrev Block := BitVec 128

/-- Limbs and lanes come in fours. -/
instance neZero_four : NeZero 4 := ⟨by decide⟩

/-- Texts of the exceptions the code throws. -/
abbrev Err := String

/-- `sizeof(block)`. -/
def blockBytes : ℕ := 16

def zeroBlock : Block := 0

/-- `toBlock(x, y)`: the high and the low 64-bit half. -/
def toBlock (x y : U64) : Block := x ++ y

/-- The two 64-bit words of a block in memory order. -/
def word (b : Block) (i : ℕ) : U64 := b.extractLsb' (64 * i) 64

/-- What the code takes from the machine: AES under a key, and the thread count. -/
structure Env where
  ecbEncBlock : Block → Block → Block
  hardwareConcurrency : ℕ

/-- The memory image of one block. -/
def bytesOfBlock (b : Block) : List Byte := (List.range 16).map fun i => b.extractLsb' (8 * i) 8

/-- `bytesOf`: a row of blocks read as bytes. -/
def bytesOf (row : List Block) : List Byte := row.flatMap bytesOfBlock

/-- Sixteen bytes read back as a block. -/
def blockOfBytes (bs : List Byte) : Block :=
  BitVec.ofNat 128 (Nat.ofDigits 256 (bs.map BitVec.toNat))

/-- Bytes written through a `u8*` into a row of `n` blocks. -/
def blocksOf : ℕ → List Byte → List Block
  | 0, _ => []
  | n + 1, bs => blockOfBytes (bs.take 16) :: blocksOf n (bs.drop 16)

@[simp] theorem length_bytesOfBlock (b : Block) : (bytesOfBlock b).length = 16 := by
  simp [bytesOfBlock]

@[simp] theorem length_bytesOf (row : List Block) : (bytesOf row).length = 16 * row.length := by
  induction row with
  | nil => rfl
  | cons b row ih =>
    simp only [bytesOf, List.flatMap_cons, List.length_append, length_bytesOfBlock,
      List.length_cons] at ih ⊢
    omega

@[simp] theorem length_blocksOf (n : ℕ) (bs : List Byte) : (blocksOf n bs).length = n := by
  induction n generalizing bs with
  | zero => rfl
  | succ n ih => simp [blocksOf, ih]

end PqPsi
