import Mathlib.Data.List.Rotate
import PqPsi.Lib.BitStream

/-!
# Bit lists

The bits of a byte list, and the byte list of given bits. Cutting, joining and
rotating bytes cuts, joins and rotates their bits.
-/
namespace PqPsi.Lib.BitLists
open BitStream

def bitsOf (bs : List (BitVec 8)) : List Bool := (List.range (8 * bs.length)).map (bitAt bs)

/-- The bytes with given bits. -/
def ofBits (l : List Bool) : List (BitVec 8) :=
  (List.range l.length).foldl (fun bs i => if l.getD i false then setBit bs i else bs)
    (List.replicate (l.length / 8) 0#8)

@[simp] theorem length_bitsOf (bs : List (BitVec 8)) : (bitsOf bs).length = 8 * bs.length := by
  simp [bitsOf]

@[simp] theorem length_ofBits (l : List Bool) : (ofBits l).length = l.length / 8 := by
  rw [ofBits, length_foldl_setBit _ (fun i => l.getD i false) (fun i => i), List.length_replicate]

@[simp] theorem getElem_bitsOf (bs : List (BitVec 8)) (i : ℕ) (hi : i < (bitsOf bs).length) :
    (bitsOf bs)[i] = bitAt bs i := by
  simp [bitsOf]

theorem bitsOf_injective {bs bs' : List (BitVec 8)} (h : bitsOf bs = bitsOf bs') : bs = bs' := by
  have hlen : bs.length = bs'.length := by
    have hl := congrArg List.length h
    simp only [length_bitsOf] at hl
    omega
  apply ext_bitAt hlen
  intro pos hpos
  have hget := List.getElem_of_eq h (i := pos) (by simpa using hpos)
  simpa using hget

theorem bitsOf_ofBits {l : List Bool} (h : l.length % 8 = 0) : bitsOf (ofBits l) = l := by
  apply List.ext_getElem
  · rw [length_bitsOf, length_ofBits]
    omega
  · intro i hi hi'
    have hpos : ∀ j ∈ List.range l.length, j / 8 < (List.replicate (l.length / 8) 0#8).length := by
      intro j hj
      rw [List.mem_range] at hj
      rw [List.length_replicate]
      omega
    rw [getElem_bitsOf, ofBits, bitAt_foldl_setBit _ (fun i => l.getD i false) (fun i => i) hpos,
      bitAt_replicate_zero, Bool.false_or, Bool.eq_iff_iff, List.any_eq_true]
    simp [hi']

theorem ofBits_bitsOf (bs : List (BitVec 8)) : ofBits (bitsOf bs) = bs := by
  apply bitsOf_injective
  exact bitsOf_ofBits (by simp)

theorem bitsOf_append (bs bs' : List (BitVec 8)) : bitsOf (bs ++ bs') = bitsOf bs ++ bitsOf bs' := by
  apply List.ext_getElem (by simp [Nat.mul_add])
  intro i hi hi'
  rw [getElem_bitsOf, bitAt_append, List.getElem_append]
  by_cases h : i < 8 * bs.length
  · simp [h]
  · simp [h]

theorem bitsOf_take (bs : List (BitVec 8)) {k : ℕ} (hk : k ≤ bs.length) :
    bitsOf (bs.take k) = (bitsOf bs).take (8 * k) := by
  have hsplit := bitsOf_append (bs.take k) (bs.drop k)
  rw [List.take_append_drop] at hsplit
  rw [hsplit, List.take_left' (by simp [hk])]

theorem bitsOf_drop (bs : List (BitVec 8)) {k : ℕ} (hk : k ≤ bs.length) :
    bitsOf (bs.drop k) = (bitsOf bs).drop (8 * k) := by
  have hsplit := bitsOf_append (bs.take k) (bs.drop k)
  rw [List.take_append_drop] at hsplit
  rw [hsplit, List.drop_left' (by simp [hk])]

theorem bitsOf_rotate (bs : List (BitVec 8)) {k : ℕ} (hk : k ≤ bs.length) :
    bitsOf (bs.rotate k) = (bitsOf bs).rotate (8 * k) := by
  have hk' : 8 * k ≤ (bitsOf bs).length := by
    rw [length_bitsOf]
    omega
  rw [List.rotate_eq_drop_append_take hk, List.rotate_eq_drop_append_take hk', bitsOf_append,
    bitsOf_take bs hk, bitsOf_drop bs hk]

/-- Bit `i` of the rotated bits. -/
theorem getElem_rotate_bitsOf (bs : List (BitVec 8)) (off i : ℕ)
    (hi : i < ((bitsOf bs).rotate off).length) :
    ((bitsOf bs).rotate off)[i] = bitAt bs ((off + i) % (8 * bs.length)) := by
  rw [List.getElem_rotate, getElem_bitsOf, length_bitsOf, Nat.add_comm]

/-- Places of a rotated list that hold one bit are one place. -/
theorem rotate_place_inj {N off i j : ℕ} (hi : i < N) (hj : j < N)
    (h : (off + i) % N = (off + j) % N) : i = j := by
  have hmod : i ≡ j [MOD N] := Nat.ModEq.add_left_cancel' off h
  exact Nat.ModEq.eq_of_lt_of_lt hmod hi hj

end PqPsi.Lib.BitLists
