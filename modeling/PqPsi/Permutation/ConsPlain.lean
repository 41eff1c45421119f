import PqPsi.Lib.Inverses
import PqPsi.Permutation.ConsWindows

/-!
# The plain construction

The construction on a list of bits that is rotated in every round, and the
simulation of it by the state that stays where it is. Decryption walks the
offset down from zero; both walks see their state rotated by the offset.
-/
namespace PqPsi.Permutation
open Lib.BitStream Lib.BitLists Lib.Exceptions Lib.Inverses Protocol

/-- A permutation of a buffer on the first `n` bits. -/
def applyFront (perm : List Byte → List Byte) (n : ℕ) (x : List Bool) : List Bool :=
  bitsOf (perm (ofBits (x.take n))) ++ x.drop n

namespace ConsPi
section Reference
variable (c : ConsPi)

/-- Bit `j` of the constant of a round: the round number, and the party behind its bits. -/
def roundBit (round j : ℕ) : Bool := round.testBit j ^^ (c.party && decide (j = c.roundBits))

/-- The constant of a round on bits `s` to `n - 1`. -/
def addRound (round : ℕ) (x : List Bool) : List Bool :=
  x.mapIdx fun i bit =>
    if c.params.s ≤ i ∧ i < c.params.n then bit ^^ c.roundBit round (i - c.params.s) else bit

def plainRound (x : List Bool) (round : ℕ) : List Bool :=
  (c.addRound round (applyFront c.small.apply c.params.n x)).rotate c.params.s

/-- The construction as it is defined: every round rotates the whole state. -/
def plainEncrypt (x : List Bool) : List Bool :=
  applyFront c.small.apply c.params.n ((List.range' 1 (c.r - 1)).foldl c.plainRound x)

def plainUnround (round : ℕ) (x : List Bool) : List Bool :=
  applyFront c.small.invert c.params.n (c.addRound round (x.rotate (c.params.N - c.params.s)))

/-- The rounds of `plainEncrypt` undone from the last one on. -/
def plainDecrypt (x : List Bool) : List Bool :=
  (List.range' 1 (c.r - 1)).foldr c.plainUnround (applyFront c.small.invert c.params.n x)

end Reference

variable {c : ConsPi} {data buf : List Byte} {off : ℕ}

section Constants

@[simp] theorem length_xorBits (N start left bit v : ℕ) (data : List Byte) :
    (xorBits N start left bit v data).length = data.length := by
  induction left generalizing bit v data with
  | zero => rfl
  | succ left ih =>
    unfold xorBits
    split_ifs with hz hodd
    · rfl
    · rw [ih, length_flipBit]
    · rw [ih]

@[simp] theorem length_xorRound (data : List Byte) (off round : ℕ) :
    (c.xorRound data off round).length = data.length := by
  simp only [xorRound]
  split_ifs with hp
  · rw [length_flipBit, length_xorBits]
  · rw [length_xorBits]

theorem Fits.congr_length {data' : List Byte} (h : c.Fits data off)
    (hlen : data'.length = data.length) : c.Fits data' off :=
  ⟨by rw [hlen, h.length_eq], h.off_lt⟩

/-- A flip at place `j` behind the offset, under a condition. -/
theorem bitAt_flipBit_place (h : c.Fits data off) {i j pos : ℕ} (hi : i < c.params.N) {p : Prop}
    [Decidable p] (hj : p → j < c.params.N) (hpos : p → pos = (off + j) % c.params.N) :
    bitAt (if p then flipBit data pos else data) ((off + i) % c.params.N) =
      (bitAt data ((off + i) % c.params.N) ^^ (decide (i = j) && decide p)) := by
  split_ifs with hp
  · rw [hpos hp, bitAt_flipBit (h.place_lt j), decide_eq_true hp, Bool.and_true]
    congr 2
    apply propext
    constructor
    · exact rotate_place_inj hi (hj hp)
    · rintro rfl
      rfl
  · rw [decide_eq_false hp, Bool.and_false, Bool.xor_false]

/-- The place `bit` behind the start of the constant. -/
theorem Fits.wrap_start (h : c.Fits data off) {bit : ℕ} (hbit : c.params.s + bit < c.params.N) :
    wrap c.params.N (wrap c.params.N (off + c.params.s) + bit) =
      (off + (c.params.s + bit)) % c.params.N := by
  have hs : c.params.s < c.params.N := by omega
  have hlt := Nat.mod_lt (off + c.params.s) (Nat.zero_lt_of_lt hs)
  rw [h.wrap_eq hs, wrap_eq_mod (by omega), Nat.mod_add_mod, Nat.add_assoc]

theorem bitAt_xorBits (h : c.Fits data off) {left bit v i : ℕ} (hi : i < c.params.N)
    (hfit : c.params.s + bit + left ≤ c.params.N) :
    bitAt (xorBits c.params.N (wrap c.params.N (off + c.params.s)) left bit v data)
        ((off + i) % c.params.N) =
      (bitAt data ((off + i) % c.params.N) ^^
        (decide (c.params.s + bit ≤ i ∧ i < c.params.s + bit + left) &&
          v.testBit (i - (c.params.s + bit)))) := by
  induction left generalizing bit v data with
  | zero =>
    have hno : decide (c.params.s + bit ≤ i ∧ i < c.params.s + bit + 0) = false :=
      decide_eq_false (by omega)
    rw [xorBits, hno, Bool.false_and, Bool.xor_false]
  | succ left ih =>
    rw [xorBits]
    by_cases hz : v = 0
    · simp [hz]
    · have hodd : decide (v % 2 ≠ 0) = v.testBit 0 := by
        rw [Nat.testBit_zero]
        congr 1
        apply propext
        omega
      rw [if_neg hz]
      simp only
      rw [ih (h.congr_length (by split_ifs <;> simp)) (by omega),
        bitAt_flipBit_place h hi (fun _ => by omega) (fun _ => h.wrap_start (by omega)), hodd,
        Bool.xor_assoc]
      congr 1
      by_cases hib : i = c.params.s + bit
      · subst hib
        simp
      · by_cases hlo : c.params.s + bit ≤ i
        · have hsub : i - (c.params.s + bit) = i - (c.params.s + (bit + 1)) + 1 := by omega
          have hrange : (c.params.s + (bit + 1) ≤ i ∧ i < c.params.s + (bit + 1) + left) ↔
              (c.params.s + bit ≤ i ∧ i < c.params.s + bit + (left + 1)) := by omega
          simp [hib, hsub, Nat.testBit_succ, hrange]
        · have hno : ¬ c.params.s + (bit + 1) ≤ i := by omega
          simp [hib, hlo, hno]

theorem bitAt_xorRound (h : c.Fits data off) {round i : ℕ} (hi : i < c.params.N) :
    bitAt (c.xorRound data off round) ((off + i) % c.params.N) =
      if c.params.s ≤ i ∧ i < c.params.n then
        bitAt data ((off + i) % c.params.N) ^^ c.roundBit round (i - c.params.s)
      else bitAt data ((off + i) % c.params.N) := by
  have hs := c.s_le
  have hn := c.n_lt
  simp only [xorRound]
  rw [bitAt_flipBit_place (h.congr_length (length_xorBits _ _ _ _ _ _)) hi (fun hp => by omega)
    (fun hp => h.wrap_start (by omega)), bitAt_xorBits h hi (by omega), roundBit]
  by_cases hin : c.params.s ≤ i ∧ i < c.params.n
  · have hrange : decide (c.params.s + 0 ≤ i ∧ i < c.params.s + 0 + (c.params.n - c.params.s)) = true :=
      decide_eq_true (by omega)
    have hsub : decide (i - c.params.s = c.roundBits) = decide (i = c.params.s + c.roundBits) := by
      congr 1
      apply propext
      omega
    rw [if_pos hin, hrange, hsub, Bool.true_and, Nat.add_zero, Bool.xor_assoc]
    congr 2
    by_cases hp : i = c.params.s + c.roundBits
    · have hlt : c.roundBits < c.params.n - c.params.s := by omega
      simp [hp, hlt]
    · simp [hp]
  · have hrange : decide (c.params.s + 0 ≤ i ∧ i < c.params.s + 0 + (c.params.n - c.params.s)) = false :=
      decide_eq_false (by omega)
    have hno : ¬ (i = c.params.s + c.roundBits ∧ c.roundBits < c.params.n - c.params.s) := by omega
    rw [if_neg hin, hrange, Bool.false_and, Bool.xor_false]
    by_cases hp : i = c.params.s + c.roundBits
    · have hge : ¬ c.roundBits < c.params.n - c.params.s := fun hlt => hno ⟨hp, hlt⟩
      simp [hge]
    · simp [hp]

theorem rotate_bitsOf_xorRound (h : c.Fits data off) (round : ℕ) :
    (bitsOf (c.xorRound data off round)).rotate off =
      c.addRound round ((bitsOf data).rotate off) := by
  have hfit := h.congr_length (length_xorRound (c := c) data off round)
  apply List.ext_getElem (by simp [addRound])
  intro i hi hi'
  have hiN : i < c.params.N := by
    rw [List.length_rotate, length_bitsOf, length_xorRound, ← h.length_eq] at hi
    exact hi
  rw [hfit.getElem_rotate, bitAt_xorRound h hiN]
  simp only [addRound, List.getElem_mapIdx, h.getElem_rotate]

end Constants

end ConsPi

end PqPsi.Permutation
