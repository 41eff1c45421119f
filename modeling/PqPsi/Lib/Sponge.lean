import Mathlib.Data.List.GetD
import PqPsi.Lib.KeccakP

/-!
# The sponge construction

FIPS 202 defines its functions as sponges over strings of bits. A sponge has
states with an addition, a function on the states, an embedding of the strings
and a reading of single bits; the padding fills up the last block. A program
that absorbs whole blocks and reads bits from its lanes simulates one.
-/
namespace PqPsi.Lib.Sponge
open BitPoly
open KeccakP (Bits)

/-- Strings of bits. -/
abbrev Str := List (ZMod 2)

/-- Bit `p` of a string; the bits behind its end are zeros. -/
def bit (P : Str) (p : ℕ) : ZMod 2 := P.getD p 0

section Padding

/-- `pad10*1` for blocks of `x` bits, behind `m` bits. -/
def pad (x m : ℕ) : Str := 1 :: List.replicate ((-(m : ℤ) - 2) % x).toNat 0 ++ [1]

def padded (x : ℕ) (N : Str) : Str := N ++ pad x N.length

/-- The two ones and the zeros between them fill up the block. -/
theorem length_padded {x : ℕ} {N : Str} (h : N.length % x + 2 ≤ x) :
    (padded x N).length = x * (N.length / x + 1) := by
  have hx : (0 : ℤ) < x := by omega
  have hdiv : (x : ℤ) * (N.length / x : ℕ) + (N.length % x : ℕ) = N.length := by
    exact_mod_cast Nat.div_add_mod N.length x
  have hzeros : (-(N.length : ℤ) - 2) % x = x - 2 - (N.length % x : ℕ) := by
    have hsplit : -(N.length : ℤ) - 2 =
        (x - 2 - (N.length % x : ℕ)) + x * (-(N.length / x : ℕ) - 1) := by
      linear_combination hdiv
    rw [hsplit, Int.add_mul_emod_self_left]
    exact Int.emod_eq_of_lt (by omega) (by omega)
  have hnat := Nat.div_add_mod N.length x
  rw [padded, pad, hzeros, Nat.mul_succ]
  simp only [List.length_append, List.length_cons, List.length_replicate, List.length_nil]
  omega

/-- A bit of a padded string. -/
theorem bit_padded (x : ℕ) (N : Str) (p : ℕ) : bit (padded x N) p =
    if p < N.length then bit N p
    else if p = N.length ∨ p + 1 = (padded x N).length then 1 else 0 := by
  have hlen : (padded x N).length = N.length + (((-(N.length : ℤ) - 2) % x).toNat + 2) := by
    rw [padded, List.length_append, pad]
    simp
  rw [hlen, bit, padded]
  by_cases hp : p < N.length
  · rw [if_pos hp, List.getD_append _ _ _ _ hp]
    rfl
  · rw [if_neg hp, List.getD_append_right _ _ _ _ (not_lt.mp hp), pad, List.cons_append]
    rcases Nat.eq_or_lt_of_le (not_lt.mp hp) with heq | hlt
    · rw [if_pos (.inl heq.symm), ← heq, Nat.sub_self]
      rfl
    · obtain ⟨q, hq⟩ : ∃ q, p - N.length = q + 1 := ⟨p - N.length - 1, by omega⟩
      rw [hq, List.getD_cons_succ]
      rcases Nat.lt_trichotomy q ((-(N.length : ℤ) - 2) % x).toNat with hin | hlast | hout
      · rw [if_neg (by omega), List.getD_append _ _ _ _ (by simpa using hin)]
        simp [hin]
      · rw [if_pos (by omega), List.getD_append_right _ _ _ _ (by simp [hlast])]
        simp [hlast]
      · rw [if_neg (by omega), List.getD_eq_default _ _ (by simpa using hout)]

end Padding

section Construction

/-- What a sponge is made from. -/
structure Parts (σ : Type*) where
  f : σ → σ
  embed : (ℕ → ZMod 2) → σ
  read : σ → ℕ → ZMod 2

variable {σ : Type*} [Add σ] [Zero σ] (c : Parts σ)

/-- Block `i` of a string, with zeros behind it. -/
def block (x : ℕ) (P : Str) (i p : ℕ) : ZMod 2 := if p < x then bit P (x * i + p) else 0

def Parts.absorb (x : ℕ) (P : Str) : σ :=
  (List.range (P.length / x)).foldl (fun s i => c.f (s + c.embed (block x P i))) 0

/-- Bit `n` of the output is one of the first `x` bits of a state. -/
def Parts.squeeze (x : ℕ) (s : σ) (d : ℕ) : Str :=
  (List.range d).map fun n => c.read (c.f^[n / x] s) (n % x)

/-- `SPONGE[f, pad10*1, x](N, d)`. -/
def Parts.sponge (x : ℕ) (N : Str) (d : ℕ) : Str := c.squeeze x (c.absorb x (padded x N)) d

/-- A program whose states stand for those of the sponge, which absorbs `n` full blocks and keeps
the function for the last block back until it needs output. -/
theorem Parts.sponge_eq {τ : Type*} {abs : τ → σ} {F : τ → τ} (hF : ∀ s, abs (F s) = c.f (abs s))
    {x n : ℕ} {N : Str} (hn : (padded x N).length = x * (n + 1)) (hx : 0 < x) {s : ℕ → τ}
    (hzero : abs (s 0) = 0)
    (hstep : ∀ i < n, abs (s (i + 1)) = c.f (abs (s i) + c.embed (block x (padded x N) i)))
    {last : τ} (hlast : abs last = abs (s n) + c.embed (block x (padded x N) n)) (d : ℕ) :
    c.sponge x N d = (List.range d).map fun n => c.read (abs (F^[n / x + 1] last)) (n % x) := by
  have hblocks : ∀ i ≤ n, (List.range i).foldl
      (fun s i => c.f (s + c.embed (block x (padded x N) i))) 0 = abs (s i) := by
    intro i hi
    induction i with
    | zero => exact hzero.symm
    | succ i ih =>
      rw [List.range_succ, List.foldl_append, ih (by omega), hstep i (by omega)]
      rfl
  have habsorb : c.absorb x (padded x N) = abs (F last) := by
    rw [absorb, hn, Nat.mul_div_cancel_left _ hx, List.range_succ, List.foldl_append,
      hblocks n le_rfl, hF, hlast]
    rfl
  have hturns : ∀ i, abs (F^[i + 1] last) = c.f^[i] (abs (F last)) := by
    intro i
    induction i with
    | zero => rfl
    | succ i ih => rw [Function.iterate_succ_apply', hF, ih, ← Function.iterate_succ_apply' c.f]
  simp only [sponge, squeeze, habsorb, hturns]

end Construction

section Keccak

/-- Keccak-p[1600, 24] on bits. -/
noncomputable def keccakParts : Parts (Bits 64) where
  f := KeccakP.perm 0 24
  embed := KeccakP.ofString
  read A p := A ((p / 64 : ℕ) : ZMod 5) ((p / 320 : ℕ) : ZMod 5) ((p : ℕ) : ZMod 64)

/-- `KECCAK[c](N, d)`. -/
noncomputable def keccak (c : ℕ) (N : Str) (d : ℕ) : Str := keccakParts.sponge (1600 - c) N d

/-- SHA3-`d`. -/
noncomputable def sha3 (d : ℕ) (M : Str) : Str := keccak (2 * d) (M ++ [0, 1]) d

noncomputable def shake128 (M : Str) (d : ℕ) : Str := keccak 256 (M ++ [1, 1, 1, 1]) d

noncomputable def shake256 (M : Str) (d : ℕ) : Str := keccak 512 (M ++ [1, 1, 1, 1]) d

end Keccak

end PqPsi.Lib.Sponge
