import PqPsi.Kemeleon.Params
import PqPsi.Lib.CountingSort

/-!
# Compression and its preimages

`makePreimageTable` lists the values below `q` by their compression, in one
flat list of `u16` with `u16` offsets. Compression is onto, since it inverts
`decompressValue`; at few bits all its classes have the same size except the
class of zero, which has one value more.
-/
namespace PqPsi.Kemeleon
open Lib.CountingSort

def compressValue (x bitsPerValue : ℕ) : ℕ :=
  let scale := 2 ^ bitsPerValue
  (x * scale % 2 ^ 32 + q / 2) / q % 2 ^ 16 % scale

def decompressValue (x bitsPerValue : ℕ) : ℕ :=
  let half := 2 ^ (bitsPerValue - 1)
  ((x * q + half) % 2 ^ 32) >>> bitsPerValue % 2 ^ 16

structure PreimageTable where
  vals : List ℕ
  offsets : List ℕ
  counts : List ℕ

def makePreimageTable (bitsPerValue : ℕ) : PreimageTable :=
  let scale := 2 ^ bitsPerValue
  let counts := histogram (compressValue · bitsPerValue) scale (List.range q)
  let prefixSums := offsetsFrom (2 ^ 16) 0 counts
  let placed := (List.range q).foldl
    (place (2 ^ 16) (compressValue · bitsPerValue) prefixSums.1)
    (List.replicate prefixSums.2 0, List.replicate scale 0)
  { vals := placed.1, offsets := prefixSums.1, counts }

/-- The values below `q` that compress to `want`. -/
def preimages (bitsPerValue want : ℕ) : List ℕ :=
  group (compressValue · bitsPerValue) (List.range q) want

theorem mem_preimages {bitsPerValue want x : ℕ} :
    x ∈ preimages bitsPerValue want ↔ x < q ∧ compressValue x bitsPerValue = want := by
  simp [preimages, group]

theorem nodup_preimages (bitsPerValue want : ℕ) : (preimages bitsPerValue want).Nodup :=
  List.nodup_range.filter _

theorem compressValue_lt (x bitsPerValue : ℕ) : compressValue x bitsPerValue < 2 ^ bitsPerValue :=
  Nat.mod_lt _ (by positivity)

section Table
variable (bitsPerValue : ℕ)

theorem counts_eq : (makePreimageTable bitsPerValue).counts =
    histogram (compressValue · bitsPerValue) (2 ^ bitsPerValue) (List.range q) := by
  simp only [makePreimageTable]

theorem length_counts : (makePreimageTable bitsPerValue).counts.length = 2 ^ bitsPerValue := by
  rw [counts_eq]
  exact (histogram_spec (compressValue · bitsPerValue) (List.range q)
    fun x _ => compressValue_lt x bitsPerValue).1

theorem getD_counts (want : ℕ) :
    (makePreimageTable bitsPerValue).counts.getD want 0 = (preimages bitsPerValue want).length := by
  rw [counts_eq]
  exact (histogram_spec (compressValue · bitsPerValue) (List.range q)
    fun x _ => compressValue_lt x bitsPerValue).2 want

theorem length_range_lt : (List.range q).length < 2 ^ 16 := by
  rw [List.length_range]
  decide

theorem getD_offsets {want : ℕ} (hwant : want < 2 ^ bitsPerValue) :
    (makePreimageTable bitsPerValue).offsets.getD want 0 =
      start (compressValue · bitsPerValue) (List.range q) want := by
  simp only [makePreimageTable]
  exact (offsetsFrom_histogram (2 ^ 16) (compressValue · bitsPerValue) (List.range q)
    (fun x _ => compressValue_lt x bitsPerValue) length_range_lt).1 want hwant

theorem exists_placed_vals : ∃ used, Placed (compressValue · bitsPerValue) (2 ^ bitsPerValue)
    (List.range q) (List.range q) ((makePreimageTable bitsPerValue).vals, used) := by
  have hkey : ∀ x ∈ List.range q, compressValue x bitsPerValue < 2 ^ bitsPerValue :=
    fun x _ => compressValue_lt x bitsPerValue
  obtain ⟨hoff, htotal⟩ := offsetsFrom_histogram (2 ^ 16) (compressValue · bitsPerValue) _ hkey
    length_range_lt
  have hplaced := placed_foldl (2 ^ 16) (compressValue · bitsPerValue) hkey length_range_lt hoff
  rw [← htotal, ← Prod.mk.eta (p := List.foldl _ _ _)] at hplaced
  simp only [makePreimageTable]
  exact ⟨_, hplaced⟩

/-- The segment of `want` lies in the table and holds the preimages of `want`. -/
theorem getElem?_vals {want i : ℕ} (hwant : want < 2 ^ bitsPerValue)
    (hi : i < (preimages bitsPerValue want).length) :
    (makePreimageTable bitsPerValue).vals[
        (makePreimageTable bitsPerValue).offsets.getD want 0 + i]? =
      some ((preimages bitsPerValue want).getD i 0) := by
  obtain ⟨used, hplaced⟩ := exists_placed_vals bitsPerValue
  have hlt : start (compressValue · bitsPerValue) (List.range q) want + i <
      (makePreimageTable bitsPerValue).vals.length := by
    rw [hplaced.vals_length]
    exact start_add_lt (compressValue · bitsPerValue)
      (fun x _ => compressValue_lt x bitsPerValue) hwant hi
  have hget := hplaced.vals_eq want hwant i hi
  dsimp only at hget
  rw [getD_offsets bitsPerValue hwant, List.getElem?_eq_getElem hlt, preimages, ← hget,
    List.getD_eq_getElem _ _ hlt]

end Table

section Classes

/-- Without the casts, which change nothing on values below `q`. -/
theorem compressValue_eq {x bitsPerValue : ℕ} (hx : x < q) (hbits : bitsPerValue ≤ 11) :
    compressValue x bitsPerValue =
      (x * 2 ^ bitsPerValue + 1664) / 3329 % 2 ^ bitsPerValue := by
  have hscale : 2 ^ bitsPerValue ≤ 2 ^ 11 := Nat.pow_le_pow_right two_pos hbits
  have hmul : x * 2 ^ bitsPerValue ≤ 3328 * 2 ^ 11 :=
    Nat.mul_le_mul (by simp only [q] at hx; omega) hscale
  have hq : q = 3329 := rfl
  simp only [compressValue, hq]
  rw [Nat.mod_eq_of_lt (show x * 2 ^ bitsPerValue < 2 ^ 32 by omega),
    Nat.mod_eq_of_lt (show (x * 2 ^ bitsPerValue + 1664) / 3329 < 2 ^ 16 by omega)]

theorem compressValue_decompressValue {want bitsPerValue : ℕ} (hpos : 0 < bitsPerValue)
    (hbits : bitsPerValue ≤ 11) (hwant : want < 2 ^ bitsPerValue) :
    decompressValue want bitsPerValue < q ∧
      compressValue (decompressValue want bitsPerValue) bitsPerValue = want := by
  obtain ⟨d, rfl⟩ : ∃ d, bitsPerValue = d + 1 := ⟨bitsPerValue - 1, by omega⟩
  have hhalf : 2 ^ d ≤ 2 ^ 10 := Nat.pow_le_pow_right two_pos (by omega)
  have hscale : 2 ^ (d + 1) = 2 * 2 ^ d := Nat.pow_succ'
  have hone : 1 ≤ 2 ^ d := Nat.one_le_two_pow
  have hdec : decompressValue want (d + 1) = (want * 3329 + 2 ^ d) / 2 ^ (d + 1) := by
    have hsmall : want * 3329 + 2 ^ d < 2 ^ 32 := by omega
    have hdiv : (want * 3329 + 2 ^ d) / 2 ^ (d + 1) < 2 ^ 16 := by
      rw [Nat.div_lt_iff_lt_mul (by positivity), hscale]
      omega
    simp only [decompressValue, q, Nat.add_sub_cancel, Nat.shiftRight_eq_div_pow]
    rw [Nat.mod_eq_of_lt hsmall, Nat.mod_eq_of_lt hdiv]
  have hmul := Nat.div_mul_le_self (want * 3329 + 2 ^ d) (2 ^ (d + 1))
  have hmod := Nat.lt_div_mul_add (a := want * 3329 + 2 ^ d) (Nat.two_pow_pos (d + 1))
  rw [← hdec] at hmul hmod
  have hlt : decompressValue want (d + 1) < q := by
    rw [hdec, Nat.div_lt_iff_lt_mul (by positivity)]
    simp only [q]
    omega
  refine ⟨hlt, ?_⟩
  rw [compressValue_eq hlt hbits]
  have hdiv : (decompressValue want (d + 1) * 2 ^ (d + 1) + 1664) / 3329 = want := by omega
  rw [hdiv, Nat.mod_eq_of_lt hwant]

theorem length_preimages_pos {want bitsPerValue : ℕ} (hpos : 0 < bitsPerValue)
    (hbits : bitsPerValue ≤ 11) (hwant : want < 2 ^ bitsPerValue) :
    0 < (preimages bitsPerValue want).length := by
  obtain ⟨hlt, hcomp⟩ := compressValue_decompressValue hpos hbits hwant
  exact List.length_pos_of_mem (mem_preimages.mpr ⟨hlt, hcomp⟩)

theorem length_preimages_eq_card {bitsPerValue want : ℕ} {s : Finset ℕ}
    (hs : ∀ x, x ∈ s ↔ x < q ∧ compressValue x bitsPerValue = want) :
    (preimages bitsPerValue want).length = s.card := by
  rw [← List.toFinset_card_of_nodup (nodup_preimages bitsPerValue want)]
  apply congrArg
  ext x
  rw [hs, List.mem_toFinset, mem_preimages]

-- `q - 1` is `2 ^ 8 * 13`, so that up to seven bits every class is cut from intervals of
-- `2 * h` values with `2 ^ bitsPerValue * h = q / 2`
variable {bitsPerValue h : ℕ}

theorem compressValue_eq_div (hh : 2 ^ bitsPerValue * h = 1664) (hbits : bitsPerValue ≤ 11)
    {x : ℕ} (hx : x < q) :
    (x + h - 1) / (2 * h) ≤ 2 ^ bitsPerValue ∧
      compressValue x bitsPerValue = (x + h - 1) / (2 * h) % 2 ^ bitsPerValue := by
  rw [compressValue_eq hx hbits]
  generalize 2 ^ bitsPerValue = scale at hh
  have hpos : 0 < h := Nat.pos_of_ne_zero fun hzero => by simp [hzero] at hh
  have hlow := Nat.div_mul_le_self (x + h - 1) (2 * h)
  have hhigh := Nat.lt_div_mul_add (a := x + h - 1) (show 0 < 2 * h by omega)
  generalize ha : (x + h - 1) / (2 * h) = a at hlow hhigh
  have htop : a ≤ scale := by
    have hmul : (scale + 1) * (2 * h) = 2 * (scale * h) + 2 * h := by ring
    have hlt : (x + h - 1) / (2 * h) < scale + 1 := by
      rw [Nat.div_lt_iff_lt_mul (by omega), hmul]
      simp only [q] at hx
      omega
    omega
  have hdiv : (x * scale + 1664) / 3329 = a := by
    have hsum : x * scale + 1664 = scale * (x + h) := by rw [← hh]; ring
    have h₁ : scale * (a * (2 * h) + 1) ≤ scale * (x + h) := Nat.mul_le_mul_left _ (by omega)
    have h₂ : scale * (x + h) ≤ scale * (a * (2 * h) + 2 * h) := Nat.mul_le_mul_left _ (by omega)
    have e₁ : scale * (a * (2 * h) + 1) = 2 * a * (scale * h) + scale := by ring
    have e₂ : scale * (a * (2 * h) + 2 * h) = 2 * a * (scale * h) + 2 * (scale * h) := by ring
    rw [hsum]
    rw [e₁, hh] at h₁
    rw [e₂, hh] at h₂
    omega
  exact ⟨htop, by rw [hdiv]⟩

theorem mod_eq_iff_of_le {a scale want : ℕ} (hle : a ≤ scale) (hwant : want < scale) :
    a % scale = want ↔ a = want ∨ (want = 0 ∧ a = scale) := by
  rcases Nat.lt_or_ge a scale with hlt | hge
  · rw [Nat.mod_eq_of_lt hlt]
    omega
  · have heq : a = scale := le_antisymm hle hge
    rw [heq, Nat.mod_self]
    omega

/-- Every class has `q / 2 ^ d` values, and the class of zero, which wraps around, one more. -/
theorem length_preimages_eq (hh : 2 ^ bitsPerValue * h = 1664) (hpos : 0 < bitsPerValue)
    (hbits : bitsPerValue ≤ 11) {want : ℕ} (hwant : want < 2 ^ bitsPerValue) :
    (preimages bitsPerValue want).length = q / 2 ^ bitsPerValue + if want = 0 then 1 else 0 := by
  have hclass : ∀ x < q, (x + h - 1) / (2 * h) ≤ 2 ^ bitsPerValue ∧
      compressValue x bitsPerValue = (x + h - 1) / (2 * h) % 2 ^ bitsPerValue :=
    fun x hx => compressValue_eq_div hh hbits hx
  have htwo : 2 ≤ 2 ^ bitsPerValue := Nat.pow_le_pow_right two_pos hpos
  have hhpos : 0 < h := Nat.pos_of_ne_zero fun hzero => by simp [hzero] at hh
  have hquot : q / 2 ^ bitsPerValue = 2 * h := by
    have hq : q = 2 ^ bitsPerValue * (2 * h) + 1 := by
      rw [Nat.mul_left_comm, hh]
      rfl
    rw [hq, Nat.mul_add_div (by omega), Nat.div_eq_of_lt (by omega), Nat.add_zero]
  generalize 2 ^ bitsPerValue = scale at hh hwant hclass htwo hquot ⊢
  have hq : q = 3329 := rfl
  rw [hquot]
  have hsmall : 2 * h ≤ scale * h := Nat.mul_le_mul_right h htwo
  by_cases hzero : want = 0
  · have hs : ∀ x, x ∈ Finset.range (h + 1) ∪ Finset.Ico (3329 - h) 3329 ↔
        x < q ∧ compressValue x bitsPerValue = want := by
      intro x
      rw [Finset.mem_union, Finset.mem_range, Finset.mem_Ico]
      by_cases hx : x < q
      · obtain ⟨hle, hcomp⟩ := hclass x hx
        have hlow : (x + h - 1) / (2 * h) = 0 ↔ x < h + 1 := by
          rw [Nat.div_eq_zero_iff]
          omega
        have hhigh : scale ≤ (x + h - 1) / (2 * h) ↔ 3329 - h ≤ x := by
          have hmul : scale * (2 * h) = 2 * (scale * h) := by ring
          rw [Nat.le_div_iff_mul_le (by omega), hmul]
          omega
        rw [hcomp, mod_eq_iff_of_le hle hwant, hzero, ← hlow]
        omega
      · omega
    have hdisj : Disjoint (Finset.range (h + 1)) (Finset.Ico (3329 - h) 3329) := by
      rw [Finset.disjoint_left]
      intro x hx hx'
      rw [Finset.mem_range] at hx
      rw [Finset.mem_Ico] at hx'
      omega
    rw [length_preimages_eq_card hs, Finset.card_union_of_disjoint hdisj, Finset.card_range,
      Nat.card_Ico, if_pos hzero]
    omega
  · have hone : 1 * (2 * h) ≤ want * (2 * h) :=
      Nat.mul_le_mul_right _ (Nat.pos_of_ne_zero hzero)
    have hs : ∀ x, x ∈ Finset.Ico (want * (2 * h) - h + 1) (want * (2 * h) + h + 1) ↔
        x < q ∧ compressValue x bitsPerValue = want := by
      intro x
      have hnext : (want + 1) * (2 * h) ≤ scale * (2 * h) := Nat.mul_le_mul_right _ hwant
      have hmul : scale * (2 * h) = 2 * (scale * h) := by ring
      have hsucc : (want + 1) * (2 * h) = want * (2 * h) + 2 * h := by ring
      rw [Finset.mem_Ico]
      by_cases hx : x < q
      · obtain ⟨hle, hcomp⟩ := hclass x hx
        rw [hcomp, mod_eq_iff_of_le hle hwant, Nat.div_eq_iff (by omega)]
        omega
      · omega
    rw [length_preimages_eq_card hs, Nat.card_Ico, if_neg hzero]
    omega

end Classes

-- a table of 3329 entries is not to be computed by unification
attribute [irreducible] preimages makePreimageTable

end PqPsi.Kemeleon
