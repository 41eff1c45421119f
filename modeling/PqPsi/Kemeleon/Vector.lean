import PqPsi.Kemeleon.Params
import PqPsi.Lib.BitStream

/-!
# The vector codec

A vector of coefficients below `q` is the integer with these base-`q` digits,
written as `bits` bits in little-endian bytes. Encoding fails when the integer
is too long; decoding fails when a spare bit is set or digits are left over.
-/
namespace PqPsi.Kemeleon
open Lib.BitStream

/-- The last lines of `encodeVec` and of the two `encodePickedVec`: the length check, then
`mpz_export` into a zeroed buffer and the mask of the last byte. -/
def exportVec (x bits : ℕ) : Option (List Byte) :=
  if bitLen x > bits then none
  else
    let out := toBytes ((bits + 7) / 8) x
    some (if bits % 8 ≠ 0 then andLast out (lowMask (bits % 8)) else out)

def encodeVec (coeffs : List ℕ) (bits : ℕ) : Option (List Byte) :=
  exportVec (coeffs.reverse.foldl (fun x a => x * q + a) 0) bits

/-- The loop of `decodeVec`: base-`q` digits, and what is left of the integer. -/
def divLoop : ℕ → ℕ → List ℕ × ℕ
  | 0, x => ([], x)
  | count + 1, x =>
    let (out, rest) := divLoop count (x / q)
    (x % q :: out, rest)

def decodeVec (src : List Byte) (bits count : ℕ) : Option (List ℕ) :=
  if src.length ≠ (bits + 7) / 8 then none
  else if bits % 8 ≠ 0 ∧ src.getD (src.length - 1) 0 &&& ~~~(lowMask (bits % 8)) ≠ 0 then none
  else
    let (out, rest) := divLoop count (ofBytes src)
    if rest = 0 then some out else none

/-- The multiply-and-add loop evaluates the digits. -/
theorem horner_eq (coeffs : List ℕ) :
    coeffs.reverse.foldl (fun x a => x * q + a) 0 = Nat.ofDigits q coeffs := by
  rw [List.foldl_reverse, Nat.ofDigits_eq_foldr]
  congr 1
  funext a x
  rw [Nat.cast_id, Nat.mul_comm, Nat.add_comm]

theorem lt_two_pow_iff_bitLen {x bits : ℕ} : x < 2 ^ bits ↔ bitLen x ≤ bits := by
  rw [bitLen_eq_size, Nat.size_le]

/-- `exportVec` succeeds exactly on integers of `bits` bits, and writes their bytes. -/
theorem exportVec_eq_some {x bits : ℕ} {r : List Byte} :
    exportVec x bits = some r ↔ r.length = (bits + 7) / 8 ∧ ofBytes r = x ∧ x < 2 ^ bits := by
  unfold exportVec
  by_cases hx : x < 2 ^ bits
  · have hfit : x < 256 ^ ((bits + 7) / 8) := by
      have h256 : (256 : ℕ) = 2 ^ 8 := rfl
      rw [h256, ← pow_mul]
      exact lt_of_lt_of_le hx (Nat.pow_le_pow_right two_pos (by omega))
    have hlen := length_toBytes hfit
    have hout : (if bits % 8 ≠ 0 then andLast (toBytes ((bits + 7) / 8) x) (lowMask (bits % 8))
        else toBytes ((bits + 7) / 8) x) = toBytes ((bits + 7) / 8) x := by
      split_ifs with hrem
      · -- the mask has nothing to clear
        apply ext_bitAt (length_andLast _ _)
        intro p _
        rw [bitAt_andLast_lowMask hlen hrem]
        by_cases hp : p < bits
        · simp [hp]
        · have hzero := ofBytes_lt_iff.mp (show ofBytes (toBytes ((bits + 7) / 8) x) < 2 ^ bits by
            rwa [ofBytes_toBytes hfit]) p (by omega)
          rw [hzero, Bool.false_and]
      · rfl
    rw [if_neg (not_lt.mpr (lt_two_pow_iff_bitLen.mp hx))]
    simp only [hout, Option.some.injEq]
    constructor
    · rintro rfl
      exact ⟨hlen, ofBytes_toBytes hfit, hx⟩
    · rintro ⟨hr, hval, -⟩
      rw [← hval, ← hr, toBytes_ofBytes]
  · rw [if_pos (by rw [lt_two_pow_iff_bitLen] at hx; omega)]
    simp [hx]

theorem exists_exportVec {x bits : ℕ} (h : x < 2 ^ bits) : ∃ r, exportVec x bits = some r := by
  unfold exportVec
  rw [if_neg (not_lt.mpr (lt_two_pow_iff_bitLen.mp h))]
  exact ⟨_, rfl⟩

theorem divLoop_spec (count x : ℕ) :
    (divLoop count x).1.length = count ∧ (∀ t ∈ (divLoop count x).1, t < q) ∧
      Nat.ofDigits q (divLoop count x).1 + q ^ count * (divLoop count x).2 = x := by
  induction count generalizing x with
  | zero => simp [divLoop]
  | succ count ih =>
    obtain ⟨hlen, hlt, hsum⟩ := ih (x / q)
    simp only [divLoop, List.length_cons, hlen, List.mem_cons, forall_eq_or_imp, true_and,
      Nat.ofDigits_cons]
    refine ⟨⟨Nat.mod_lt x (by decide), hlt⟩, ?_⟩
    calc x % q + q * Nat.ofDigits q (divLoop count (x / q)).1 +
          q ^ (count + 1) * (divLoop count (x / q)).2
        = x % q + q * (Nat.ofDigits q (divLoop count (x / q)).1 +
          q ^ count * (divLoop count (x / q)).2) := by ring
      _ = x := by rw [hsum, Nat.mod_add_div]

/-- Decoding succeeds exactly on byte strings of the right length with clear spare bits, and
then gives the digits of the integer. -/
theorem decodeVec_eq_some {src : List Byte} {bits count : ℕ} (hfit : 2 ^ bits ≤ q ^ count)
    {coeffs : List ℕ} :
    decodeVec src bits count = some coeffs ↔
      src.length = (bits + 7) / 8 ∧ ofBytes src < 2 ^ bits ∧ coeffs.length = count ∧
        (∀ t ∈ coeffs, t < q) ∧ Nat.ofDigits q coeffs = ofBytes src := by
  unfold decodeVec
  by_cases hlen : src.length = (bits + 7) / 8
  · have hspare : (bits % 8 ≠ 0 ∧ src.getD (src.length - 1) 0 &&& ~~~(lowMask (bits % 8)) ≠ 0) ↔
        ¬ ofBytes src < 2 ^ bits := by
      by_cases hrem : bits % 8 = 0
      · have hlt : ofBytes src < 2 ^ bits := by
          rw [ofBytes_lt_iff]
          intro p hp
          exact bitAt_of_ge (by omega)
        simp [hrem, hlt]
      · rw [ofBytes_lt_iff, ← and_highMask_eq_zero hlen hrem]
        simp [hrem]
    rw [if_neg (not_not.mpr hlen)]
    by_cases hlt : ofBytes src < 2 ^ bits
    · obtain ⟨hcount, hdigits, hsum⟩ := divLoop_spec count (ofBytes src)
      have hrest : (divLoop count (ofBytes src)).2 = 0 := by
        by_contra hne
        have hge : q ^ count * 1 ≤ q ^ count * (divLoop count (ofBytes src)).2 :=
          Nat.mul_le_mul_left _ (Nat.pos_of_ne_zero hne)
        omega
      rw [if_neg (by rw [hspare]; exact not_not.mpr hlt)]
      rw [hrest, Nat.mul_zero, Nat.add_zero] at hsum
      simp only [hrest, if_true, Option.some.injEq]
      constructor
      · rintro rfl
        exact ⟨hlen, hlt, hcount, hdigits, hsum⟩
      · rintro ⟨-, -, hc, hd, hval⟩
        exact Nat.ofDigits_inj_of_len_eq (by decide) (hcount.trans hc.symm) hdigits hd
          (hsum.trans hval.symm)
    · rw [if_pos (hspare.mpr hlt)]
      simp [hlt]
  · rw [if_pos hlen]
    simp [hlen]

theorem exists_decodeVec {src : List Byte} {bits count : ℕ} (hfit : 2 ^ bits ≤ q ^ count)
    (hlen : src.length = (bits + 7) / 8) (hlt : ofBytes src < 2 ^ bits) :
    ∃ coeffs, decodeVec src bits count = some coeffs := by
  have hinv := (Nat.setInvOn_digitsAppend_ofDigits (b := q) (by decide) count).2
    (show ofBytes src ∈ _ from lt_of_lt_of_le hlt hfit)
  refine ⟨Nat.digitsAppend q count (ofBytes src), (decodeVec_eq_some hfit).mpr
    ⟨hlen, hlt, Nat.length_digitsAppend (by decide) count (lt_of_lt_of_le hlt hfit),
      fun t ht => Nat.lt_of_mem_digitsAppend (by decide) count t ht, hinv⟩⟩

end PqPsi.Kemeleon
