import PqPsi.Common.Block
import Mathlib.Data.Nat.Size

/-!
# ML-KEM modes and the sizes derived from them

`makeInfo` chooses the width of the vector code as one bit less than the bit
length of `q ^ N + 1`. Since `q` is one modulo four, `q ^ N + 1` is no power of
two, and every integer of `vecBits` bits is below `q ^ N`.
-/
namespace PqPsi.Kemeleon

/-- `MlKem::Mode`. -/
inductive Mode where
  | mlKem512
  | mlKem768
  | mlKem1024
deriving DecidableEq, Repr

/-- `MlKem::Sizes`. -/
structure Sizes where
  publicKeyBytes : ℕ
  secretKeyBytes : ℕ
  cipherTextBytes : ℕ

def getSizes : Mode → Sizes
  | .mlKem512 => ⟨800, 1632, 768⟩
  | .mlKem768 => ⟨1184, 2400, 1088⟩
  | .mlKem1024 => ⟨1568, 3168, 1568⟩

/-- Coefficients of one polynomial. -/
def n : ℕ := 256

def q : ℕ := 3329

def rhoBytes : ℕ := 32

structure Info where
  k : ℕ
  du : ℕ
  dv : ℕ
  polyBytes : ℕ
  c1Bytes : ℕ
  c2Bytes : ℕ
  vecSize : ℕ
  vecBits : ℕ
  vecBytes : ℕ

/-- The loop of `bitLen`, which drops leading zero bits. -/
def trimTop (x : ℕ) : ℕ → ℕ
  | 0 => 0
  | n + 1 => if x.testBit n then n + 1 else trimTop x n

/-- `bitLen`; `mpz_sizeinbase(x, 2)` is the size of a nonzero `x`. -/
def bitLen (x : ℕ) : ℕ := if x = 0 then 0 else trimTop x x.size

def makeInfo (mode : Mode) : Info :=
  let (k, du, dv) := match mode with
    | .mlKem512 => (2, 10, 4)
    | .mlKem768 => (3, 10, 4)
    | .mlKem1024 => (4, 11, 5)
  let vecSize := k * n
  let vecBits := bitLen (q ^ vecSize + 1) - 1
  { k, du, dv
    polyBytes := 384 * k
    c1Bytes := k * du * n / 8
    c2Bytes := dv * n / 8
    vecSize, vecBits
    vecBytes := (vecBits + 7) / 8 }

def rawKeyBytes (mode : Mode) : ℕ := (getSizes mode).publicKeyBytes

def rawCipherBytes (mode : Mode) : ℕ := (getSizes mode).cipherTextBytes

def codeKeyBytes (mode : Mode) : ℕ := rhoBytes + (makeInfo mode).vecBytes

def codeCipherBytes (mode : Mode) : ℕ := (makeInfo mode).vecBytes + (makeInfo mode).c2Bytes

theorem bitLen_eq_size (x : ℕ) : bitLen x = x.size := by
  unfold bitLen
  split_ifs with hx
  · rw [hx, Nat.size_zero]
  cases hs : x.size with
  | zero => rfl
  | succ m =>
    have hle : 2 ^ m ≤ x := Nat.lt_size.mp (by omega)
    have hlt : x < 2 ^ (m + 1) := Nat.size_le.mp hs.le
    have htop : x.testBit m = true := by
      rw [Nat.testBit_eq_decide_div_mod_eq]
      have hdiv : x / 2 ^ m = 1 := by
        rw [Nat.div_eq_iff (by positivity)]
        rw [pow_succ] at hlt
        omega
      rw [hdiv]
      rfl
    rw [trimTop, if_pos htop]

section Width
variable (mode : Mode)

theorem makeInfo_vecBits :
    (makeInfo mode).vecBits = (q ^ (makeInfo mode).vecSize + 1).size - 1 := by
  rw [← bitLen_eq_size]
  rfl

theorem makeInfo_vecBytes : (makeInfo mode).vecBytes = ((makeInfo mode).vecBits + 7) / 8 := rfl

theorem vecSize_pos : 0 < (makeInfo mode).vecSize := by
  cases mode <;> exact Nat.mul_pos (by decide) (by decide)

theorem q_pow_mod_four (N : ℕ) : q ^ N % 4 = 1 := by
  rw [Nat.pow_mod]
  simp [q]

/-- Every integer of `vecBits` bits is below `q ^ N`. -/
theorem two_pow_vecBits_le : 2 ^ (makeInfo mode).vecBits ≤ q ^ (makeInfo mode).vecSize := by
  rw [makeInfo_vecBits]
  set N := (makeInfo mode).vecSize with hN
  have hq : q ≤ q ^ N := Nat.le_self_pow (vecSize_pos mode).ne' q
  have hsize : 2 < (q ^ N + 1).size := Nat.lt_size.mpr (by simp only [q] at hq ⊢; omega)
  have hle : 2 ^ ((q ^ N + 1).size - 1) ≤ q ^ N + 1 := Nat.lt_size.mp (by omega)
  -- four divides the power of two, but not `q ^ N + 1`
  have hdvd : 4 ∣ 2 ^ ((q ^ N + 1).size - 1) := by
    have h4 : (4 : ℕ) = 2 ^ 2 := rfl
    rw [h4]
    exact pow_dvd_pow 2 (by omega)
  have hmod := q_pow_mod_four N
  omega

theorem vecBits_pos : 0 < (makeInfo mode).vecBits := by
  have hq : q ≤ q ^ (makeInfo mode).vecSize := Nat.le_self_pow (vecSize_pos mode).ne' q
  have hsize : 2 < (q ^ (makeInfo mode).vecSize + 1).size :=
    Nat.lt_size.mpr (by simp only [q] at hq ⊢; omega)
  rw [makeInfo_vecBits]
  omega

end Width

end PqPsi.Kemeleon
