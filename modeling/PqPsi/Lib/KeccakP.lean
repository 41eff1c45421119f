import Mathlib.Data.ZMod.Basic
import PqPsi.Lib.BitPoly
import PqPsi.Lib.Convolution
import PqPsi.Lib.Inverses

/-!
# Keccak-p on bits

A state is a function on `ZMod 5 × ZMod 5 × ZMod w` with values in the field
of two elements. The five step mappings are written as FIPS 202 defines them,
and each of them has a two-sided inverse. For `theta` that inverse is a
convolution of the column parities, with any kernel that solves one equation.
-/
namespace PqPsi.Lib.KeccakP
open BitPoly Convolution Inverses

scoped instance neZero_five : NeZero 5 := ⟨by decide⟩

scoped instance atLeastTwo_two : Nat.AtLeastTwo 2 := ⟨le_rfl⟩

scoped instance atLeastTwo_three : Nat.AtLeastTwo 3 := ⟨by decide⟩

scoped instance atLeastTwo_four : Nat.AtLeastTwo 4 := ⟨by decide⟩

/-- Bit `(x, y, z)` of the state. -/
abbrev Bits (w : ℕ) := ZMod 5 → ZMod 5 → ZMod w → ZMod 2

variable {w : ℕ}

/-- The state of a string: lane after lane, row after row. -/
def ofString (S : ℕ → ZMod 2) : Bits w := fun x y z => S (w * (5 * y.val + x.val) + z.val)

section Theta

/-- The parities of the columns. -/
def parity (A : Bits w) (p : ZMod 5 × ZMod w) : ZMod 2 := ∑ y, A p.1 y p.2

def theta (A : Bits w) : Bits w := fun x y z =>
  A x y z + parity A (x - 1, z) + parity A (x + 1, z - 1)

/-- What `theta` adds to a column, as a kernel for the parities. -/
def effect : ZMod 5 × ZMod w → ZMod 2 := Pi.single (1, 0) 1 + Pi.single (-1, 1) 1

/-- Five equal summands are one. -/
theorem parity_add (A : Bits w) (f : ZMod 5 × ZMod w → ZMod 2) :
    parity (fun x y z => A x y z + f (x, z)) = parity A + f := by
  funext p
  have h5 : ∀ b : ZMod 2, 5 * b = b := by decide
  simp only [parity, Finset.sum_add_distrib, Finset.sum_const, Finset.card_univ, ZMod.card,
    nsmul_eq_mul, Nat.cast_ofNat, Pi.add_apply, h5]

variable [NeZero w] {q : ZMod 5 × ZMod w → ZMod 2}

theorem theta_eq (A : Bits w) (x y : ZMod 5) (z : ZMod w) :
    theta A x y z = A x y z + conv effect (parity A) (x, z) := by
  rw [effect, conv_add_left, Pi.add_apply, conv_single, conv_single, Prod.mk_sub_mk,
    Prod.mk_sub_mk, sub_zero, sub_neg_eq_add, theta, add_assoc]

/-- The inverse of `theta` for the kernel `q`. -/
def untheta (q : ZMod 5 × ZMod w → ZMod 2) (A : Bits w) : Bits w := fun x y z =>
  A x y z + conv q (parity A) (x, z)

/-- The kernel equation: `q` takes back what `theta` adds. -/
def Undoes (q : ZMod 5 × ZMod w → ZMod 2) : Prop := q + conv q effect = effect

theorem untheta_theta (h : Undoes q) (A : Bits w) : untheta q (theta A) = A := by
  have hpar : parity (theta A) = parity A + conv effect (parity A) := by
    rw [← parity_add]
    congr 1
    funext x y z
    exact theta_eq A x y z
  funext x y z
  rw [untheta, hpar, conv_undo h, theta_eq, add_assoc, CharTwo.add_self_eq_zero, add_zero]

theorem theta_untheta (h : Undoes q) (A : Bits w) : theta (untheta q A) = A := by
  have hpar : parity (untheta q A) = parity A + conv q (parity A) := by
    rw [← parity_add]
    rfl
  funext x y z
  rw [theta_eq, hpar, conv_redo h, untheta, add_assoc, CharTwo.add_self_eq_zero, add_zero]

end Theta

section Lanes

/-- The place to which `pi` moves lane `(x, y)`. -/
def move (p : ZMod 5 × ZMod 5) : ZMod 5 × ZMod 5 := (p.2, 2 * p.1 + 3 * p.2)

/-- The triangular numbers along the orbit of lane `(1, 0)` under `pi`; lane `(0, 0)` is not on
it. -/
def rhoOffset (x y : ZMod 5) : ℕ :=
  ∑ t ∈ Finset.range 24, if move^[t] (1, 0) = (x, y) then (t + 1) * (t + 2) / 2 else 0

def rho (A : Bits w) : Bits w := fun x y z => A x y (z - rhoOffset x y)

def unrho (A : Bits w) : Bits w := fun x y z => A x y (z + rhoOffset x y)

theorem unrho_rho (A : Bits w) : unrho (rho A) = A := by
  funext x y z
  rw [unrho, rho, add_sub_cancel_right]

theorem rho_unrho (A : Bits w) : rho (unrho A) = A := by
  funext x y z
  rw [rho, unrho, sub_add_cancel]

def pi (A : Bits w) : Bits w := fun x y => A (x + 3 * y) x

def unpi (A : Bits w) : Bits w := fun x y => A y (2 * x + 3 * y)

theorem unpi_pi (A : Bits w) : unpi (pi A) = A := by
  have hback : ∀ x y : ZMod 5, y + 3 * (2 * x + 3 * y) = x := by decide
  funext x y
  rw [unpi, pi, hback]

theorem pi_unpi (A : Bits w) : pi (unpi A) = A := by
  have hback : ∀ x y : ZMod 5, 2 * (x + 3 * y) + 3 * x = y := by decide
  funext x y
  rw [pi, unpi, hback]

end Lanes

section Rows

/-- `chi` on one row. -/
def chiRow (a : ZMod 5 → ZMod 2) (x : ZMod 5) : ZMod 2 := a x + (a (x + 1) + 1) * a (x + 2)

def unchiRow (a : ZMod 5 → ZMod 2) (x : ZMod 5) : ZMod 2 :=
  a x + (a (x + 1) + 1) * (a (x + 2) + (a (x + 3) + 1) * a (x + 4))

/-- A bit of `unchiRow (chiRow a)` depends on five bits only. -/
theorem unchiRow_chiRow (a : ZMod 5 → ZMod 2) : unchiRow (chiRow a) = a := by
  have hrow : ∀ a b c d e : ZMod 2, (a + (b + 1) * c) + ((b + (c + 1) * d) + 1) *
      ((c + (d + 1) * e) + ((d + (e + 1) * a) + 1) * (e + (a + 1) * b)) = a := by decide
  have hturn : ∀ x : ZMod 5, x + 1 + 1 = x + 2 ∧ x + 1 + 2 = x + 3 ∧ x + 2 + 1 = x + 3 ∧
      x + 2 + 2 = x + 4 ∧ x + 3 + 1 = x + 4 ∧ x + 3 + 2 = x ∧ x + 4 + 1 = x ∧ x + 4 + 2 = x + 1 := by
    decide
  funext x
  obtain ⟨h11, h12, h21, h22, h31, h32, h41, h42⟩ := hturn x
  simp only [unchiRow, chiRow, h11, h12, h21, h22, h31, h32, h41, h42]
  exact hrow _ _ _ _ _

theorem chiRow_unchiRow (a : ZMod 5 → ZMod 2) : chiRow (unchiRow a) = a := by
  have hinj : Function.Injective (unchiRow : (ZMod 5 → ZMod 2) → _) := by
    have hsurj : Function.Surjective unchiRow := fun a => ⟨chiRow a, unchiRow_chiRow a⟩
    exact Finite.injective_iff_surjective.mpr hsurj
  exact hinj (unchiRow_chiRow (unchiRow a))

def chi (A : Bits w) : Bits w := fun x y z => chiRow (fun x => A x y z) x

def unchi (A : Bits w) : Bits w := fun x y z => unchiRow (fun x => A x y z) x

theorem unchi_chi (A : Bits w) : unchi (chi A) = A := by
  funext x y z
  exact congrFun (unchiRow_chiRow fun x => A x y z) x

theorem chi_unchi (A : Bits w) : chi (unchi A) = A := by
  funext x y z
  exact congrFun (chiRow_unchiRow fun x => A x y z) x

end Rows

section Constants
open Polynomial

/-- The feedback polynomial of the round constants. -/
noncomputable def feedback : Poly := X ^ 8 + X ^ 6 + X ^ 5 + X ^ 4 + 1

/-- Bit `t` of the sequence behind the round constants: a power of `X`, reduced. -/
noncomputable def rc (t : ℕ) : ZMod 2 := ((X ^ t : Poly) %ₘ feedback).coeff 0

noncomputable def roundConstant (ir : ℕ) (z : ZMod w) : ZMod 2 :=
  ∑ j ∈ Finset.range 7, if z.val = 2 ^ j - 1 then rc (j + 7 * ir) else 0

noncomputable def iota (ir : ℕ) (A : Bits w) : Bits w := fun x y z =>
  A x y z + if x = 0 ∧ y = 0 then roundConstant ir z else 0

theorem iota_iota (ir : ℕ) (A : Bits w) : iota ir (iota ir A) = A := by
  funext x y z
  rw [iota, iota, add_assoc, CharTwo.add_self_eq_zero, add_zero]

end Constants

section Rounds
variable [NeZero w]

noncomputable def round (A : Bits w) (ir : ℕ) : Bits w := iota ir (chi (pi (rho (theta A))))

noncomputable def unround (q : ZMod 5 × ZMod w → ZMod 2) (ir : ℕ) (A : Bits w) : Bits w :=
  untheta q (unrho (unpi (unchi (iota ir A))))

/-- Keccak-p: `n` rounds from round `start` on. -/
noncomputable def perm (start n : ℕ) (A : Bits w) : Bits w := (List.range' start n).foldl round A

/-- The rounds in the other order, each undone. -/
noncomputable def unperm (q : ZMod 5 × ZMod w → ZMod 2) (start n : ℕ) (A : Bits w) : Bits w :=
  (List.range' start n).foldr (unround q) A

variable {q : ZMod 5 × ZMod w → ZMod 2}

theorem unround_round (h : Undoes q) (A : Bits w) (ir : ℕ) : unround q ir (round A ir) = A := by
  rw [unround, round, iota_iota, unchi_chi, unpi_pi, unrho_rho, untheta_theta h]

theorem round_unround (h : Undoes q) (A : Bits w) (ir : ℕ) : round (unround q ir A) ir = A := by
  rw [round, unround, theta_untheta h, rho_unrho, pi_unpi, chi_unchi, iota_iota]

theorem unperm_perm (h : Undoes q) (start n : ℕ) (A : Bits w) :
    unperm q start n (perm start n A) = A :=
  foldr_foldl_cancel (P := fun _ => True) (fun _ _ _ => trivial)
    (fun ir A _ => unround_round h A ir) _ trivial

theorem perm_unperm (h : Undoes q) (start n : ℕ) (A : Bits w) :
    perm start n (unperm q start n A) = A :=
  foldl_foldr_cancel (P := fun _ => True) (fun _ _ _ => trivial)
    (fun ir A _ => round_unround h A ir) _ trivial

end Rounds

end PqPsi.Lib.KeccakP
