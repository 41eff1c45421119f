import Mathlib.Algebra.BigOperators.Group.Finset.Basic
import Mathlib.Algebra.CharP.Two
import Mathlib.Data.ZMod.Basic
import Mathlib.Tactic

/-!
# Convolution over a finite group

A linear map that commutes with all translations adds up translated copies of
its argument, and the composition of two such maps is the convolution of
their kernels. In characteristic two this turns the inverse of `p + e * p`
into an equation between kernels.
-/
namespace PqPsi.Lib.Convolution

variable {G R : Type*} [AddCommGroup G] [Fintype G] [CommSemiring R]

/-- The copies of `g`, one at each place, weighted by `f`. -/
def conv (f g : G → R) : G → R := fun a => ∑ b, f b * g (a - b)

theorem conv_add_left (f f' g : G → R) : conv (f + f') g = conv f g + conv f' g := by
  funext a
  simp only [conv, Pi.add_apply, add_mul, Finset.sum_add_distrib]

theorem conv_add_right (f g g' : G → R) : conv f (g + g') = conv f g + conv f g' := by
  funext a
  simp only [conv, Pi.add_apply, mul_add, Finset.sum_add_distrib]

theorem conv_assoc (f g h : G → R) : conv f (conv g h) = conv (conv f g) h := by
  funext a
  have hinner : ∀ b, f b * ∑ c, g c * h (a - b - c) = ∑ d, f b * g (d - b) * h (a - d) := by
    intro b
    rw [Finset.mul_sum, ← Equiv.sum_comp (Equiv.addRight b) fun d => f b * g (d - b) * h (a - d)]
    refine Finset.sum_congr rfl fun c _ => ?_
    have hback : a - (c + b) = a - b - c := by rw [add_comm, sub_sub]
    rw [Equiv.coe_addRight, add_sub_cancel_right, hback, mul_assoc]
  simp only [conv, hinner, Finset.sum_mul]
  exact Finset.sum_comm

theorem conv_comm (f g : G → R) : conv f g = conv g f := by
  funext a
  rw [conv, conv, ← Equiv.sum_comp (Equiv.subLeft a)]
  refine Finset.sum_congr rfl fun b _ => ?_
  rw [Equiv.subLeft_apply, sub_sub_cancel, mul_comm]

/-- A sum over the residues modulo `w`, counted up from zero. -/
theorem sum_range_residues {w : ℕ} [NeZero w] {M : Type*} [AddCommMonoid M] (f : ZMod w → M) :
    ∑ i ∈ Finset.range w, f i = ∑ z, f z := by
  symm
  refine Finset.sum_nbij' ZMod.val (fun i => (i : ZMod w)) ?_ ?_ ?_ ?_ ?_
  · exact fun z _ => Finset.mem_range.mpr (ZMod.val_lt z)
  · exact fun i _ => Finset.mem_univ _
  · exact fun z _ => ZMod.natCast_zmod_val z
  · exact fun i hi => ZMod.val_natCast_of_lt (Finset.mem_range.mp hi)
  · exact fun z _ => by rw [ZMod.natCast_zmod_val]

/-- A kernel with one entry translates. -/
theorem conv_single [DecidableEq G] (d : G) (g : G → R) (a : G) :
    conv (Pi.single d 1) g a = g (a - d) := by
  rw [conv, Finset.sum_eq_single d]
  · rw [Pi.single_eq_same, one_mul]
  · intro b _ hb
    rw [Pi.single_eq_of_ne hb, zero_mul]
  · intro hd
    exact absurd (Finset.mem_univ d) hd

section Undo
variable {e q : G → R}

/-- The kernel `q` takes back what `e` adds. -/
theorem conv_undo (h : q + conv q e = e) (p : G → R) : conv q (p + conv e p) = conv e p := by
  rw [conv_add_right, conv_assoc, ← conv_add_left, h]

/-- The kernel `e` takes back what `q` adds. -/
theorem conv_redo [CharP R 2] (h : q + conv q e = e) (p : G → R) : conv e (p + conv q p) = conv q p := by
  have hswap : e + conv e q = q := by
    funext a
    have ha := congrFun h a
    rw [Pi.add_apply] at ha ⊢
    rw [conv_comm e q, ← ha, add_assoc, CharTwo.add_self_eq_zero, add_zero]
  exact conv_undo hswap p

end Undo

end PqPsi.Lib.Convolution
