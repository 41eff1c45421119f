import Mathlib.Tactic

/-!
# Undoing a loop

A loop whose every turn is undone by a turn of a second loop is undone by
running the second one from the last turn to the first.
-/
namespace PqPsi.Lib.Inverses

variable {α ι : Type*} {P : α → Prop} {f : α → ι → α} {g : ι → α → α}

theorem foldl_induction (hf : ∀ a x, P x → P (f x a)) (l : List ι) {x : α} (hx : P x) :
    P (l.foldl f x) := by
  induction l generalizing x with
  | nil => exact hx
  | cons a l ih => exact ih (hf a x hx)

theorem foldr_induction (hg : ∀ a x, P x → P (g a x)) (l : List ι) {x : α} (hx : P x) :
    P (l.foldr g x) := by
  induction l with
  | nil => exact hx
  | cons a l ih => exact hg a _ ih

theorem foldr_foldl_cancel (hf : ∀ a x, P x → P (f x a)) (hgf : ∀ a x, P x → g a (f x a) = x)
    (l : List ι) {x : α} (hx : P x) : l.foldr g (l.foldl f x) = x := by
  induction l generalizing x with
  | nil => rfl
  | cons a l ih => rw [List.foldl_cons, List.foldr_cons, ih (hf a x hx), hgf a x hx]

theorem foldl_foldr_cancel (hg : ∀ a x, P x → P (g a x)) (hfg : ∀ a x, P x → f (g a x) a = x)
    (l : List ι) {x : α} (hx : P x) : l.foldl f (l.foldr g x) = x := by
  induction l with
  | nil => rfl
  | cons a l ih =>
    rw [List.foldr_cons, List.foldl_cons, hfg a _ (foldr_induction hg l hx), ih]

end PqPsi.Lib.Inverses
