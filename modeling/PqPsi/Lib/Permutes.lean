import PqPsi.Lib.Exceptions

/-!
# Permutations of the inputs that are not refused

Two functions that may throw form a permutation of a set when both throw
exactly outside of it and undo each other inside. Such a pair is determined by
either of its functions, and it is a bijection of the set with itself.
-/
namespace PqPsi.Lib.Exceptions

universe u
variable {ε α : Type u} {P : α → Prop} {f g : α → Except ε α} {x y : α}

/-- `f` and `g` throw outside of `P` and undo each other on it. -/
structure Permutes (P : α → Prop) (f g : α → Except ε α) : Prop where
  refuses : ∀ x, ¬ P x → (∃ e, f x = .error e) ∧ ∃ e, g x = .error e
  forth : ∀ x, P x → ∃ y, f x = .ok y ∧ P y ∧ g y = .ok x
  back : ∀ x, P x → ∃ y, g x = .ok y ∧ P y ∧ f y = .ok x

/-- A check in front of a function. -/
theorem throwIf_ne_bind {ε : Type u} {α β : Type} [DecidableEq β] {a b : β} (e : ε)
    (x : Except ε α) :
    (throwIf (a ≠ b) e >>= fun _ => x) = if a = b then x else .error e := by
  by_cases h : a = b
  · rw [throwIf, if_neg (not_not.mpr h), if_pos h]
    rfl
  · rw [throwIf, if_pos h, if_neg h]
    rfl

namespace Permutes

theorem symm (h : Permutes P f g) : Permutes P g f where
  refuses x hx := (h.refuses x hx).symm
  forth := h.back
  back := h.forth

/-- What is returned lies in the set, and the other function returns the input. -/
theorem of_eq_ok (h : Permutes P f g) (hxy : f x = .ok y) : P x ∧ P y ∧ g y = .ok x := by
  by_cases hx : P x
  · obtain ⟨y', hy', hPy, hback⟩ := h.forth x hx
    rw [hxy, Except.ok.injEq] at hy'
    exact ⟨hx, hy' ▸ hPy, hy' ▸ hback⟩
  · obtain ⟨⟨e, he⟩, -⟩ := h.refuses x hx
    exact nomatch he.symm.trans hxy

theorem eq_ok_iff (h : Permutes P f g) : f x = .ok y ↔ g y = .ok x :=
  ⟨fun hxy => (h.of_eq_ok hxy).2.2, fun hyx => (h.symm.of_eq_ok hyx).2.2⟩

/-- The set is read off either function. -/
theorem exists_ok_iff (h : Permutes P f g) : (∃ y, f x = .ok y) ↔ P x := by
  constructor
  · rintro ⟨y, hy⟩
    exact (h.of_eq_ok hy).1
  · intro hx
    obtain ⟨y, hy, -⟩ := h.forth x hx
    exact ⟨y, hy⟩

/-- Each function after the other returns what it was given. -/
theorem of_cancel (hrefuses : ∀ x, ¬ P x → (∃ e, f x = .error e) ∧ ∃ e, g x = .error e)
    (hfg : ∀ x, P x → (f x >>= g) = .ok x) (hgf : ∀ x, P x → (g x >>= f) = .ok x) :
    Permutes P f g := by
  have hP : ∀ {y z}, f y = .ok z ∨ g y = .ok z → P y := by
    intro y z hy
    by_contra hnot
    obtain ⟨⟨e, he⟩, e', he'⟩ := hrefuses y hnot
    rcases hy with hy | hy
    · exact nomatch he.symm.trans hy
    · exact nomatch he'.symm.trans hy
  refine ⟨hrefuses, fun x hx => ?_, fun x hx => ?_⟩
  · obtain ⟨y, hy, hback⟩ := bind_eq_ok.mp (hfg x hx)
    exact ⟨y, hy, hP (.inr hback), hback⟩
  · obtain ⟨y, hy, hback⟩ := bind_eq_ok.mp (hgf x hx)
    exact ⟨y, hy, hP (.inl hback), hback⟩

/-- Two total functions that undo each other, behind one check. -/
theorem of_checked [DecidablePred P] {e : ε} {F G : α → α}
    (hf : ∀ x, f x = if P x then .ok (F x) else .error e)
    (hg : ∀ x, g x = if P x then .ok (G x) else .error e)
    (hF : ∀ x, P x → P (F x) ∧ G (F x) = x) (hG : ∀ x, P x → P (G x) ∧ F (G x) = x) :
    Permutes P f g where
  refuses x hx := ⟨⟨e, by rw [hf, if_neg hx]⟩, e, by rw [hg, if_neg hx]⟩
  forth x hx := by
    obtain ⟨hPx, hback⟩ := hF x hx
    exact ⟨F x, by rw [hf, if_pos hx], hPx, by rw [hg, if_pos hPx, hback]⟩
  back x hx := by
    obtain ⟨hPx, hback⟩ := hG x hx
    exact ⟨G x, by rw [hg, if_pos hx], hPx, by rw [hf, if_pos hPx, hback]⟩

end Permutes

end PqPsi.Lib.Exceptions
