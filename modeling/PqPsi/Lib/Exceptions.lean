import Mathlib.Tactic

/-!
# Inverting computations that may throw

A run that returned normally passed every check on its way. The two rules
peel a `do` block apart from the front, one call or one check at a time.
-/
namespace PqPsi.Lib.Exceptions

universe u v
variable {ε : Type u} {α β : Type v}

/-- Throw `e` when the condition holds, and go on otherwise. -/
def throwIf (c : Prop) [Decidable c] (e : ε) : Except ε Unit := if c then .error e else .ok ()

@[simp] theorem throwIf_eq_ok {c : Prop} [Decidable c] {e : ε} {u : Unit} :
    throwIf c e = .ok u ↔ ¬ c := by
  unfold throwIf
  split <;> simp_all

@[simp] theorem throwIf_false (e : ε) : throwIf False e = .ok () := rfl

@[simp] theorem throwIf_true (e : ε) : throwIf True e = .error e := rfl

theorem bind_eq_ok {x : Except ε α} {f : α → Except ε β} {b : β} :
    x >>= f = .ok b ↔ ∃ a, x = .ok a ∧ f a = .ok b := by
  cases x with
  | error e => simp [bind, Except.bind]
  | ok a => simp [bind, Except.bind]

@[simp] theorem ok_bind (a : α) (f : α → Except ε β) : (Except.ok a >>= f) = f a := rfl

@[simp] theorem error_bind (e : ε) (f : α → Except ε β) : (Except.error e >>= f) = .error e := rfl

theorem exists_error_bind {x : Except ε α} {f : α → Except ε β} (h : ∃ e, x = .error e) :
    ∃ e, (x >>= f) = .error e := by
  obtain ⟨e, rfl⟩ := h
  exact ⟨e, rfl⟩

@[simp] theorem bind_ok (x : Except ε α) : (x >>= fun a => .ok a) = x := by
  cases x <;> rfl

/-- A last step that cannot fail leaves the error alone. -/
theorem bind_ok_eq_error {x : Except ε α} {f : α → β} {e : ε} :
    (x >>= fun a => .ok (f a)) = .error e ↔ x = .error e := by
  cases x <;> simp [bind, Except.bind]

theorem map_bind {γ : Type v} (x : Except ε α) (f : α → Except ε β) (g : β → γ) :
    (x >>= f).map g = x >>= fun a => (f a).map g := by
  cases x <;> rfl

@[simp] theorem pure_eq_ok (a : α) : (pure a : Except ε α) = .ok a := rfl

@[simp] theorem throw_eq_error (e : ε) : (throw e : Except ε α) = .error e := rfl

end PqPsi.Lib.Exceptions
