import Mathlib.Tactic

/-!
# Calls on an object that may throw

A call changes the object and returns normally or throws; what it changed
before it throws stays changed. A sequence of calls is intact when the object is
well formed after each of them and no throwing call has changed it. Calls that
never throw have answers, and two objects that simulate each other give the
same ones.
-/
namespace PqPsi.Lib.Calls

variable {σ α ε : Type}

/-- How a call ended, with the object it leaves. -/
abbrev Outcome (ε σ : Type) := Except ε Unit × σ

/-- A call that throws has not changed the object. -/
def Unchanged (s : σ) (out : Outcome ε σ) : Prop := out.1 ≠ .ok () → out.2 = s

/-- The claim on every call of a sequence, each made on the object the last one left. -/
def Intact (call : σ → α → Outcome ε σ) (good : σ → Prop) : σ → List α → Prop
  | _, [] => True
  | s, a :: as =>
    (good (call s a).2 ∧ Unchanged s (call s a)) ∧ Intact call good (call s a).2 as

/-- Where one call on a well-formed object is intact exactly on the accepted arguments, so is
a sequence of calls. -/
theorem intact_iff {call : σ → α → Outcome ε σ} {good : σ → Prop} {accepted : α → Prop}
    (hstep : ∀ s a, good s → ((good (call s a).2 ∧ Unchanged s (call s a)) ↔ accepted a))
    (as : List α) {s : σ} (hs : good s) :
    Intact call good s as ↔ ∀ a ∈ as, accepted a := by
  induction as generalizing s with
  | nil => simp [Intact]
  | cons a as ih =>
    rw [Intact, List.forall_mem_cons]
    constructor
    · rintro ⟨hcall, hrest⟩
      exact ⟨(hstep s a hs).mp hcall, (ih hcall.1).mp hrest⟩
    · rintro ⟨ha, has⟩
      have hcall := (hstep s a hs).mpr ha
      exact ⟨hcall, (ih hcall.1).mpr has⟩

section Answers
variable {τ β : Type*}

/-- The answers to a sequence of calls, and the object that they leave. -/
def answers {σ : Type*} (call : σ → α → β × σ) : σ → List α → List β × σ
  | s, [] => ([], s)
  | s, a :: as =>
    let (b, s) := call s a
    let (bs, s) := answers call s as
    (b :: bs, s)

/-- Objects that give the same answer to every call and stay related give the same answers. -/
theorem answers_eq {σ : Type*} {call : σ → α → β × σ} {call' : τ → α → β × τ} {R : σ → τ → Prop}
    (hstep : ∀ s t a, R s t → (call s a).1 = (call' t a).1 ∧ R (call s a).2 (call' t a).2)
    (as : List α) {s : σ} {t : τ} (h : R s t) :
    (answers call s as).1 = (answers call' t as).1 ∧
      R (answers call s as).2 (answers call' t as).2 := by
  induction as generalizing s t with
  | nil => exact ⟨rfl, h⟩
  | cons a as ih =>
    obtain ⟨hanswer, hnext⟩ := hstep s t a h
    obtain ⟨hanswers, hlast⟩ := ih hnext
    exact ⟨congrArg₂ List.cons hanswer hanswers, hlast⟩

end Answers

end PqPsi.Lib.Calls
