import Mathlib.Data.Option.Basic
import Mathlib.Tactic

/-!
# Runs of a system of actions

An action is enabled in a state or not, and then has one successor. A run is
a list of actions that are enabled in turn.
-/
namespace PqPsi.Lib.Runs

variable {σ α : Type} (step : σ → α → Option σ)

/-- The state after the actions, or `none` when one of them is not enabled in its turn. -/
def run (s : σ) (acts : List α) : Option σ := acts.foldlM step s

variable {step}

theorem run_cons {s s' : σ} {a : α} {acts : List α} :
    run step s (a :: acts) = some s' ↔ ∃ s₁, step s a = some s₁ ∧ run step s₁ acts = some s' := by
  rw [run, List.foldlM_cons]
  exact Option.bind_eq_some_iff

/-- What holds at the start and is kept by every step holds along every run. -/
theorem run_invariant {Inv : σ → Prop} (hstep : ∀ s a s', Inv s → step s a = some s' → Inv s')
    {s s' : σ} {acts : List α} (hs : Inv s) (h : run step s acts = some s') : Inv s' := by
  induction acts generalizing s with
  | nil =>
    obtain rfl : s = s' := by simpa [run] using h
    exact hs
  | cons a acts ih =>
    obtain ⟨s₁, hs₁, hrest⟩ := run_cons.mp h
    exact ih (hstep s a s₁ hs hs₁) hrest

/-- A rank that every step lowers bounds the length of every run. -/
theorem length_add_rank_le {p : σ → Prop} {rank : σ → ℕ}
    (hinv : ∀ s a s', p s → step s a = some s' → p s')
    (hrank : ∀ s a s', p s → step s a = some s' → rank s' < rank s)
    {s s' : σ} {acts : List α} (hs : p s) (h : run step s acts = some s') :
    acts.length + rank s' ≤ rank s := by
  induction acts generalizing s with
  | nil =>
    obtain rfl : s = s' := by simpa [run] using h
    simp
  | cons a acts ih =>
    obtain ⟨s₁, hs₁, hrest⟩ := run_cons.mp h
    have hlt := hrank s a s₁ hs hs₁
    have hle := ih (hinv s a s₁ hs hs₁) hrest
    rw [List.length_cons]
    omega

/-- Where every state that is not done has a step, and every step lowers a rank, every state
leads to one that is done. -/
theorem exists_run_done {p done : σ → Prop} {rank : σ → ℕ}
    (hinv : ∀ s a s', p s → step s a = some s' → p s')
    (hrank : ∀ s a s', p s → step s a = some s' → rank s' < rank s)
    (hnext : ∀ s, p s → ¬ done s → ∃ a s', step s a = some s') {s : σ} (hs : p s) :
    ∃ acts s', run step s acts = some s' ∧ done s' := by
  induction hr : rank s using Nat.strong_induction_on generalizing s with
  | _ r ih =>
    by_cases hdone : done s
    · exact ⟨[], s, rfl, hdone⟩
    · obtain ⟨a, s₁, hs₁⟩ := hnext s hs hdone
      obtain ⟨acts, s', hrun, hd⟩ :=
        ih (rank s₁) (hr ▸ hrank s a s₁ hs hs₁) (hinv s a s₁ hs hs₁) rfl
      exact ⟨a :: acts, s', run_cons.mpr ⟨s₁, hs₁, hrun⟩, hd⟩

end PqPsi.Lib.Runs
