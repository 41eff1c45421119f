import Mathlib.Data.List.Range
import Mathlib.Tactic

/-!
# Passes over a table in place

A loop whose turns rewrite entries of a shared table, where each turn owns its
entries: it reads and writes no others. In such a loop every entry of the
result comes from the start by the turn that owns it.
-/
namespace PqPsi.Lib.Passes

variable {σ ι α κ : Type*}

/-- `turn k` rewrites the entries that `own k` names, from these entries. -/
structure Owns (get : σ → ι → α) (own : κ → ι → Prop) (turn : σ → κ → σ) : Prop where
  keeps : ∀ s k i, ¬ own k i → get (turn s k) i = get s i
  reads : ∀ s s' k, (∀ i, own k i → get s i = get s' i) →
    ∀ i, own k i → get (turn s k) i = get (turn s' k) i

/-- No two of the turns own a common entry. -/
def Apart (own : κ → ι → Prop) (l : List κ) : Prop :=
  l.Pairwise fun k k' => ∀ i, own k i → ¬ own k' i

namespace Owns
variable {get : σ → ι → α} {own : κ → ι → Prop} {turn : σ → κ → σ}

theorem foldl_unowned (h : Owns get own turn) {l : List κ} {i : ι} (s : σ)
    (hi : ∀ k ∈ l, ¬ own k i) : get (l.foldl turn s) i = get s i := by
  induction l generalizing s with
  | nil => rfl
  | cons k l ih =>
    rw [List.foldl_cons, ih _ fun k' hk' => hi k' (List.mem_cons_of_mem _ hk')]
    exact h.keeps s k i (hi k List.mem_cons_self)

theorem foldl_owned (h : Owns get own turn) {l : List κ} (hl : Apart own l) {k : κ} (hk : k ∈ l)
    {i : ι} (hi : own k i) (s : σ) : get (l.foldl turn s) i = get (turn s k) i := by
  induction l generalizing s with
  | nil => exact absurd hk List.not_mem_nil
  | cons k' l ih =>
    obtain ⟨hfirst, hrest⟩ := List.pairwise_cons.mp hl
    rw [List.foldl_cons]
    rcases List.mem_cons.mp hk with rfl | hk
    · exact h.foldl_unowned _ fun k'' hk'' => hfirst k'' hk'' i hi
    · rw [ih hrest hk]
      exact h.reads _ _ k (fun j hj => h.keeps s k' j fun hj' => hfirst k hk j hj' hj) i hi

/-- A whole pass is one turn of an outer pass. -/
theorem pass {μ : Type*} (turns : μ → List κ) (step : μ → σ → κ → σ)
    (h : ∀ m, Owns get own (step m)) (hl : ∀ m, Apart own (turns m)) :
    Owns get (fun m i => ∃ k ∈ turns m, own k i) fun s m => (turns m).foldl (step m) s where
  keeps s m i hi := (h m).foldl_unowned s fun k hk hk' => hi ⟨k, hk, hk'⟩
  reads s s' m hs i hi := by
    obtain ⟨k, hk, hki⟩ := hi
    rw [(h m).foldl_owned (hl m) hk hki, (h m).foldl_owned (hl m) hk hki]
    exact (h m).reads s s' k (fun j hj => hs j ⟨k, hk, hj⟩) i hki

end Owns

/-- A loop `for (x = 0; …; x += inc)` that steps a counter along. -/
theorem foldl_counted {σ κ : Type*} (f : σ → κ → ℕ → σ) (next : κ → κ) (s : σ) (k : κ) (m inc : ℕ) :
    ((List.range' 0 m inc).foldl (fun t x => (f t.1 t.2 x, next t.2)) (s, k)) =
      ((List.range m).foldl (fun s b => f s (next^[b] k) (inc * b)) s, next^[m] k) := by
  induction m with
  | zero => rfl
  | succ m ih =>
    rw [List.range'_concat, List.foldl_append, ih, List.range_succ, List.foldl_append, Nat.zero_add,
      Function.iterate_succ_apply']
    rfl

end PqPsi.Lib.Passes
