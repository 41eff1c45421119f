import PqPsi.Lib.Buffers
import PqPsi.Lib.Ranges
import Mathlib.Data.List.GetD

/-!
# Loops over independent slots

A state with `n` slots is visited by a loop whose turn `i` reads and rewrites
slot `i` only. When no turn throws, every slot of the result comes from the
same slot of the start by the body of its own turn.
-/
namespace PqPsi.Lib
open Buffers Exceptions

variable {ε σ τ : Type}

/-- How `n` slots with contents `τ` sit in a state `σ`. -/
structure Slots (σ τ : Type) (n : ℕ) where
  get : σ → ℕ → τ
  put : σ → ℕ → τ → σ
  /-- The states that have the slots. -/
  Shaped : σ → Prop
  /-- The contents that fit in a slot. -/
  Fits : τ → Prop
  fits_get : ∀ {s i}, Shaped s → i < n → Fits (get s i)
  shaped_put : ∀ {s i t}, Shaped s → i < n → Fits t → Shaped (put s i t)
  get_put : ∀ {s i t}, Shaped s → i < n → Fits t → get (put s i t) i = t
  get_put_ne : ∀ {s i j t}, Shaped s → i < n → j < n → Fits t → j ≠ i →
    get (put s i t) j = get s j

namespace Slots
variable {n : ℕ} (sl : Slots σ τ n)

/-- One turn of the loop. -/
def turn (body : ℕ → τ → Except ε τ) (s : σ) (i : ℕ) : Except ε σ := do
  let t ← body i (sl.get s i)
  return sl.put s i t

variable {body : ℕ → τ → Except ε τ}

theorem shaped_turn (hbody : ∀ i < n, ∀ t t', sl.Fits t → body i t = .ok t' → sl.Fits t')
    {s s' : σ} {i : ℕ} (hs : sl.Shaped s) (hi : i < n) (h : sl.turn body s i = .ok s') :
    sl.Shaped s' ∧ body i (sl.get s i) = .ok (sl.get s' i) ∧
      ∀ j < n, j ≠ i → sl.get s' j = sl.get s j := by
  obtain ⟨t, ht, hput⟩ := bind_eq_ok.mp h
  obtain rfl : sl.put s i t = s' := by simpa using hput
  have hfits := hbody i hi _ _ (sl.fits_get hs hi) ht
  refine ⟨sl.shaped_put hs hi hfits, ?_, fun j hj hne => sl.get_put_ne hs hi hj hfits hne⟩
  rw [sl.get_put hs hi hfits, ht]

/-- What a loop over all slots has done when it returns. -/
theorem foldlM_spec (hbody : ∀ i < n, ∀ t t', sl.Fits t → body i t = .ok t' → sl.Fits t')
    {s s' : σ} (hs : sl.Shaped s) (h : (List.range n).foldlM (sl.turn body) s = .ok s') :
    sl.Shaped s' ∧ ∀ i < n, body i (sl.get s i) = .ok (sl.get s' i) := by
  -- after `k` turns the slots below `k` are done and the others untouched
  have hrun : ∀ k ≤ n, ∀ s', (List.range k).foldlM (sl.turn body) s = .ok s' →
      sl.Shaped s' ∧ (∀ i < k, body i (sl.get s i) = .ok (sl.get s' i)) ∧
        ∀ i < n, k ≤ i → sl.get s' i = sl.get s i := by
    intro k
    induction k with
    | zero =>
      intro _ s' hrun
      obtain rfl : s = s' := by simpa using hrun
      exact ⟨hs, fun i hi => absurd hi (Nat.not_lt_zero i), fun _ _ _ => rfl⟩
    | succ k ih =>
      intro hk s'' hrun
      rw [List.range_succ, List.foldlM_append] at hrun
      obtain ⟨s', hs', hlast⟩ := bind_eq_ok.mp hrun
      obtain ⟨hshape, hdone, hrest⟩ := ih (by omega) s' hs'
      have hstep : sl.turn body s' k = .ok s'' := by simpa using hlast
      obtain ⟨hshape', hk', hothers⟩ := sl.shaped_turn hbody hshape (by omega) hstep
      refine ⟨hshape', fun i hi => ?_, fun i hi hle => ?_⟩
      · rcases Nat.lt_succ_iff_lt_or_eq.mp hi with hlt | rfl
        · rw [hothers i (by omega) (by omega)]
          exact hdone i hlt
        · rw [← hrest i (by omega) le_rfl]
          exact hk'
      · rw [hothers i hi (by omega), hrest i hi (by omega)]
  obtain ⟨hshape, hdone, -⟩ := hrun n le_rfl s' h
  exact ⟨hshape, hdone⟩

/-- A loop whose turns all return does return. -/
theorem exists_foldlM (hbody : ∀ i < n, ∀ t t', sl.Fits t → body i t = .ok t' → sl.Fits t')
    {s : σ} (hs : sl.Shaped s) (hok : ∀ i < n, ∃ t, body i (sl.get s i) = .ok t) :
    ∃ s', (List.range n).foldlM (sl.turn body) s = .ok s' := by
  have hrun : ∀ k ≤ n, ∃ s', (List.range k).foldlM (sl.turn body) s = .ok s' ∧ sl.Shaped s' ∧
      ∀ i < n, k ≤ i → sl.get s' i = sl.get s i := by
    intro k
    induction k with
    | zero => exact fun _ => ⟨s, rfl, hs, fun _ _ _ => rfl⟩
    | succ k ih =>
      intro hk
      obtain ⟨s', hrun, hshape, hrest⟩ := ih (by omega)
      obtain ⟨t, ht⟩ := hok k (by omega)
      have hturn : sl.turn body s' k = .ok (sl.put s' k t) := by
        rw [turn, hrest k (by omega) le_rfl, ht]
        rfl
      obtain ⟨hshape', -, hothers⟩ := sl.shaped_turn hbody hshape (by omega) hturn
      refine ⟨sl.put s' k t, ?_, hshape', fun i hi hle => ?_⟩
      · rw [List.range_succ, List.foldlM_append, hrun, ok_bind, List.foldlM_cons, hturn]
        rfl
      · rw [hothers i hi (by omega), hrest i hi (by omega)]
  obtain ⟨s', hs', -⟩ := hrun n le_rfl
  exact ⟨s', hs'⟩

/-- The slots make up the whole state. -/
def Extensional : Prop :=
  ∀ s s', sl.Shaped s → sl.Shaped s' → (∀ i < n, sl.get s i = sl.get s' i) → s = s'

/-- The loop ends in the state whose slots are those of the turns. -/
theorem foldlM_eq_ok_iff (hext : sl.Extensional)
    (hbody : ∀ i < n, ∀ t t', sl.Fits t → body i t = .ok t' → sl.Fits t')
    {s s' : σ} (hs : sl.Shaped s) :
    (List.range n).foldlM (sl.turn body) s = .ok s' ↔
      sl.Shaped s' ∧ ∀ i < n, body i (sl.get s i) = .ok (sl.get s' i) := by
  refine ⟨sl.foldlM_spec hbody hs, fun ⟨hs', hall⟩ => ?_⟩
  obtain ⟨s'', hrun⟩ := sl.exists_foldlM hbody hs fun i hi => ⟨_, hall i hi⟩
  obtain ⟨hs'', hall'⟩ := sl.foldlM_spec hbody hs hrun
  rw [hrun, hext s'' s' hs'' hs' fun i hi => Except.ok.inj ((hall' i hi).symm.trans (hall i hi))]

theorem mul_add_le {n i rowSize : ℕ} (hi : i < n) : i * rowSize + rowSize ≤ n * rowSize := by
  rw [← Nat.succ_mul]
  exact Nat.mul_le_mul_right _ hi

/-- The rows of a flat buffer. -/
def rows (α : Type) (rowSize n : ℕ) : Slots (List α) (List α) n where
  get buf i := slice buf (i * rowSize) rowSize
  put buf i row := splice buf (i * rowSize) row
  Shaped buf := buf.length = n * rowSize
  Fits row := row.length = rowSize
  fits_get hs hi := by
    apply length_slice
    rw [hs]
    exact mul_add_le hi
  shaped_put hs hi hrow := by
    rw [length_splice, hs]
    rw [hrow, hs]
    exact mul_add_le hi
  get_put {s i t} hs hi hrow := by
    have hfit : i * rowSize + t.length ≤ s.length := by
      rw [hrow, hs]
      exact mul_add_le hi
    have hsame := slice_splice_same hfit
    rwa [hrow] at hsame
  get_put_ne {s i j t} hs hi hj hrow hne := by
    apply slice_splice_disjoint
    · rw [hrow, hs]
      exact mul_add_le hi
    · rw [hrow]
      rcases Nat.lt_or_gt_of_ne hne with h | h
      · exact .inl (mul_add_le h)
      · exact .inr (mul_add_le h)

/-- The entries of a list. -/
def entries (β : Type) [Inhabited β] (n : ℕ) : Slots (List β) β n where
  get s i := s.getD i default
  put s i t := s.set i t
  Shaped s := s.length = n
  Fits _ := True
  fits_get _ _ := trivial
  shaped_put {s i t} hs _ _ := by
    rw [List.length_set]
    exact hs
  get_put {s i t} hs hi _ := by
    rw [List.getD_eq_getElem?_getD, List.getElem?_set_self (by rw [hs]; exact hi)]
    rfl
  get_put_ne {s i j t} _ _ _ _ hne := by
    rw [List.getD_eq_getElem?_getD, List.getElem?_set_ne (Ne.symm hne), ← List.getD_eq_getElem?_getD]

/-- Two states side by side, with one turn for slot `i` of both. -/
def prod {σ' τ' : Type} (a : Slots σ τ n) (b : Slots σ' τ' n) : Slots (σ × σ') (τ × τ') n where
  get s i := (a.get s.1 i, b.get s.2 i)
  put s i t := (a.put s.1 i t.1, b.put s.2 i t.2)
  Shaped s := a.Shaped s.1 ∧ b.Shaped s.2
  Fits t := a.Fits t.1 ∧ b.Fits t.2
  fits_get hs hi := ⟨a.fits_get hs.1 hi, b.fits_get hs.2 hi⟩
  shaped_put hs hi ht := ⟨a.shaped_put hs.1 hi ht.1, b.shaped_put hs.2 hi ht.2⟩
  get_put hs hi ht := by rw [a.get_put hs.1 hi ht.1, b.get_put hs.2 hi ht.2]
  get_put_ne hs hi hj ht hne := by
    rw [a.get_put_ne hs.1 hi hj ht.1 hne, b.get_put_ne hs.2 hi hj ht.2 hne]

theorem extensional_entries (β : Type) [Inhabited β] (n : ℕ) : (entries β n).Extensional := by
  intro s s' hs hs' h
  have hlen : s.length = n := hs
  have hlen' : s'.length = n := hs'
  apply List.ext_getElem (hlen.trans hlen'.symm)
  intro i hi hi'
  have hget : s.getD i default = s'.getD i default := h i (hlen ▸ hi)
  rwa [List.getD_eq_getElem _ _ hi, List.getD_eq_getElem _ _ hi'] at hget

theorem extensional_rows (α : Type) (rowSize n : ℕ) : (rows α rowSize n).Extensional := by
  intro s s' hs hs' h
  rw [← flatten_rowsOf hs, ← flatten_rowsOf hs']
  congr 1
  exact List.map_congr_left fun i hi => h i (List.mem_range.mp hi)

theorem extensional_prod {σ' τ' : Type} {a : Slots σ τ n} {b : Slots σ' τ' n}
    (ha : a.Extensional) (hb : b.Extensional) : (a.prod b).Extensional := by
  intro s s' hs hs' h
  exact Prod.ext (ha s.1 s'.1 hs.1 hs'.1 fun i hi => (Prod.mk.inj (h i hi)).1)
    (hb s.2 s'.2 hs.2 hs'.2 fun i hi => (Prod.mk.inj (h i hi)).2)

end Slots

end PqPsi.Lib
