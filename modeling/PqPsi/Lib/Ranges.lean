import PqPsi.Lib.Exceptions

/-!
# Index loops split into consecutive ranges

A loop over `[0, n)` is cut into ceiling-division chunks that are handed to
workers. Chunks listed in order enumerate `[0, n)`, so that the split loop
runs the same bodies as the plain one.
-/
namespace PqPsi.Lib.Ranges
open Exceptions

/-- The indices of a half-open range. -/
def indices (r : ℕ × ℕ) : List ℕ := List.range' r.1 (r.2 - r.1)

/-- The chunks `[k * chunk, (k + 1) * chunk)` cut at `n`, up to the first empty one. -/
def chunkRanges (n chunk count : ℕ) : List (ℕ × ℕ) :=
  ((List.range count).map fun k => (min n (k * chunk), min n (min n (k * chunk) + chunk))).takeWhile
    fun r => r.1 < r.2

private theorem flatMap_chunks (n chunk : ℕ) (k m : ℕ) :
    ((((List.range' k m).map fun k =>
      (min n (k * chunk), min n (min n (k * chunk) + chunk))).takeWhile
        fun r => r.1 < r.2).flatMap indices) =
      List.range' (min n (k * chunk)) (min n ((k + m) * chunk) - min n (k * chunk)) := by
  induction m generalizing k with
  | zero => simp
  | succ m ih =>
    have hstep : (k + (m + 1)) * chunk = (k + 1 + m) * chunk := by ring
    have hnext : (k + 1) * chunk = k * chunk + chunk := by ring
    have hmono : k * chunk + chunk ≤ (k + 1 + m) * chunk := by
      rw [← hnext]
      exact Nat.mul_le_mul_right _ (by omega)
    rw [List.range'_succ, List.map_cons, List.takeWhile_cons, hstep]
    split_ifs with hlt
    · rw [List.flatMap_cons, ih (k + 1), hnext]
      simp only [decide_eq_true_eq] at hlt
      have hend : min n (min n (k * chunk) + chunk) = min n (k * chunk + chunk) := by omega
      rw [indices, hend]
      have hsplit : min n ((k + 1 + m) * chunk) - min n (k * chunk) =
          (min n (k * chunk + chunk) - min n (k * chunk)) +
            (min n ((k + 1 + m) * chunk) - min n (k * chunk + chunk)) := by omega
      rw [hsplit, ← List.range'_append_1]
      congr 2
      omega
    · simp only [decide_eq_true_eq, not_lt] at hlt
      have hz : min n ((k + 1 + m) * chunk) - min n (k * chunk) = 0 := by
        rcases Nat.eq_zero_or_pos chunk with hc | hc
        · simp [hc]
        · omega
      rw [hz]
      simp

/-- The chunks list every index once and in order. -/
theorem flatMap_chunkRanges {n chunk count : ℕ} (h : n ≤ count * chunk) :
    (chunkRanges n chunk count).flatMap indices = List.range n := by
  have hk := flatMap_chunks n chunk 0 count
  rw [chunkRanges, List.range_eq_range', hk, List.range_eq_range']
  simp [h]

/-- The same for ranges that are not cut off behind the end. -/
theorem flatMap_indices {n chunk count : ℕ} (h : n ≤ count * chunk) :
    (List.range count).flatMap (fun k => indices (k * chunk, min n (k * chunk + chunk))) =
      List.range n := by
  have hk : ∀ k, (List.range k).flatMap (fun k => indices (k * chunk, min n (k * chunk + chunk))) =
      List.range (min n (k * chunk)) := by
    intro k
    induction k with
    | zero => simp
    | succ k ih =>
      have hnext : (k + 1) * chunk = k * chunk + chunk := by ring
      rw [List.range_succ, List.flatMap_append, ih, List.flatMap_singleton, hnext, indices]
      by_cases hlt : k * chunk < n
      · have hsplit : min n (k * chunk + chunk) =
            min n (k * chunk) + (min n (k * chunk + chunk) - k * chunk) := by omega
        rw [hsplit, List.range_eq_range', List.range_eq_range', ← List.range'_append_1]
        congr 2
        · omega
        · omega
      · have hzero : min n (k * chunk + chunk) - k * chunk = 0 := by omega
        have hmin : min n (k * chunk) = min n (k * chunk + chunk) := by omega
        rw [hzero, hmin]
        simp
  rw [hk, Nat.min_eq_left h]

theorem le_count_mul_chunk {n count : ℕ} (h : 0 < count) :
    n ≤ count * ((n + count - 1) / count) := by
  have hd := Nat.div_add_mod (n + count - 1) count
  have hm := Nat.mod_lt (n + count - 1) h
  omega

variable {ε σ α : Type}

/-- Run the body over the indices of each range in turn. -/
def forRanges (ranges : List (ℕ × ℕ)) (body : σ → ℕ → Except ε σ) (s : σ) :
    Except ε σ :=
  ranges.foldlM (fun s r => (indices r).foldlM body s) s

theorem forRanges_eq (ranges : List (ℕ × ℕ)) (body : σ → ℕ → Except ε σ) (s : σ) :
    forRanges ranges body s = (ranges.flatMap indices).foldlM body s := by
  induction ranges generalizing s with
  | nil => rfl
  | cons r ranges ih =>
    rw [forRanges, List.foldlM_cons, List.flatMap_cons, List.foldlM_append]
    congr 1
    funext s'
    exact ih s'

theorem foldlM_congr {f g : σ → α → Except ε σ} {l : List α}
    (h : ∀ s, ∀ x ∈ l, f s x = g s x) (s : σ) : l.foldlM f s = l.foldlM g s := by
  induction l generalizing s with
  | nil => rfl
  | cons x l ih =>
    rw [List.foldlM_cons, List.foldlM_cons, h s x (by simp)]
    congr 1
    funext s'
    exact ih (fun s x hx => h s x (by simp [hx])) s'

/-- A loop whose body does not throw while an invariant holds is a fold. -/
theorem foldlM_eq_ok_of_inv {f : σ → α → Except ε σ} {g : σ → α → σ} {p : σ → Prop} {l : List α}
    (h : ∀ s, ∀ x ∈ l, p s → f s x = .ok (g s x) ∧ p (g s x)) {s : σ} (hs : p s) :
    l.foldlM f s = .ok (l.foldl g s) := by
  induction l generalizing s with
  | nil => rfl
  | cons x l ih =>
    obtain ⟨hstep, hnext⟩ := h s x (by simp) hs
    rw [List.foldlM_cons, hstep, ok_bind, List.foldl_cons]
    exact ih (fun s x hx => h s x (by simp [hx])) hnext

/-- A loop whose body never throws is a fold. -/
theorem foldlM_eq_ok {f : σ → α → Except ε σ} {g : σ → α → σ} {l : List α}
    (h : ∀ s, ∀ x ∈ l, f s x = .ok (g s x)) (s : σ) : l.foldlM f s = .ok (l.foldl g s) :=
  foldlM_eq_ok_of_inv (p := fun _ => True) (fun s x hx _ => ⟨h s x hx, trivial⟩) trivial

/-- A loop throws when its body throws at one of the elements. -/
theorem foldlM_eq_error {f : σ → α → Except ε σ} {l : List α} {x : α} (hx : x ∈ l)
    (h : ∀ s, ∃ e, f s x = .error e) (s : σ) : ∃ e, l.foldlM f s = .error e := by
  induction l generalizing s with
  | nil => simp at hx
  | cons y l ih =>
    rw [List.foldlM_cons]
    rcases List.mem_cons.mp hx with rfl | hx
    · obtain ⟨e, he⟩ := h s
      exact ⟨e, by rw [he, error_bind]⟩
    · cases hy : f s y with
      | error e => exact ⟨e, rfl⟩
      | ok s' => exact ih hx s'

/-- Two loops over the same indices with separate states. -/
theorem foldl_pair {τ : Type} (f : σ → α → σ) (g : τ → α → τ) (l : List α) (s : σ) (t : τ) :
    l.foldl (fun (p : σ × τ) x => (f p.1 x, g p.2 x)) (s, t) = (l.foldl f s, l.foldl g t) := by
  induction l generalizing s t with
  | nil => rfl
  | cons x l ih => exact ih (f s x) (g t x)

/-- Rewriting slot `i` at turn `i`, from what it held at the start. -/
theorem foldl_set_getD (h : ℕ → α → α) (l : List α) (d : α) :
    (List.range l.length).foldl (fun l i => l.set i (h i (l.getD i d))) l = l.mapIdx h := by
  have hk : ∀ k ≤ l.length, (List.range k).foldl (fun l i => l.set i (h i (l.getD i d))) l =
      (l.take k).mapIdx h ++ l.drop k := by
    intro k hk
    induction k with
    | zero => simp
    | succ k ih =>
      have hkl : k < l.length := by omega
      have hmid : ((l.take k).mapIdx h).length = k := by simp; omega
      have hdrop : l.drop k = l[k] :: l.drop (k + 1) := List.drop_eq_getElem_cons hkl
      have hget : ((l.take k).mapIdx h ++ l.drop k).getD k d = l[k] := by
        rw [List.getD_eq_getElem?_getD, List.getElem?_append_right (by omega), hmid, hdrop,
          Nat.sub_self, List.getElem?_cons_zero, Option.getD_some]
      rw [List.range_succ, List.foldl_append, ih (by omega), List.foldl_cons, List.foldl_nil, hget,
        List.set_append_right _ _ (by omega), hmid, Nat.sub_self, hdrop, List.set_cons_zero,
        List.take_succ_eq_append_getElem hkl, List.mapIdx_append]
      simp [hkl.le]
  have hall := hk l.length le_rfl
  simpa using hall

/-- Filling slot `i` at turn `i` gives the list of the values. -/
theorem foldl_set_replicate (g : ℕ → α) (d : α) (n : ℕ) :
    (List.range n).foldl (fun l i => l.set i (g i)) (List.replicate n d) =
      (List.range n).map g := by
  have hloop := foldl_set_getD (fun i _ => g i) (List.replicate n d) d
  rw [List.length_replicate] at hloop
  rw [hloop]
  apply List.ext_getElem (by simp)
  intro i hi hi'
  simp

end PqPsi.Lib.Ranges
