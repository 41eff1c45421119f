import PqPsi.Lib.Runs
import PqPsi.Lib.Slots
import Mathlib.Data.List.TakeWhile

/-!
# Workers on index ranges

A loop over `[0, n)` is handed to workers as ranges. The workers take their
turns in any order. When a turn reads and rewrites its own slot only, every
order ends in the state of the loop that runs the indices one after the other.
-/
namespace PqPsi.Lib.Workers
open Exceptions Ranges Runs
open scoped List

/-- Nonempty ranges that do not meet and make up `[0, n)`. -/
structure IsSplit (n : ℕ) (ranges : List (ℕ × ℕ)) : Prop where
  nonempty : ∀ r ∈ ranges, r.1 < r.2
  disjoint : ranges.Pairwise fun a b => a.2 ≤ b.1 ∨ b.2 ≤ a.1
  cover : ∀ i, i < n ↔ ∃ r ∈ ranges, r.1 ≤ i ∧ i < r.2

theorem mem_indices {r : ℕ × ℕ} {i : ℕ} : i ∈ indices r ↔ r.1 ≤ i ∧ i < r.2 := by
  rw [indices, List.mem_range'_1]
  omega

theorem nodup_indices (r : ℕ × ℕ) : (indices r).Nodup := List.nodup_range'

theorem IsSplit.perm {n : ℕ} {ranges : List (ℕ × ℕ)} (h : IsSplit n ranges) :
    (ranges.flatMap indices).Perm (List.range n) := by
  have hnodup : (ranges.flatMap indices).Nodup := by
    rw [List.nodup_flatMap]
    refine ⟨fun r _ => nodup_indices r, h.disjoint.imp fun {a b} hab i ha hb => ?_⟩
    rw [mem_indices] at ha hb
    omega
  rw [List.perm_ext_iff_of_nodup hnodup List.nodup_range]
  intro i
  rw [List.mem_flatMap, List.mem_range, h.cover]
  simp only [mem_indices]

/-- Nonempty ranges that list `[0, n)` in order are a split. -/
theorem isSplit_of_flatMap {n : ℕ} {ranges : List (ℕ × ℕ)} (hne : ∀ r ∈ ranges, r.1 < r.2)
    (h : ranges.flatMap indices = List.range n) : IsSplit n ranges := by
  refine ⟨hne, ?_, fun i => ?_⟩
  · have hnodup : (ranges.flatMap indices).Nodup := h ▸ List.nodup_range
    refine (List.nodup_flatMap.mp hnodup).2.imp_of_mem fun {a b} ha hb hab => ?_
    by_contra hmeet
    have hna := hne a ha
    have hnb := hne b hb
    exact hab (mem_indices.mpr (by omega : a.1 ≤ max a.1 b.1 ∧ max a.1 b.1 < a.2))
      (mem_indices.mpr (by omega))
  · rw [← List.mem_range, ← h, List.mem_flatMap]
    simp only [mem_indices]

theorem chunkRanges_nonempty {n chunk count : ℕ} :
    ∀ r ∈ chunkRanges n chunk count, r.1 < r.2 := by
  intro r hr
  simpa using List.mem_takeWhile_imp hr

theorem isSplit_chunkRanges {n chunk count : ℕ} (h : n ≤ count * chunk) :
    IsSplit n (chunkRanges n chunk count) :=
  isSplit_of_flatMap chunkRanges_nonempty (flatMap_chunkRanges h)

theorem isSplit_one {n : ℕ} (h : 0 < n) : IsSplit n [(0, n)] :=
  isSplit_of_flatMap (by simpa using h) (by simp [indices, List.range_eq_range'])

section Size

/-- Arithmetic in a `size_t`. -/
def sizeT (x : ℕ) : ℕ := x % 2 ^ 64

theorem sizeT_of_lt {x : ℕ} (h : x < 2 ^ 64) : sizeT x = x := Nat.mod_eq_of_lt h

/-- Below `2 ^ 63` neither the ceiling division nor the ends of the chunks wrap. -/
theorem chunk_bounds {n count : ℕ} (hn : n < 2 ^ 63) (hpos : 0 < count) (hle : count ≤ n) :
    n + count - 1 < 2 ^ 64 ∧
      (0 < (n + count - 1) / count ∧ (n + count - 1) / count ≤ n) ∧
      ∀ t < count, t * ((n + count - 1) / count) + (n + count - 1) / count < 2 ^ 64 := by
  have hmul : count * ((n + count - 1) / count) ≤ n + count - 1 := Nat.mul_div_le _ _
  refine ⟨by omega, ⟨Nat.div_pos (by omega) hpos, ?_⟩, fun t ht => ?_⟩
  · rw [Nat.div_le_iff_le_mul_add_pred hpos]
    have hn' : n ≤ count * n := Nat.le_mul_of_pos_left n hpos
    omega
  · have ht' : t * ((n + count - 1) / count) + (n + count - 1) / count ≤
        count * ((n + count - 1) / count) := by
      rw [← Nat.succ_mul]
      exact Nat.mul_le_mul_right _ ht
    omega

/-- Two ways to write the same ranges, each with its own test for the end. -/
theorem takeWhile_map_congr {α β : Type} {f g : α → β} {p q : β → Bool} {l : List α}
    (h : ∀ x ∈ l, p (f x) = q (g x) ∧ (p (f x) = true → f x = g x)) :
    (l.map f).takeWhile p = (l.map g).takeWhile q := by
  induction l with
  | nil => rfl
  | cons x l ih =>
    obtain ⟨htest, heq⟩ := h x (by simp)
    rw [List.map_cons, List.map_cons, List.takeWhile_cons, List.takeWhile_cons, ← htest,
      ih fun x hx => h x (by simp [hx])]
    split_ifs with hp
    · rw [heq hp]
    · rfl

end Size

variable {ε σ τ : Type}

/-- The shared state, the turns that each worker has still to take, and the first exception. -/
structure Pool (ε σ : Type) where
  state : σ
  queues : List (List ℕ)
  err : Option ε

namespace Pool

def start (ranges : List (ℕ × ℕ)) (s : σ) : Pool ε σ := ⟨s, ranges.map indices, none⟩

/-- Worker `k` takes its next turn. A turn that throws ends its worker, and the first exception
is kept. -/
def step (body : σ → ℕ → Except ε σ) (p : Pool ε σ) (k : ℕ) : Option (Pool ε σ) :=
  match p.queues[k]? with
  | some (i :: rest) =>
    match body p.state i with
    | .ok s => some ⟨s, p.queues.set k rest, p.err⟩
    | .error e => some ⟨p.state, p.queues.set k [], p.err <|> some e⟩
  | _ => none

/-- All workers have been joined. -/
def Done (p : Pool ε σ) : Prop := ∀ q ∈ p.queues, q = []

/-- What the caller gets after the join. -/
def outcome (p : Pool ε σ) : Except ε σ :=
  match p.err with
  | some e => .error e
  | none => .ok p.state

theorem step_cases {body : σ → ℕ → Except ε σ} {p p' : Pool ε σ} {k : ℕ}
    (h : step body p k = some p') : ∃ i rest, p.queues[k]? = some (i :: rest) ∧
      ((∃ s, body p.state i = .ok s ∧ p' = ⟨s, p.queues.set k rest, p.err⟩) ∨
        ∃ e, body p.state i = .error e ∧ p' = ⟨p.state, p.queues.set k [], p.err <|> some e⟩) := by
  unfold step at h
  split at h
  next i rest hq =>
    refine ⟨i, rest, hq, ?_⟩
    split at h
    next s hs => exact .inl ⟨s, hs, (Option.some.inj h).symm⟩
    next e he => exact .inr ⟨e, he, (Option.some.inj h).symm⟩
  next => simp at h

/-- The turns still to be taken. -/
def todo (p : Pool ε σ) : List ℕ := p.queues.flatten

theorem append_left_comm_perm (a b c : List ℕ) : a ++ (b ++ c) ~ b ++ (a ++ c) := by
  rw [← List.append_assoc, ← List.append_assoc]
  exact List.perm_append_comm.append_right c

/-- Replacing one queue. -/
theorem flatten_set_perm {queues : List (List ℕ)} {k : ℕ} {q : List ℕ} (q' : List ℕ)
    (h : queues[k]? = some q) : q' ++ queues.flatten ~ q ++ (queues.set k q').flatten := by
  induction queues generalizing k with
  | nil => simp at h
  | cons q₀ queues ih =>
    cases k with
    | zero =>
      obtain rfl : q₀ = q := by simpa using h
      exact append_left_comm_perm q' q₀ queues.flatten
    | succ k =>
      calc q' ++ (q₀ ++ queues.flatten)
          ~ q₀ ++ (q' ++ queues.flatten) := append_left_comm_perm _ _ _
        _ ~ q₀ ++ (q ++ (queues.set k q').flatten) := (ih (by simpa using h)).append_left q₀
        _ ~ q ++ (q₀ ++ (queues.set k q').flatten) := append_left_comm_perm _ _ _

/-- A turn takes the first index of its queue, and one that throws drops the whole queue. -/
theorem todo_set {p : Pool ε σ} {k i : ℕ} {rest : List ℕ} (h : p.queues[k]? = some (i :: rest)) :
    p.todo ~ i :: (p.queues.set k rest).flatten ∧
      p.todo ~ i :: rest ++ (p.queues.set k []).flatten := by
  constructor
  · have hperm := flatten_set_perm rest h
    rw [List.cons_append] at hperm
    have hcons : rest ++ p.todo ~ rest ++ (i :: (p.queues.set k rest).flatten) :=
      hperm.trans List.perm_middle.symm
    exact (List.perm_append_left_iff rest).mp hcons
  · exact flatten_set_perm [] h

section Progress
variable {body : σ → ℕ → Except ε σ}

theorem todo_step {p p' : Pool ε σ} {k : ℕ} (h : step body p k = some p') :
    p'.todo.length < p.todo.length := by
  obtain ⟨i, rest, hq, ⟨s', -, rfl⟩ | ⟨e, -, rfl⟩⟩ := step_cases h
  · rw [(todo_set hq).1.length_eq, List.length_cons]
    exact Nat.lt_succ_self _
  · have hlen := (todo_set hq).2.length_eq
    rw [List.cons_append, List.length_cons, List.length_append] at hlen
    change (p.queues.set k []).flatten.length < _
    omega

/-- As long as a worker has a turn to take, it can take it. -/
theorem exists_step {p : Pool ε σ} (h : ¬ p.Done) : ∃ k p', step body p k = some p' := by
  unfold Done at h
  push Not at h
  obtain ⟨q, hq, hne⟩ := h
  obtain ⟨k, hk, rfl⟩ := List.mem_iff_getElem.mp hq
  obtain ⟨i, rest, hcons⟩ := List.exists_cons_of_ne_nil hne
  refine ⟨k, ?_⟩
  unfold step
  rw [List.getElem?_eq_getElem hk, hcons]
  dsimp only
  cases body p.state i with
  | ok s => exact ⟨_, rfl⟩
  | error e => exact ⟨_, rfl⟩

end Progress

/-- The workers end after at most `n` turns, and in whatever order they take them, they return
what one thread returns. -/
structure OrderFree (n : ℕ) (ranges : List (ℕ × ℕ)) (body : σ → ℕ → Except ε σ) (s : σ) :
    Prop where
  finishes : ∀ (order : List ℕ) (p : Pool ε σ), run (step body) (start ranges s) order = some p →
    order.length ≤ n ∧ ∃ order' p', run (step body) p order' = some p' ∧ p'.Done
  returns : ∀ (order : List ℕ) (p : Pool ε σ), run (step body) (start ranges s) order = some p →
    p.Done → ∀ s', p.outcome = .ok s' ↔ (List.range n).foldlM body s = .ok s'

section Slots
variable {n : ℕ} (sl : Slots σ τ n) (body : ℕ → τ → Except ε τ) (s : σ)

/-- Slots whose turn is still to come are as at the start, the others hold what their own turn
made of the start; the latter only as long as nothing was thrown. -/
structure Inv (p : Pool ε σ) : Prop where
  shaped : sl.Shaped p.state
  nodup : p.todo.Nodup
  bound : ∀ i ∈ p.todo, i < n
  fresh : ∀ i ∈ p.todo, sl.get p.state i = sl.get s i
  settled : p.err = none → ∀ i < n, i ∉ p.todo → body i (sl.get s i) = .ok (sl.get p.state i)
  thrown : ∀ e, p.err = some e → ∃ i < n, body i (sl.get s i) = .error e

variable {sl body s}

theorem todo_start (ranges : List (ℕ × ℕ)) (s : σ) :
    (start ranges s : Pool ε σ).todo = ranges.flatMap indices := (List.flatMap_def ..).symm

theorem inv_start {ranges : List (ℕ × ℕ)} (hsplit : IsSplit n ranges) (hs : sl.Shaped s) :
    Inv sl body s (start ranges s) := by
  have htodo : (start ranges s : Pool ε σ).todo = ranges.flatMap indices := todo_start ranges s
  have hperm := hsplit.perm
  have hmem : ∀ i, i ∈ (start ranges s : Pool ε σ).todo ↔ i < n := by
    intro i
    rw [htodo, hperm.mem_iff, List.mem_range]
  refine ⟨hs, ?_, fun i hi => (hmem i).mp hi, fun _ _ => rfl,
    fun _ i hi hnot => absurd ((hmem i).mpr hi) hnot, fun e he => nomatch he⟩
  rw [htodo, hperm.nodup_iff]
  exact List.nodup_range

theorem inv_step (hbody : ∀ i < n, ∀ t t', sl.Fits t → body i t = .ok t' → sl.Fits t')
    {p p' : Pool ε σ} {k : ℕ} (hinv : Inv sl body s p)
    (h : step (sl.turn body) p k = some p') : Inv sl body s p' := by
  obtain ⟨i, rest, hq, ⟨s', hturn, rfl⟩ | ⟨e, hturn, rfl⟩⟩ := step_cases h
  · -- the turn of `i` settles slot `i` and nothing else
    obtain ⟨hperm, -⟩ := todo_set hq
    have hnodup := hperm.nodup_iff.mp hinv.nodup
    rw [List.nodup_cons] at hnodup
    have hi := hinv.bound i (hperm.mem_iff.mpr (by simp))
    obtain ⟨hshape, hdone, hothers⟩ := sl.shaped_turn hbody hinv.shaped hi hturn
    have hbound : ∀ j ∈ (p.queues.set k rest).flatten, j < n ∧ j ≠ i := fun j hj =>
      ⟨hinv.bound j (hperm.mem_iff.mpr (by simp [hj])), fun he => hnodup.1 (he ▸ hj)⟩
    refine ⟨hshape, hnodup.2, fun j hj => (hbound j hj).1, fun j hj => ?_, fun herr j hj hnot => ?_,
      hinv.thrown⟩
    · rw [hothers j (hbound j hj).1 (hbound j hj).2]
      exact hinv.fresh j (hperm.mem_iff.mpr (List.mem_cons_of_mem i hj))
    · by_cases hji : j = i
      · subst hji
        rw [← hinv.fresh j (hperm.mem_iff.mpr (by simp))]
        exact hdone
      · rw [hothers j hj hji]
        refine hinv.settled herr j hj fun hmem => ?_
        rcases List.mem_cons.mp (hperm.mem_iff.mp hmem) with he | hmem
        · exact hji he
        · exact hnot hmem
  · obtain ⟨-, hperm⟩ := todo_set hq
    have hi : i ∈ p.todo := hperm.mem_iff.mpr (by simp)
    have hthrow : body i (sl.get s i) = .error e := by
      rw [← hinv.fresh i hi]
      cases hb : body i (sl.get p.state i) with
      | error e' => simpa [Slots.turn, hb] using hturn
      | ok t => simp [Slots.turn, hb] at hturn
    have hsub : ∀ j ∈ (p.queues.set k []).flatten, j ∈ p.todo := fun j hj =>
      hperm.mem_iff.mpr (List.mem_append_right _ hj)
    refine ⟨hinv.shaped, ?_, fun j hj => hinv.bound j (hsub j hj),
      fun j hj => hinv.fresh j (hsub j hj), fun herr => ?_, fun e' he' => ?_⟩
    · exact (List.nodup_append.mp (hperm.nodup_iff.mp hinv.nodup)).2.1
    · cases he : p.err <;> simp [he] at herr
    · cases he : p.err with
      | none =>
        obtain rfl : e = e' := by simpa [he] using he'
        exact ⟨i, hinv.bound i hi, hthrow⟩
      | some e₀ =>
        obtain rfl : e₀ = e' := by simpa [he] using he'
        exact hinv.thrown e₀ he

/-- Whatever the order of the turns, the workers return what the loop returns. -/
theorem orderFree_turn (hext : sl.Extensional)
    (hbody : ∀ i < n, ∀ t t', sl.Fits t → body i t = .ok t' → sl.Fits t')
    {ranges : List (ℕ × ℕ)} (hsplit : IsSplit n ranges) (hs : sl.Shaped s) :
    OrderFree n ranges (sl.turn body) s := by
  refine ⟨fun order p hrun => ⟨?_, exists_run_done (p := fun _ => True) (fun _ _ _ _ _ => trivial)
    (fun _ _ _ _ => todo_step) (fun _ _ => exists_step) trivial⟩, fun order p hrun hdone s' => ?_⟩
  · have hlen := length_add_rank_le (p := fun _ => True) (fun _ _ _ _ _ => trivial)
      (fun _ _ _ _ => todo_step) trivial hrun
    rw [todo_start, hsplit.perm.length_eq, List.length_range] at hlen
    omega
  have hinv : Inv sl body s p :=
    run_invariant (fun p k p' => inv_step hbody) (inv_start hsplit hs) hrun
  have htodo : p.todo = [] := List.flatten_eq_nil_iff.mpr hdone
  rw [sl.foldlM_eq_ok_iff hext hbody hs]
  cases herr : p.err with
  | some e =>
    obtain ⟨i, hi, hthrow⟩ := hinv.thrown e herr
    simp only [outcome, herr, reduceCtorEq, false_iff, not_and]
    intro _ hall
    exact nomatch hthrow.symm.trans (hall i hi)
  | none =>
    have hall : ∀ i < n, body i (sl.get s i) = .ok (sl.get p.state i) := fun i hi =>
      hinv.settled herr i hi (by simp [htodo])
    simp only [outcome, herr, Except.ok.injEq]
    constructor
    · rintro rfl
      exact ⟨hinv.shaped, hall⟩
    · rintro ⟨hs', hall'⟩
      exact hext _ _ hinv.shaped hs' fun i hi =>
        Except.ok.inj ((hall i hi).symm.trans (hall' i hi))

end Slots

end Pool

end PqPsi.Lib.Workers
