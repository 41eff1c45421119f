import Mathlib.Tactic
import Mathlib.Data.List.GetD

/-!
# Counting sort into a flat table

Items are grouped by a key: a first pass counts the items of each key, the
prefix sums of the counts give each key a segment of one flat list, and a
second pass writes every item behind the items of its key that came before.
Positions are computed modulo `M`, which must exceed the number of items.
-/
namespace PqPsi.Lib.CountingSort

variable (M : ℕ) (key : ℕ → ℕ)

/-- The items with key `w`, in order. -/
def group (xs : List ℕ) (w : ℕ) : List ℕ := xs.filter fun x => key x = w

/-- The first pass: how often each key occurs. -/
def histogram (m : ℕ) (xs : List ℕ) : List ℕ :=
  xs.foldl (fun counts x => counts.modify (key x) (· + 1)) (List.replicate m 0)

/-- The prefix sums of the counts, and the total. -/
def offsetsFrom : ℕ → List ℕ → List ℕ × ℕ
  | off, [] => ([], off)
  | off, c :: cs =>
    let (offs, total) := offsetsFrom ((off + c) % M) cs
    (off :: offs, total)

/-- One step of the second pass, on the flat list and the numbers of items placed. -/
def place (offsets : List ℕ) (s : List ℕ × List ℕ) (x : ℕ) : List ℕ × List ℕ :=
  let pos := (offsets.getD (key x) 0 + s.2.getD (key x) 0) % M
  (s.1.set pos x, s.2.modify (key x) (· + 1))

section Counts

theorem getD_modify_succ {l : List ℕ} {i : ℕ} (hi : i < l.length) (w : ℕ) :
    (l.modify i (· + 1)).getD w 0 = l.getD w 0 + if i = w then 1 else 0 := by
  simp only [List.getD_eq_getElem?_getD, List.getElem?_modify]
  split_ifs with h
  · rw [← h, List.getElem?_eq_getElem hi]
    rfl
  · simp

@[simp] theorem length_group_append (xs ys : List ℕ) (w : ℕ) :
    (group key (xs ++ ys) w).length = (group key xs w).length + (group key ys w).length := by
  simp [group]

theorem group_append_singleton (xs : List ℕ) (x w : ℕ) :
    group key (xs ++ [x]) w = group key xs w ++ if key x = w then [x] else [] := by
  rw [group, List.filter_append, group]
  split_ifs with h <;> simp [h]

theorem histogram_spec {m : ℕ} (xs : List ℕ) (h : ∀ x ∈ xs, key x < m) :
    (histogram key m xs).length = m ∧
      ∀ w, (histogram key m xs).getD w 0 = (group key xs w).length := by
  induction xs using List.reverseRecOn with
  | nil =>
    refine ⟨by simp [histogram], fun w => ?_⟩
    by_cases hw : w < m
    · simp [histogram, group, hw]
    · simp [histogram, group, hw]
  | append_singleton xs x ih =>
    obtain ⟨hlen, hcount⟩ := ih fun y hy => h y (by simp [hy])
    have hstep : histogram key m (xs ++ [x]) = (histogram key m xs).modify (key x) (· + 1) := by
      simp [histogram]
    have hx : key x < (histogram key m xs).length := by
      rw [hlen]
      exact h x (by simp)
    rw [hstep]
    refine ⟨by rw [List.length_modify, hlen], fun w => ?_⟩
    rw [getD_modify_succ hx, hcount, group_append_singleton, List.length_append]
    split_ifs <;> rfl

/-- The segment of key `w` starts behind the segments of the smaller keys. -/
def start (xs : List ℕ) (w : ℕ) : ℕ := ∑ i ∈ Finset.range w, (group key xs i).length

theorem start_succ (xs : List ℕ) (w : ℕ) :
    start key xs (w + 1) = start key xs w + (group key xs w).length := Finset.sum_range_succ _ _

theorem start_mono (xs : List ℕ) {w w' : ℕ} (h : w ≤ w') : start key xs w ≤ start key xs w' :=
  Finset.sum_le_sum_of_subset (Finset.range_mono h)

theorem start_eq_length {m : ℕ} (xs : List ℕ) (h : ∀ x ∈ xs, key x < m) :
    start key xs m = xs.length := by
  induction xs using List.reverseRecOn with
  | nil => simp [start, group]
  | append_singleton xs x ih =>
    have hx : key x < m := h x (by simp)
    have hsum : ∑ i ∈ Finset.range m, (if key x = i then [x] else ([] : List ℕ)).length = 1 := by
      rw [Finset.sum_eq_single (key x)]
      · simp
      · intro i _ hi
        rw [if_neg (Ne.symm hi), List.length_nil]
      · intro hnot
        exact absurd (Finset.mem_range.mpr hx) hnot
    have hsplit : start key (xs ++ [x]) m = start key xs m +
        ∑ i ∈ Finset.range m, (if key x = i then [x] else ([] : List ℕ)).length := by
      rw [start, start, ← Finset.sum_add_distrib]
      refine Finset.sum_congr rfl fun i _ => ?_
      rw [group_append_singleton, List.length_append]
    rw [hsplit, hsum, ih fun y hy => h y (by simp [hy]), List.length_append, List.length_singleton]

/-- Prefix sums that stay below the modulus. -/
theorem offsetsFrom_spec (cs : List ℕ) (off : ℕ) (h : off + cs.sum < M) :
    (offsetsFrom M off cs).1.length = cs.length ∧
      (∀ i < cs.length, (offsetsFrom M off cs).1.getD i 0 = off + (cs.take i).sum) ∧
      (offsetsFrom M off cs).2 = off + cs.sum := by
  induction cs generalizing off with
  | nil => simp [offsetsFrom]
  | cons c cs ih =>
    rw [List.sum_cons] at h
    have hmod : (off + c) % M = off + c := Nat.mod_eq_of_lt (by omega)
    obtain ⟨hlen, hget, htotal⟩ := ih (off + c) (by omega)
    simp only [offsetsFrom, hmod]
    refine ⟨by simp [hlen], fun i hi => ?_, ?_⟩
    · cases i with
      | zero => simp
      | succ i =>
        rw [List.getD_cons_succ, hget i (by simpa using hi), List.take_succ_cons, List.sum_cons]
        omega
    · rw [htotal, List.sum_cons]
      omega

theorem sum_take_histogram {m : ℕ} (xs : List ℕ) (h : ∀ x ∈ xs, key x < m) {i : ℕ} (hi : i ≤ m) :
    ((histogram key m xs).take i).sum = start key xs i := by
  obtain ⟨hlen, hcount⟩ := histogram_spec key xs h
  induction i with
  | zero => simp [start]
  | succ i ih =>
    rw [List.sum_take_succ _ i (by omega), ih (by omega), start_succ, ← hcount,
      List.getD_eq_getElem _ _ (by omega)]

/-- The prefix sums of the counts are where the segments start. -/
theorem offsetsFrom_histogram {m : ℕ} (xs : List ℕ) (h : ∀ x ∈ xs, key x < m)
    (hM : xs.length < M) :
    (∀ w < m, (offsetsFrom M 0 (histogram key m xs)).1.getD w 0 = start key xs w) ∧
      (offsetsFrom M 0 (histogram key m xs)).2 = xs.length := by
  have hlen := (histogram_spec key xs h).1
  have hsum : (histogram key m xs).sum = xs.length := by
    rw [← start_eq_length key xs h, ← sum_take_histogram key xs h le_rfl,
      List.take_of_length_le (by omega)]
  obtain ⟨-, hoff, htotal⟩ := offsetsFrom_spec M (histogram key m xs) 0 (by omega)
  constructor
  · intro w hw
    rw [hoff w (by omega), sum_take_histogram key xs h (by omega), Nat.zero_add]
  · rw [htotal, hsum, Nat.zero_add]

end Counts

section Placement
variable {m : ℕ} {xs : List ℕ}

/-- Different places in the segments are different positions of the flat list. -/
theorem start_add_inj {w w' j j' : ℕ} (hj : j < (group key xs w).length)
    (hj' : j' < (group key xs w').length) (h : start key xs w + j = start key xs w' + j') :
    w = w' ∧ j = j' := by
  rcases lt_trichotomy w w' with hlt | rfl | hgt
  · have hstep := start_succ key xs w
    have hmono := start_mono key xs (show w + 1 ≤ w' from hlt)
    omega
  · exact ⟨rfl, by omega⟩
  · have hstep := start_succ key xs w'
    have hmono := start_mono key xs (show w' + 1 ≤ w from hgt)
    omega

theorem start_add_lt (hkey : ∀ x ∈ xs, key x < m) {w j : ℕ} (hw : w < m)
    (hj : j < (group key xs w).length) : start key xs w + j < xs.length := by
  have hstep := start_succ key xs w
  have hmono := start_mono key xs (show w + 1 ≤ m from hw)
  rw [start_eq_length key xs hkey] at hmono
  omega

/-- What holds of the flat list and the numbers of placed items after the items `seen`. -/
structure Placed (m : ℕ) (xs seen : List ℕ) (s : List ℕ × List ℕ) : Prop where
  vals_length : s.1.length = xs.length
  used_length : s.2.length = m
  used_eq : ∀ w, s.2.getD w 0 = (group key seen w).length
  vals_eq : ∀ w < m, ∀ j < (group key seen w).length,
    s.1.getD (start key xs w + j) 0 = (group key seen w).getD j 0

variable {key} in
theorem Placed.place {M : ℕ} {offsets seen : List ℕ} {s : List ℕ × List ℕ} {x : ℕ}
    (h : Placed key m xs seen s) (hkey : ∀ x ∈ xs, key x < m) (hM : xs.length < M)
    (hoff : ∀ w < m, offsets.getD w 0 = start key xs w) (hseen : seen ++ [x] <+: xs) :
    Placed key m xs (seen ++ [x]) (place M key offsets s x) := by
  have hx : key x < m := hkey x (hseen.subset (by simp))
  have hle : ∀ w, (group key (seen ++ [x]) w).length ≤ (group key xs w).length :=
    fun w => (hseen.filter _).length_le
  -- the next free place of the segment of `x`
  have hfree : (group key seen (key x)).length < (group key xs (key x)).length := by
    have hnext := hle (key x)
    rw [group_append_singleton, if_pos rfl, List.length_append, List.length_singleton] at hnext
    omega
  have hpos := start_add_lt key hkey hx hfree
  have hmod : (offsets.getD (key x) 0 + s.2.getD (key x) 0) % M =
      start key xs (key x) + (group key seen (key x)).length := by
    rw [hoff _ hx, h.used_eq, Nat.mod_eq_of_lt (by omega)]
  constructor
  · rw [CountingSort.place, List.length_set, h.vals_length]
  · rw [CountingSort.place, List.length_modify, h.used_length]
  · intro w
    rw [CountingSort.place, getD_modify_succ (by rw [h.used_length]; exact hx), h.used_eq,
      group_append_singleton, List.length_append]
    split_ifs <;> rfl
  · intro w hw j hj
    have hj' := lt_of_lt_of_le hj (hle w)
    simp only [CountingSort.place, hmod]
    rw [group_append_singleton, List.length_append] at hj
    rw [group_append_singleton]
    by_cases hold : j < (group key seen w).length
    · have hne : start key xs (key x) + (group key seen (key x)).length ≠ start key xs w + j := by
        intro heq
        obtain ⟨rfl, rfl⟩ := start_add_inj key hfree hj' heq
        exact lt_irrefl _ hold
      rw [List.getD_append _ _ _ _ hold, ← h.vals_eq w hw j hold, List.getD_eq_getElem?_getD,
        List.getElem?_set_ne hne, ← List.getD_eq_getElem?_getD]
    · have hw' : key x = w := by
        by_contra hne
        rw [if_neg hne, List.length_nil] at hj
        omega
      subst hw'
      rw [if_pos rfl] at hj ⊢
      have hj₀ : j = (group key seen (key x)).length := by
        rw [List.length_singleton] at hj
        omega
      rw [hj₀, List.getD_eq_getElem?_getD, List.getElem?_set_self (by rw [h.vals_length]; exact hpos),
        List.getD_append_right _ _ _ _ le_rfl, Nat.sub_self]
      rfl

/-- The second pass leaves every key's items in its segment, in order. -/
theorem placed_foldl (hkey : ∀ x ∈ xs, key x < m) (hM : xs.length < M) {offsets : List ℕ}
    (hoff : ∀ w < m, offsets.getD w 0 = start key xs w) :
    Placed key m xs xs (xs.foldl (place M key offsets)
      (List.replicate xs.length 0, List.replicate m 0)) := by
  have hrun : ∀ seen, seen <+: xs → Placed key m xs seen (seen.foldl (place M key offsets)
      (List.replicate xs.length 0, List.replicate m 0)) := by
    intro seen
    induction seen using List.reverseRecOn with
    | nil =>
      intro _
      constructor
      · simp
      · simp
      · intro w
        by_cases hw : w < m
        · simp [group, hw]
        · simp [group, hw]
      · intro w _ j hj
        simp [group] at hj
    | append_singleton seen x ih =>
      intro hseen
      rw [List.foldl_append, List.foldl_cons, List.foldl_nil]
      exact (ih ((List.prefix_append _ _).trans hseen)).place hkey hM hoff hseen
  exact hrun xs List.prefix_rfl

end Placement

end PqPsi.Lib.CountingSort
