import Mathlib.Data.List.Rotate
import Mathlib.Tactic

/-!
# Segments of a flat buffer

`slice` reads a segment and `splice` overwrites one. Segments of one width at
distinct multiples of the width do not meet, so that a flat buffer behaves as
the list of its segments.
-/
namespace PqPsi.Lib.Buffers

variable {α : Type*}

def slice (xs : List α) (off n : ℕ) : List α := (xs.drop off).take n

/-- `memcpy` of `ys` into `xs` at `off`. -/
def splice (xs : List α) (off : ℕ) (ys : List α) : List α :=
  xs.take off ++ ys ++ xs.drop (off + ys.length)

/-- `std::vector::resize`. -/
def resize (xs : List α) (n : ℕ) (d : α) : List α := xs.take n ++ List.replicate (n - xs.length) d

@[simp] theorem length_resize (xs : List α) (n : ℕ) (d : α) : (resize xs n d).length = n := by
  simp only [resize, List.length_append, List.length_take, List.length_replicate]
  omega

theorem length_slice {xs : List α} {off n : ℕ} (h : off + n ≤ xs.length) :
    (slice xs off n).length = n := by
  simp only [slice, List.length_take, List.length_drop]
  omega

@[simp] theorem length_splice {xs ys : List α} {off : ℕ} (h : off + ys.length ≤ xs.length) :
    (splice xs off ys).length = xs.length := by
  simp only [splice, List.length_append, List.length_take, List.length_drop]
  omega

/-- A buffer with room for two parts is these parts. -/
theorem exists_append_of_length {xs : List α} {n m : ℕ} (h : xs.length = n + m) :
    ∃ ys zs, xs = ys ++ zs ∧ ys.length = n ∧ zs.length = m := by
  refine ⟨xs.take n, xs.drop n, (List.take_append_drop n xs).symm, ?_, ?_⟩
  · exact List.length_take_of_le (by omega)
  · rw [List.length_drop]
    omega

theorem slice_getElem? (xs : List α) (off n k : ℕ) :
    (slice xs off n)[k]? = if k < n then xs[off + k]? else none := by
  rw [slice, List.getElem?_take, List.getElem?_drop]

theorem splice_getElem? {xs ys : List α} {off : ℕ} (h : off + ys.length ≤ xs.length) (k : ℕ) :
    (splice xs off ys)[k]? = if off ≤ k ∧ k < off + ys.length then ys[k - off]? else xs[k]? := by
  unfold splice
  by_cases hlo : k < off
  · rw [List.append_assoc, List.getElem?_append_left (by simp; omega), List.getElem?_take,
      if_pos hlo, if_neg (by omega)]
  · have hlen : (xs.take off).length = off := by simp; omega
    rw [List.append_assoc, List.getElem?_append_right (by omega), hlen]
    by_cases hhi : k < off + ys.length
    · rw [List.getElem?_append_left (by omega), if_pos ⟨by omega, hhi⟩]
    · rw [List.getElem?_append_right (by omega), List.getElem?_drop, if_neg (by omega)]
      congr 1
      omega

/-- Reading the segment just written. -/
theorem slice_splice_same {xs ys : List α} {off : ℕ} (h : off + ys.length ≤ xs.length) :
    slice (splice xs off ys) off ys.length = ys := by
  apply List.ext_getElem?
  intro k
  rw [slice_getElem?, splice_getElem? h]
  by_cases hk : k < ys.length
  · simp [hk]
  · rw [if_neg hk, List.getElem?_eq_none (by omega)]

/-- Reading a segment that the write does not meet. -/
theorem slice_splice_disjoint {xs ys : List α} {off off' n : ℕ}
    (h : off + ys.length ≤ xs.length) (hd : off' + n ≤ off ∨ off + ys.length ≤ off') :
    slice (splice xs off ys) off' n = slice xs off' n := by
  apply List.ext_getElem?
  intro k
  rw [slice_getElem?, slice_getElem?]
  split_ifs with hk
  · rw [splice_getElem? h, if_neg (by omega)]
  · rfl

section Ring

theorem splice_zero {xs ys : List α} (h : ys.length = xs.length) : splice xs 0 ys = ys := by
  simp [splice, h]

/-- Two segments that fill a buffer. -/
theorem splice_splice_zero {xs ys zs : List α} (h : ys.length + zs.length = xs.length) :
    splice (splice xs 0 ys) ys.length zs = ys ++ zs := by
  simp [splice, ← h]

/-- A segment written at `start`, seen from `start` on. -/
theorem rotate_splice {xs ys : List α} {start : ℕ} (h : start + ys.length ≤ xs.length) :
    (splice xs start ys).rotate start = ys ++ (xs.rotate start).drop ys.length := by
  have hlen : (xs.take start).length = start := by simp; omega
  have hrot := List.rotate_append_length_eq (xs.take start) (ys ++ xs.drop (start + ys.length))
  rw [hlen, ← List.append_assoc] at hrot
  rw [splice, hrot, List.rotate_eq_drop_append_take (by omega),
    List.drop_append_of_le_length (by simp; omega), List.drop_drop, List.append_assoc]

/-- A segment written at `start` up to the end and on from the front, seen from `start` on. -/
theorem rotate_splice_wrap {xs ys zs : List α} {start : ℕ} (h : start + ys.length = xs.length)
    (hz : zs.length ≤ start) :
    (splice (splice xs start ys) 0 zs).rotate start =
      ys ++ zs ++ (xs.rotate start).drop (ys.length + zs.length) := by
  have hlen : (zs ++ (xs.take start).drop zs.length).length = start := by simp; omega
  have hdrop : (xs.drop start).length = ys.length := by simp; omega
  have hsplice : splice (splice xs start ys) 0 zs =
      zs ++ (xs.take start).drop zs.length ++ ys := by
    simp only [splice, List.take_zero, List.nil_append, Nat.zero_add]
    rw [List.append_assoc (xs.take start), List.drop_append_of_le_length (by simp; omega), h]
    simp
  have hrot := List.rotate_append_length_eq (zs ++ (xs.take start).drop zs.length) ys
  rw [hlen] at hrot
  rw [hsplice, hrot, List.rotate_eq_drop_append_take (by omega), ← hdrop,
    List.drop_length_add_append, List.append_assoc]

end Ring

/-- The rows of a buffer of `n` rows. -/
def rowsOf (xs : List α) (rowSize n : ℕ) : List (List α) :=
  (List.range n).map fun i => slice xs (i * rowSize) rowSize

theorem flatten_rowsOf {xs : List α} {rowSize n : ℕ} (h : xs.length = n * rowSize) :
    (rowsOf xs rowSize n).flatten = xs := by
  induction n generalizing xs with
  | zero =>
    have hx : xs = [] := List.eq_nil_of_length_eq_zero (by simpa using h)
    simp [rowsOf, hx]
  | succ n ih =>
    have hlen : (xs.drop rowSize).length = n * rowSize := by
      rw [List.length_drop, h]
      have hs : (n + 1) * rowSize = n * rowSize + rowSize := by ring
      omega
    have hrest : ((List.range n).map Nat.succ).map (fun i => slice xs (i * rowSize) rowSize) =
        rowsOf (xs.drop rowSize) rowSize n := by
      rw [rowsOf, List.map_map]
      refine List.map_congr_left fun i _ => ?_
      simp only [Function.comp, slice, List.drop_drop]
      congr 2
      rw [Nat.succ_mul]
      omega
    rw [rowsOf, List.range_succ_eq_map, List.map_cons, List.flatten_cons, hrest, ih hlen]
    simp [slice]

theorem length_of_mem_rowsOf {xs : List α} {rowSize n : ℕ} (h : xs.length = n * rowSize) :
    ∀ r ∈ rowsOf xs rowSize n, r.length = rowSize := by
  intro r hr
  obtain ⟨i, hi, rfl⟩ := List.mem_map.mp hr
  apply length_slice
  rw [h, ← Nat.succ_mul]
  exact Nat.mul_le_mul_right _ (List.mem_range.mp hi)

theorem slice_flatten {rows : List (List α)} {rowSize : ℕ} (h : ∀ r ∈ rows, r.length = rowSize)
    {i : ℕ} (hi : i < rows.length) : slice rows.flatten (i * rowSize) rowSize = rows[i] := by
  induction rows generalizing i with
  | nil => simp at hi
  | cons r rows ih =>
    have hr : r.length = rowSize := h r (by simp)
    cases i with
    | zero => simp [slice, ← hr]
    | succ i =>
      have hd : (r ++ rows.flatten).drop ((i + 1) * rowSize) = rows.flatten.drop (i * rowSize) := by
        rw [Nat.succ_mul, Nat.add_comm, ← hr, List.drop_append, hr]
        simp [hr]
      have hs := ih (fun r hr => h r (by simp [hr])) (i := i) (by simpa using hi)
      rw [List.flatten_cons, slice, hd]
      simpa [slice] using hs

theorem rowsOf_flatten {rows : List (List α)} {rowSize : ℕ} (h : ∀ r ∈ rows, r.length = rowSize) :
    rowsOf rows.flatten rowSize rows.length = rows := by
  apply List.ext_getElem (by simp [rowsOf])
  intro i hi hi'
  simp [rowsOf, slice_flatten h hi']

theorem length_flatten_rows {rows : List (List α)} {rowSize : ℕ}
    (h : ∀ r ∈ rows, r.length = rowSize) : rows.flatten.length = rows.length * rowSize := by
  rw [List.length_flatten, List.sum_eq_card_nsmul _ rowSize (by simpa using h)]
  simp

/-- Overwriting one row of a flattened table. -/
theorem splice_flatten {rows : List (List α)} {rowSize : ℕ} (h : ∀ r ∈ rows, r.length = rowSize)
    {i : ℕ} (hi : i < rows.length) {ys : List α} (hy : ys.length = rowSize) :
    splice rows.flatten (i * rowSize) ys = (rows.set i ys).flatten := by
  induction rows generalizing i with
  | nil => simp at hi
  | cons r rows ih =>
    have hr : r.length = rowSize := h r (by simp)
    cases i with
    | zero => simp [splice, hy, ← hr]
    | succ i =>
      have hs := ih (fun r hr => h r (by simp [hr])) (i := i) (by simpa using hi)
      rw [List.set_cons_succ, List.flatten_cons, List.flatten_cons, ← hs]
      simp only [splice, hy]
      have e1 : (i + 1) * rowSize = r.length + i * rowSize := by rw [hr]; ring
      have e2 : (i + 1) * rowSize + rowSize = r.length + (i * rowSize + rowSize) := by
        rw [hr]; ring
      rw [e2, e1, List.take_length_add_append, List.drop_length_add_append]
      simp

/-- A loop that rewrites row `i` at turn `i`, from what the row held at the start. -/
theorem foldl_splice {h : ℕ → List α → List α} {rows : List (List α)} {rowSize : ℕ}
    (hrows : ∀ r ∈ rows, r.length = rowSize)
    (hlen : ∀ i < rows.length, ∀ r, r.length = rowSize → (h i r).length = rowSize) :
    (List.range rows.length).foldl
      (fun buf i => splice buf (i * rowSize) (h i (slice buf (i * rowSize) rowSize)))
      rows.flatten = (rows.mapIdx h).flatten := by
  have hk : ∀ k ≤ rows.length, (List.range k).foldl
      (fun buf i => splice buf (i * rowSize) (h i (slice buf (i * rowSize) rowSize)))
      rows.flatten = ((rows.take k).mapIdx h ++ rows.drop k).flatten := by
    intro k hk
    induction k with
    | zero => simp
    | succ k ih =>
      have hkl : k < rows.length := by omega
      have hdrop : rows.drop k = rows[k] :: rows.drop (k + 1) := List.drop_eq_getElem_cons hkl
      have htake : rows.take (k + 1) = rows.take k ++ [rows[k]] := List.take_succ_eq_append_getElem hkl
      have hmid : ((rows.take k).mapIdx h).length = k := by simp; omega
      have hw : ∀ r ∈ (rows.take k).mapIdx h ++ rows.drop k, r.length = rowSize := by
        intro r hr
        rcases List.mem_append.mp hr with hr | hr
        · obtain ⟨i, hi, rfl⟩ := List.mem_mapIdx.mp hr
          have hi' : i < rows.length := by simp at hi; omega
          exact hlen i hi' _ (hrows _ (List.mem_of_mem_take (List.getElem_mem hi)))
        · exact hrows r (List.mem_of_mem_drop hr)
      have hget : ((rows.take k).mapIdx h ++ rows.drop k)[k]? = some rows[k] := by
        rw [List.getElem?_append_right (by omega), hmid, hdrop]
        simp
      obtain ⟨hlt, hval⟩ := List.getElem?_eq_some_iff.mp hget
      rw [List.range_succ, List.foldl_append, ih (by omega), List.foldl_cons, List.foldl_nil,
        slice_flatten hw hlt, hval,
        splice_flatten hw hlt (hlen k hkl _ (hrows _ (List.getElem_mem hkl))),
        List.set_append_right _ _ (by omega), hmid, Nat.sub_self, hdrop, List.set_cons_zero, htake,
        List.mapIdx_append]
      simp [hkl.le]
  have hall := hk rows.length le_rfl
  rw [hall]
  simp

section Fill
variable {g : ℕ → α} {out : List α}

/-- A buffer whose first `k` entries are filled. -/
def filled (g : ℕ → α) (out : List α) (k : ℕ) : List α := (List.range k).map g ++ out.drop k

@[simp] theorem filled_zero : filled g out 0 = out := rfl

theorem filled_set {k : ℕ} (hk : k < out.length) :
    (filled g out k).set k (g k) = filled g out (k + 1) := by
  have hlen : ((List.range k).map g).length = k := by simp
  rw [filled, filled, List.set_append_right _ _ hlen.le, hlen, Nat.sub_self,
    List.drop_eq_getElem_cons hk, List.set_cons_zero, List.range_succ, List.map_append,
    List.append_assoc]
  rfl

theorem filled_splice (k step : ℕ) :
    splice (filled g out k) k ((List.range step).map fun j => g (k + j)) =
      filled g out (k + step) := by
  have hlen : ((List.range k).map g).length = k := by simp
  have hrange : (List.range (k + step)).map g =
      (List.range k).map g ++ (List.range step).map fun j => g (k + j) := by
    rw [List.range_add, List.map_append, List.map_map]
    rfl
  rw [splice, filled, filled, hrange, List.take_left' hlen, List.length_map, List.length_range,
    List.drop_append, hlen, List.drop_eq_nil_of_le (by omega), List.drop_drop, List.nil_append,
    Nat.add_sub_cancel_left]

/-- A loop that fills whole steps. -/
theorem foldl_splice_filled {f : ℕ → List α} {step m : ℕ}
    (hf : ∀ i < m, f i = (List.range step).map fun j => g (i * step + j)) :
    (List.range m).foldl (fun out i => splice out (i * step) (f i)) out =
      filled g out (m * step) := by
  induction m with
  | zero => simp
  | succ m ih =>
    rw [List.range_succ, List.foldl_append, ih fun i hi => hf i (by omega), List.foldl_cons,
      List.foldl_nil, hf m (by omega), filled_splice, Nat.succ_mul]

/-- A loop that fills one entry after the other. -/
theorem foldl_set_filled {k m : ℕ} (hlen : k + m ≤ out.length) :
    (List.range' k m).foldl (fun out i => out.set i (g i)) (filled g out k) =
      filled g out (k + m) := by
  induction m generalizing k with
  | zero => rfl
  | succ m ih =>
    rw [List.range'_succ, List.foldl_cons, filled_set (by omega), ih (by omega)]
    congr 1
    omega

/-- Whole steps first, and what is left one by one. -/
theorem fill_steps {f : ℕ → List α} {step n : ℕ} (hstep : 0 < step)
    (hf : ∀ i < n / step, f i = (List.range step).map fun j => g (i * step + j))
    (hlen : n ≤ out.length) :
    (List.range' (n - n % step) (n - (n - n % step))).foldl (fun out i => out.set i (g i))
      ((List.range ((n - n % step) / step)).foldl (fun out i => splice out (i * step) (f i)) out) =
      (List.range n).map g ++ out.drop n := by
  have hwhole : n - n % step = n / step * step := by
    have := Nat.div_add_mod' n step
    omega
  have hle : n / step * step ≤ n := Nat.div_mul_le_self n step
  rw [hwhole, Nat.mul_div_cancel _ hstep, foldl_splice_filled hf,
    foldl_set_filled (by omega), Nat.add_sub_cancel' hle, filled]

end Fill

section Vectors
variable {α : Type*} {n : ℕ}

/-- Reading by an index that carries its bound. -/
theorem vector_get (xs : Vector α n) (i : Fin n) : xs.get i = xs[i.val] := rfl

theorem vector_getD {i : ℕ} {d : α} (xs : Vector α n) (h : i < n) : xs.getD i d = xs[i] := by
  simp [Vector.getD, Array.getD, h]

theorem vector_getD_setIfInBounds (xs : Vector α n) {i : ℕ} (hi : i < n) (v d : α) (j : ℕ) :
    (xs.setIfInBounds i v).getD j d = if j = i then v else xs.getD j d := by
  by_cases hj : j < n
  · rw [vector_getD _ hj, vector_getD _ hj, Vector.getElem_setIfInBounds hj]
    simp only [eq_comm]
  · have hne : j ≠ i := by omega
    simp [Vector.getD, Array.getD, hj, hne]

/-- One turn of a walk through a buffer with one entry in hand: it is put down at the next place,
and what was there is picked up. -/
def carry (pos : ℕ → ℕ) (g : ℕ → α → α) (d : α) (c : Vector α n × α) (j : ℕ) : Vector α n × α :=
  (c.1.setIfInBounds (pos (j + 1)) (g j c.2), c.1.getD (pos (j + 1)) d)

/-- A walk that puts down at different places finds the old entries at all of them. -/
theorem carry_turns {pos : ℕ → ℕ} {g : ℕ → α → α} {d : α} (s : Vector α n) {m : ℕ}
    (hpos : ∀ i < m, pos (i + 1) < n)
    (hinj : ∀ i < m, ∀ j < m, pos (i + 1) = pos (j + 1) → i = j) :
    let c := (List.range m).foldl (carry pos g d) (s, s.getD (pos 0) d)
    (∀ i < m, c.1.getD (pos (i + 1)) d = g i (s.getD (pos i) d)) ∧
      (∀ p, (∀ i < m, p ≠ pos (i + 1)) → c.1.getD p d = s.getD p d) ∧
      c.2 = s.getD (pos m) d := by
  induction m with
  | zero => exact ⟨nofun, fun _ _ => rfl, rfl⟩
  | succ m ih =>
    obtain ⟨hput, hrest, hhand⟩ := ih (fun i hi => hpos i (by omega))
      fun i hi j hj => hinj i (by omega) j (by omega)
    rw [List.range_succ, List.foldl_append, List.foldl_cons, List.foldl_nil]
    generalize (List.range m).foldl (carry pos g d) (s, s.getD (pos 0) d) = c at hput hrest hhand ⊢
    have hset := vector_getD_setIfInBounds c.1 (hpos m (by omega)) (g m c.2) d
    refine ⟨fun i hi => ?_, fun p hp => ?_, ?_⟩
    · rw [carry, hset]
      rcases Nat.lt_succ_iff_lt_or_eq.mp hi with hlt | rfl
      · have hne : pos (i + 1) ≠ pos (m + 1) := fun h => hlt.ne (hinj i hi m (by omega) h)
        rw [if_neg hne, hput i hlt]
      · rw [if_pos rfl, hhand]
    · rw [carry, hset, if_neg (hp m (by omega)), hrest p fun i hi => hp i (by omega)]
    · refine hrest _ fun i hi h => ?_
      exact hi.ne' (hinj m (by omega) i (by omega) h)

end Vectors

section Windows
variable {α : Type*} (f : ℕ → α)

/-- `n` entries of an endless sequence. -/
def window (pos n : ℕ) : List α := (List.range n).map fun i => f (pos + i)

@[simp] theorem length_window (pos n : ℕ) : (window f pos n).length = n := by simp [window]

theorem window_append (pos m n : ℕ) :
    window f pos m ++ window f (pos + m) n = window f pos (m + n) := by
  rw [window, window, window, List.range_add, List.map_append, List.map_map]
  congr 1
  refine List.map_congr_left fun i _ => ?_
  rw [Function.comp_apply, Nat.add_assoc]

/-- A segment of a window is a window. -/
theorem slice_window {pos size off n : ℕ} (h : off + n ≤ size) :
    slice (window f pos size) off n = window f (pos + off) n := by
  apply List.ext_getElem (by simp [slice]; omega)
  intro i _ hi
  simp [slice, window, Nat.add_assoc]

theorem window_congr {g : ℕ → α} {pos pos' n : ℕ} (h : ∀ i < n, f (pos + i) = g (pos' + i)) :
    window f pos n = window g pos' n :=
  List.map_congr_left fun i hi => h i (List.mem_range.mp hi)

end Windows

end PqPsi.Lib.Buffers
