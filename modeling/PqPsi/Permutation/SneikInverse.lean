import PqPsi.Lib.BitLinear
import PqPsi.Lib.Exceptions
import PqPsi.Permutation.Sneik
import Mathlib.Data.FinEnum

/-!
# The inverse tables of SNEIK

`invMatrix` inverts a linear function on words by Gauss-Jordan elimination,
once for each unit right-hand side, and `invTable` spreads the result over the
four bytes of a word. Elimination keeps the solutions of the system; it fails
exactly when a column has no pivot, and then the homogeneous system has a
solution besides zero.
-/
namespace PqPsi.Permutation.Sneik
open Lib.BitLinear Lib.Buffers Lib.Exceptions Lib.Words

section Tables

/-- One turn of the loop that reads the matrix of `fn`: the bits of `fn(1 << col)` become bit
`col` of the rows. -/
def addColumn (fn : Word → Word) (rows : Vector Word 32) (col : ℕ) : Vector Word 32 :=
  let out := fn (1#32 <<< col)
  Vector.ofFn fun row : Fin 32 =>
    if (out >>> row.val &&& 1#32) != 0#32 then rows[row] ||| 1#32 <<< col else rows[row]

def matrixRows (fn : Word → Word) : Vector Word 32 :=
  (List.range 32).foldl (addColumn fn) (Vector.replicate 32 0)

/-- The matrix `a` and the right-hand side `rhs`, whose entries are zero or one. -/
structure Elimination where
  a : Vector Word 32
  rhs : Vector Bool 32

namespace Elimination

/-- The first row from `col` on with bit `col`. -/
def findPivot (s : Elimination) (col : Fin 32) : Option (Fin 32) :=
  (List.finRange 32).find? fun row => decide (col ≤ row) && (s.a[row] >>> col.val &&& 1#32) != 0#32

def swapRows (s : Elimination) (pivot col : Fin 32) : Elimination :=
  ⟨s.a.swap pivot col, s.rhs.swap pivot col⟩

/-- Add row `col` to every other row with bit `col`. -/
def clearColumn (s : Elimination) (col : Fin 32) : Elimination where
  a := Vector.ofFn fun row : Fin 32 =>
    if row ≠ col ∧ (s.a[row] >>> col.val &&& 1#32) != 0#32 then s.a[row] ^^^ s.a[col] else s.a[row]
  rhs := Vector.ofFn fun row : Fin 32 =>
    if row ≠ col ∧ (s.a[row] >>> col.val &&& 1#32) != 0#32 then xor s.rhs[row] s.rhs[col]
    else s.rhs[row]

/-- One turn of the loop over the columns. -/
def reduceColumn (s : Elimination) (col : Fin 32) : Except Err Elimination :=
  match s.findPivot col with
  | none => .error "SNEIK inverse matrix is singular"
  | some pivot =>
    let s := if pivot ≠ col then s.swapRows pivot col else s
    .ok (s.clearColumn col)

/-- The solution that a fully reduced system shows. -/
def solution (s : Elimination) : Word :=
  (List.finRange 32).foldl (fun x col => if s.rhs[col] then x ||| 1#32 <<< col.val else x) 0

end Elimination

/-- The column of the inverse for the unit right-hand side `bit`. -/
def invColumn (rows : Vector Word 32) (bit : Fin 32) : Except Err Word := do
  let s ← (List.finRange 32).foldlM Elimination.reduceColumn
    ⟨rows, (Vector.replicate 32 false).set bit true⟩
  return s.solution

def invMatrix (fn : Word → Word) : Except Err (Vector Word 32) :=
  let rows := matrixRows fn
  (List.finRange 32).foldlM
    (fun inv bit => do
      let x ← invColumn rows bit
      return inv.set bit x)
    (Vector.replicate 32 0)

def applyInvSlow (y : Word) (inv : Vector Word 32) : Word :=
  (List.finRange 32).foldl
    (fun x bit => if (y >>> bit.val &&& 1#32) != 0#32 then x ^^^ inv[bit] else x) 0

/-- `InvTable`: a row for each byte of a word, an entry for each value of the byte. -/
abbrev InvTable := Vector (Vector Word 256) 4

def invTable (inv : Vector Word 32) : InvTable :=
  Vector.ofFn fun lane : Fin 4 => Vector.ofFn fun byte : Fin 256 =>
    applyInvSlow (BitVec.ofNat 32 byte.val <<< (8 * lane.val)) inv

/-- `table[lane][byte]`. -/
def InvTable.at (table : InvTable) (lane : Fin 4) (byte : Word) : Word :=
  (table.get lane).getD byte.toNat 0

def applyInv (y : Word) (table : InvTable) : Word :=
  table.at 0 (y &&& 0xFF) ^^^ table.at 1 (y >>> 8 &&& 0xFF) ^^^ table.at 2 (y >>> 16 &&& 0xFF) ^^^
    table.at 3 (y >>> 24 &&& 0xFF)

/-- `invert`; the tables are built at its first call. -/
def invert (state : List Byte) (dom : Byte) (rounds : ℕ) : Except Err (List Byte) := do
  let invA ← invTable <$> invMatrix linA
  let invB ← invTable <$> invMatrix linB
  return invertWith (applyInv · invA) (applyInv · invB) state dom rounds

end Tables

section Rows

theorem getLsbD_or_shift (x : Word) {col : ℕ} (hcol : col < 32) (j : ℕ) :
    (x ||| 1#32 <<< col).getLsbD j = (x.getLsbD j || decide (j = col)) := by
  have hunit := getLsbD_unit (w := 32) col j
  rw [unit] at hunit
  rw [BitVec.getLsbD_or, hunit]
  by_cases hj : j = col
  · simp [hj, hcol]
  · simp [hj]

theorem getLsbD_addColumn (fn : Word → Word) (rows : Vector Word 32) {n : ℕ} (hn : n < 32)
    (row : Fin 32) (col : ℕ) :
    ((addColumn fn rows n).get row).getLsbD col =
      ((rows.get row).getLsbD col || (decide (col = n) && (fn (unit n)).getLsbD row)) := by
  simp only [addColumn, vector_get, Fin.getElem_fin, Vector.getElem_ofFn, shiftRight_and_one, unit]
  cases (fn (1#32 <<< n)).getLsbD row with
  | true => rw [if_pos rfl, getLsbD_or_shift _ hn, Bool.and_true]
  | false => rw [if_neg Bool.false_ne_true, Bool.and_false, Bool.or_false]

theorem getLsbD_matrixRows (fn : Word → Word) (row : Fin 32) {col : ℕ} (hcol : col < 32) :
    ((matrixRows fn).get row).getLsbD col = (fn (unit col)).getLsbD row := by
  have hloop : ∀ n ≤ 32, (((List.range n).foldl (addColumn fn)
      (Vector.replicate 32 0)).get row).getLsbD col =
      (decide (col < n) && (fn (unit col)).getLsbD row) := by
    intro n
    induction n with
    | zero => simp [vector_get]
    | succ n ih =>
      intro hn
      rw [List.range_succ, List.foldl_append, List.foldl_cons, List.foldl_nil,
        getLsbD_addColumn _ _ (by omega), ih (by omega)]
      by_cases hc : col = n
      · simp [hc]
      · have hlt : col < n + 1 ↔ col < n := by omega
        simp [hc, hlt]
  rw [matrixRows, hloop 32 le_rfl, decide_eq_true hcol, Bool.true_and]

/-- The equations of the matrix say what `fn` does. -/
theorem dot_matrixRows {fn : Word → Word} (hfn : Linear fn) (row : Fin 32) (x : Word) :
    dot ((matrixRows fn).get row) x = (fn x).getLsbD row :=
  (hfn.getLsbD_eq_dot (fun _ hi => getLsbD_matrixRows fn row hi) x).symm

end Rows

namespace Elimination
variable {s t : Elimination} {x : Word} {c : Bool} {col pivot : Fin 32}

/-- The word `x` solves the system (`c = true`), or the homogeneous system (`c = false`). -/
def Solves (s : Elimination) (x : Word) (c : Bool) : Prop :=
  ∀ row : Fin 32, dot (s.a.get row) x = (s.rhs.get row && c)

/-- The columns before `k` are those of the identity. -/
def Reduced (s : Elimination) (k : ℕ) : Prop :=
  ∀ (row : Fin 32) (j : ℕ), j < k → (s.a.get row).getLsbD j = decide (row.val = j)

section Swap

theorem swapRows_apply (s : Elimination) (pivot col row : Fin 32) :
    (s.swapRows pivot col).a.get row = s.a.get (Equiv.swap pivot col row) ∧
      (s.swapRows pivot col).rhs.get row = s.rhs.get (Equiv.swap pivot col row) := by
  simp only [swapRows, vector_get, Vector.getElem_swap, Equiv.swap_apply_def, ← Fin.ext_iff]
  split_ifs <;> exact ⟨rfl, rfl⟩

theorem solves_swapRows (pivot col : Fin 32) :
    (s.swapRows pivot col).Solves x c ↔ s.Solves x c := by
  constructor
  · intro h row
    have hrow := h (Equiv.swap pivot col row)
    rwa [(swapRows_apply s pivot col _).1, (swapRows_apply s pivot col _).2,
      Equiv.swap_apply_self] at hrow
  · intro h row
    rw [(swapRows_apply s pivot col row).1, (swapRows_apply s pivot col row).2]
    exact h _

/-- Rows from `col` on have no bits in the reduced columns, so they may change places. -/
theorem reduced_swapRows (h : s.Reduced col) (hp : col ≤ pivot) :
    (s.swapRows pivot col).Reduced col := by
  intro row j hj
  rw [(swapRows_apply s pivot col row).1, h _ j hj, decide_eq_decide, Equiv.swap_apply_def]
  have hle := Fin.le_def.mp hp
  split_ifs with h1 h2
  · subst h1; omega
  · subst h2; omega
  · rfl

end Swap

section Clear

theorem clearColumn_apply (s : Elimination) (col row : Fin 32) :
    (s.clearColumn col).a.get row =
        (if row ≠ col ∧ (s.a.get row).getLsbD col then s.a.get row ^^^ s.a.get col
          else s.a.get row) ∧
      (s.clearColumn col).rhs.get row =
        (if row ≠ col ∧ (s.a.get row).getLsbD col then xor (s.rhs.get row) (s.rhs.get col)
          else s.rhs.get row) := by
  simp only [clearColumn, vector_get, Fin.getElem_fin, Vector.getElem_ofFn, shiftRight_and_one,
    and_self]

theorem solves_clearColumn (col : Fin 32) : (s.clearColumn col).Solves x c ↔ s.Solves x c := by
  have hself : (s.clearColumn col).a.get col = s.a.get col ∧
      (s.clearColumn col).rhs.get col = s.rhs.get col := by
    rw [(clearColumn_apply s col col).1, (clearColumn_apply s col col).2]
    simp
  -- against a solved row `col`, adding it to another row changes nothing
  have hrow : dot (s.a.get col) x = ((s.rhs.get col) && c) → ∀ row : Fin 32,
      (dot ((s.clearColumn col).a.get row) x = (((s.clearColumn col).rhs.get row) && c) ↔
        dot (s.a.get row) x = (s.rhs.get row && c)) := by
    intro hcol row
    rw [(clearColumn_apply s col row).1, (clearColumn_apply s col row).2]
    split_ifs with hc
    · rw [dot_xor_left, hcol, Bool.and_xor_distrib_right, Bool.xor_left_inj]
    · rfl
  constructor
  · intro h
    have hcol := h col
    rw [hself.1, hself.2] at hcol
    exact fun row => (hrow hcol row).mp (h row)
  · intro h row
    exact (hrow (h col) row).mpr (h row)

theorem reduced_clearColumn (h : s.Reduced col) (hbit : (s.a.get col).getLsbD col = true) :
    (s.clearColumn col).Reduced (col + 1) := by
  intro row j hj
  rw [(clearColumn_apply s col row).1]
  by_cases hjc : j = col.val
  · subst hjc
    by_cases hrc : row = col
    · subst hrc
      simpa using hbit
    · have hne : row.val ≠ col.val := fun he => hrc (Fin.ext he)
      split_ifs with hc
      · rw [BitVec.getLsbD_xor, hc.2, hbit, decide_eq_false hne, Bool.xor_self]
      · simpa [hrc, hne] using hc
  · have hlt : j < col.val := by omega
    split_ifs with hc
    · rw [BitVec.getLsbD_xor, h row j hlt, h col j hlt, decide_eq_false (by omega : ¬ col.val = j),
        Bool.xor_false]
    · exact h row j hlt

end Clear

section Columns

theorem findPivot_eq_some (h : s.findPivot col = some pivot) :
    col ≤ pivot ∧ (s.a.get pivot).getLsbD col = true := by
  have hp := List.find?_some h
  simpa only [vector_get, Fin.getElem_fin, shiftRight_and_one, Bool.and_eq_true,
    decide_eq_true_eq] using hp

theorem findPivot_eq_none (h : s.findPivot col = none) {row : Fin 32} (hrow : col ≤ row) :
    (s.a.get row).getLsbD col = false := by
  have hn := List.find?_eq_none.mp h row (List.mem_finRange row)
  simpa only [vector_get, Fin.getElem_fin, shiftRight_and_one, Bool.and_eq_true, decide_eq_true_eq,
    hrow, true_and, Bool.not_eq_true] using hn

end Columns

section Solutions

theorem getLsbD_solution (s : Elimination) (j : Fin 32) : s.solution.getLsbD j = s.rhs.get j := by
  have hloop : ∀ (l : List (Fin 32)) (x : Word),
      (l.foldl (fun x col => if s.rhs[col] then x ||| 1#32 <<< col.val else x) x).getLsbD j =
        (x.getLsbD j || (decide (j ∈ l) && s.rhs.get j)) := by
    intro l
    induction l with
    | nil => simp
    | cons col l ih =>
      intro x
      rw [List.foldl_cons, ih]
      by_cases hj : j = col
      · subst hj
        cases hb : s.rhs.get j with
        | true =>
          have hset : (if s.rhs[j] then x ||| 1#32 <<< j.val else x).getLsbD j = true := by
            rw [if_pos (show s.rhs[j] = true from hb), getLsbD_or_shift _ j.isLt, decide_eq_true rfl,
              Bool.or_true]
          rw [hset]
          simp
        | false => simp [show s.rhs[j] = false from hb]
      · have hne : j.val ≠ col.val := fun he => hj (Fin.ext he)
        have hskip : (if s.rhs[col] then x ||| 1#32 <<< col.val else x).getLsbD j = x.getLsbD j := by
          split_ifs
          · rw [getLsbD_or_shift _ col.isLt, decide_eq_false hne, Bool.or_false]
          · rfl
        rw [hskip]
        simp [hj]
  rw [solution, hloop]
  simp

/-- A fully reduced system has one solution, the right-hand side. -/
theorem solves_iff_of_reduced (h : s.Reduced 32) : s.Solves x true ↔ x = s.solution := by
  have hrow : ∀ row : Fin 32, dot (s.a.get row) x = x.getLsbD row := by
    intro row
    have hunit : s.a.get row = unit row.val := by
      apply BitVec.eq_of_getLsbD_eq
      intro j hj
      rw [h row j hj, getLsbD_unit]
      simp [hj, eq_comm]
    rw [hunit, dot_unit_left row.isLt]
  constructor
  · intro hs
    apply BitVec.eq_of_getLsbD_eq
    intro j hj
    have hj' := hs ⟨j, hj⟩
    rw [hrow, Bool.and_true, ← getLsbD_solution] at hj'
    exact hj'
  · rintro rfl row
    rw [hrow, getLsbD_solution, Bool.and_true]

/-- A column without pivot is a sum of the columns before it. -/
theorem exists_kernel_of_findPivot_none (hs : s.Reduced col) (h : s.findPivot col = none) :
    ∃ x : Word, x ≠ 0#32 ∧ s.Solves x false := by
  obtain ⟨z, hz⟩ : ∃ z : Word, ∀ j : Fin 32,
      z.getLsbD j = (decide (j < col) && (s.a.get j).getLsbD col) :=
    ⟨solution ⟨s.a, Vector.ofFn fun j => decide (j < col) && (s.a.get j).getLsbD col⟩,
      fun j => by rw [getLsbD_solution, vector_get, Vector.getElem_ofFn]⟩
  have hzcol : z.getLsbD col = false := by rw [hz, decide_eq_false (lt_irrefl col), Bool.false_and]
  refine ⟨unit col.val ^^^ z, ?_, fun row => ?_⟩
  · intro h0
    have hbit : (unit col.val ^^^ z : Word).getLsbD col = false := by rw [h0, BitVec.getLsbD_zero]
    rw [BitVec.getLsbD_xor, hzcol, getLsbD_unit, decide_eq_true ⟨col.isLt, rfl⟩] at hbit
    exact absurd hbit (by decide)
  · -- below column `col` row `row` of the matrix is a unit row, and `z` has no bits above
    have hdot : dot (s.a.get row) z = z.getLsbD row := by
      rw [← dot_unit_left row.isLt z]
      apply dot_congr
      intro j hj
      by_cases hlt : j < col.val
      · rw [hs row j hlt, getLsbD_unit]
        simp [hj, eq_comm]
      · have hzj : z.getLsbD j = false := by
          rw [hz ⟨j, hj⟩, decide_eq_false (fun hc => hlt (Fin.lt_def.mp hc)), Bool.false_and]
        rw [hzj, Bool.and_false, Bool.and_false]
    rw [dot_xor_right, dot_unit_right col.isLt, hdot, hz row, Bool.and_false]
    by_cases hlt : row < col
    · simp [hlt]
    · rw [findPivot_eq_none h (not_lt.mp hlt), decide_eq_false hlt, Bool.false_and, Bool.xor_false]

end Solutions

section Runs

/-- A turn keeps the solutions and reduces one more column, or it finds the matrix singular. -/
theorem reduceColumn_spec (hs : s.Reduced col) :
    (∃ t, s.reduceColumn col = .ok t ∧ t.Reduced (col + 1) ∧
        ∀ x c, t.Solves x c ↔ s.Solves x c) ∨
      (s.reduceColumn col = .error "SNEIK inverse matrix is singular" ∧
        ∃ x : Word, x ≠ 0#32 ∧ s.Solves x false) := by
  cases hp : s.findPivot col with
  | none => exact .inr ⟨by rw [reduceColumn, hp], exists_kernel_of_findPivot_none hs hp⟩
  | some pivot =>
    obtain ⟨hle, hbit⟩ := findPivot_eq_some hp
    left
    rw [reduceColumn, hp]
    refine ⟨_, rfl, ?_⟩
    by_cases hpc : pivot = col
    · subst hpc
      rw [if_neg (not_not.mpr rfl)]
      exact ⟨reduced_clearColumn hs hbit, fun x c => solves_clearColumn pivot⟩
    · rw [if_pos hpc]
      refine ⟨reduced_clearColumn (reduced_swapRows hs hle) ?_, fun x c => ?_⟩
      · rw [(swapRows_apply s pivot col col).1, Equiv.swap_apply_right]
        exact hbit
      · rw [solves_clearColumn, solves_swapRows]

/-- The loop over the first `k` columns, by induction on `k`. -/
theorem foldlM_reduceColumn (s : Elimination) {k : ℕ} (hk : k ≤ 32) :
    (∃ t, ((List.finRange 32).take k).foldlM reduceColumn s = .ok t ∧ t.Reduced k ∧
        ∀ x c, t.Solves x c ↔ s.Solves x c) ∨
      (((List.finRange 32).take k).foldlM reduceColumn s =
          .error "SNEIK inverse matrix is singular" ∧
        ∃ x : Word, x ≠ 0#32 ∧ s.Solves x false) := by
  induction k with
  | zero => exact .inl ⟨s, rfl, fun _ _ h => absurd h (Nat.not_lt_zero _), fun _ _ => Iff.rfl⟩
  | succ k ih =>
    have hlt : k < 32 := by omega
    have htake : (List.finRange 32).take (k + 1) = (List.finRange 32).take k ++ [⟨k, hlt⟩] := by
      rw [List.take_add_one, List.getElem?_eq_getElem (by simpa using hlt)]
      simp
    rw [htake, List.foldlM_append]
    rcases ih (by omega) with ⟨t, ht, hred, hsol⟩ | ⟨herr, hker⟩
    · rw [ht, ok_bind]
      simp only [List.foldlM_cons, List.foldlM_nil, pure_eq_ok, bind_ok]
      have hcol : t.Reduced (⟨k, hlt⟩ : Fin 32) := hred
      rcases reduceColumn_spec hcol with ⟨t', ht', hred', hsol'⟩ | ⟨herr, x, hx, hker⟩
      · exact .inl ⟨t', ht', hred', fun x c => (hsol' x c).trans (hsol x c)⟩
      · exact .inr ⟨herr, x, hx, (hsol x false).mp hker⟩
    · rw [herr, error_bind]
      exact .inr ⟨rfl, hker⟩

end Runs

end Elimination

section Matrix
variable {fn : Word → Word}

/-- The system of a right-hand side whose bits are those of `y`. -/
theorem solves_matrixRows (hfn : Linear fn) (rhs : Vector Bool 32) (c : Bool) (y : Word)
    (hrhs : ∀ row : Fin 32, (rhs.get row && c) = y.getLsbD row) (x : Word) :
    (Elimination.mk (matrixRows fn) rhs).Solves x c ↔ fn x = y := by
  constructor
  · intro h
    apply BitVec.eq_of_getLsbD_eq
    intro j hj
    have hrow := h ⟨j, hj⟩
    rwa [dot_matrixRows hfn, hrhs] at hrow
  · rintro rfl row
    rw [dot_matrixRows hfn, hrhs]

/-- One column of the inverse: the only word that `fn` takes to the unit word. -/
theorem invColumn_spec (hfn : Linear fn) (bit : Fin 32) :
    (∃ x, invColumn (matrixRows fn) bit = .ok x ∧ ∀ y, fn y = unit bit.val ↔ y = x) ∨
      (invColumn (matrixRows fn) bit = .error "SNEIK inverse matrix is singular" ∧
        ∃ x : Word, x ≠ 0#32 ∧ fn x = 0#32) := by
  have hone := solves_matrixRows hfn ((Vector.replicate 32 false).set bit true) true
    (unit bit.val) fun row => by
      rw [vector_get, Vector.getElem_set, getLsbD_unit]
      simp [eq_comm]
  have hzero := solves_matrixRows hfn ((Vector.replicate 32 false).set bit true) false 0#32
    fun row => by rw [Bool.and_false, BitVec.getLsbD_zero]
  have hrun := (Elimination.mk (matrixRows fn)
    ((Vector.replicate 32 false).set bit true)).foldlM_reduceColumn le_rfl
  rw [List.take_of_length_le (by simp)] at hrun
  rw [invColumn]
  rcases hrun with ⟨t, ht, hred, hsol⟩ | ⟨herr, x, hx, hker⟩
  · refine .inl ⟨t.solution, by rw [ht, ok_bind, pure_eq_ok], fun y => ?_⟩
    rw [← hone, ← hsol, Elimination.solves_iff_of_reduced hred]
  · exact .inr ⟨by rw [herr, error_bind], x, hx, (hzero x).mp hker⟩

/-- A loop that sets every entry of a vector once. -/
theorem get_foldl_set {α : Type} {n : ℕ} (x : Fin n → α) (l : List (Fin n)) (inv : Vector α n)
    {i : Fin n} (hi : i ∈ l ∨ inv.get i = x i) :
    (l.foldl (fun inv j => inv.set j (x j) j.isLt) inv).get i = x i := by
  induction l generalizing inv with
  | nil => simpa using hi
  | cons j l ih =>
    rw [List.foldl_cons]
    apply ih
    rw [vector_get, Vector.getElem_set]
    by_cases hij : i = j
    · exact .inr (by simp [hij])
    · have hne : ¬ j.val = i.val := fun he => hij (Fin.ext he.symm)
      rw [if_neg hne, ← vector_get]
      simpa [hij] using hi

/-- The matrix of the inverse, or a word besides zero that `fn` takes to zero. -/
theorem invMatrix_spec (hfn : Linear fn) :
    (∃ inv, invMatrix fn = .ok inv ∧ ∀ bit : Fin 32, fn (inv.get bit) = unit bit.val) ∨
      (invMatrix fn = .error "SNEIK inverse matrix is singular" ∧
        ∃ x : Word, x ≠ 0#32 ∧ fn x = 0#32) := by
  by_cases hker : ∃ x : Word, x ≠ 0#32 ∧ fn x = 0#32
  · -- a kernel word contradicts the uniqueness of the first column
    have hfirst : invColumn (matrixRows fn) 0 = .error "SNEIK inverse matrix is singular" := by
      rcases invColumn_spec hfn 0 with ⟨x, -, huniq⟩ | ⟨herr, -⟩
      · obtain ⟨k, hk, hfk⟩ := hker
        have hx := (huniq x).mpr rfl
        have hsum : fn (x ^^^ k) = unit (0 : Fin 32).val := by rw [hfn, hx, hfk, BitVec.xor_zero]
        have hzero := congrArg (x ^^^ ·) ((huniq _).mp hsum)
        simp only [← BitVec.xor_assoc, BitVec.xor_self, BitVec.zero_xor] at hzero
        exact absurd hzero hk
      · exact herr
    refine .inr ⟨?_, hker⟩
    rw [invMatrix, List.finRange_succ, List.foldlM_cons, hfirst, error_bind, error_bind]
  · left
    have hcol : ∀ bit, ∃ x, invColumn (matrixRows fn) bit = .ok x ∧ fn x = unit bit.val := by
      intro bit
      rcases invColumn_spec hfn bit with ⟨x, hx, huniq⟩ | ⟨-, hx⟩
      · exact ⟨x, hx, (huniq x).mpr rfl⟩
      · exact absurd hx hker
    choose x hx hunit using hcol
    refine ⟨(List.finRange 32).foldl (fun inv (j : Fin 32) => inv.set j (x j)) (Vector.replicate 32 0),
      ?_, ?_⟩
    · simp only [invMatrix, hx, ok_bind]
      exact List.foldlM_pure
    · intro bit
      rw [get_foldl_set x _ _ (.inl (List.mem_finRange bit)), hunit]

end Matrix

section Bytes
variable (inv : Vector Word 32)

theorem applyInvSlow_eq_combine (y : Word) :
    applyInvSlow y inv = combine (fun i => inv.getD i 0) y := by
  have hmap : List.range 32 = (List.finRange 32).map Fin.val := (List.map_coe_finRange_eq_range).symm
  rw [combine, hmap, List.foldl_map, applyInvSlow]
  simp only [shiftRight_and_one]
  congr 1
  funext x bit
  rw [vector_getD _ bit.isLt, Fin.getElem_fin]

theorem applyInvSlow_linear : Linear (applyInvSlow · inv) := by
  intro x y
  simp only [applyInvSlow_eq_combine]
  exact combine_linear _ x y

theorem invTable_at (lane : Fin 4) {byte : Word} (h : byte.toNat < 256) :
    (invTable inv).at lane byte = applyInvSlow (byte <<< (8 * lane.val)) inv := by
  simp only [InvTable.at, invTable, vector_get, Vector.getElem_ofFn]
  rw [vector_getD _ h, Vector.getElem_ofFn, BitVec.ofNat_toNat, BitVec.setWidth_eq]

/-- The four bytes of a word in their places. -/
theorem lanes_xor (y : Word) :
    (y &&& 0xFF) <<< 0 ^^^ (y >>> 8 &&& 0xFF) <<< 8 ^^^ (y >>> 16 &&& 0xFF) <<< 16 ^^^
      (y >>> 24 &&& 0xFF) <<< 24 = y := by
  apply BitVec.eq_of_getLsbD_eq
  intro i hi
  interval_cases i <;> simp

theorem toNat_and_0xFF_lt (y : Word) : (y &&& 0xFF).toNat < 256 := by
  rw [BitVec.toNat_and]
  exact Nat.lt_succ_of_le Nat.and_le_right

theorem applyInv_invTable (y : Word) : applyInv y (invTable inv) = applyInvSlow y inv := by
  have hlin := applyInvSlow_linear inv
  rw [applyInv, invTable_at inv 0 (toNat_and_0xFF_lt _), invTable_at inv 1 (toNat_and_0xFF_lt _),
    invTable_at inv 2 (toNat_and_0xFF_lt _), invTable_at inv 3 (toNat_and_0xFF_lt _), ← hlin, ← hlin,
    ← hlin]
  exact congrArg (applyInvSlow · inv) (lanes_xor y)

end Bytes

section Inverse
variable {fn : Word → Word}

/-- Columns that `fn` takes to the unit words add up to preimages. -/
theorem fn_applyInvSlow (hfn : Linear fn) {inv : Vector Word 32}
    (hunit : ∀ bit : Fin 32, fn (inv.get bit) = unit bit.val) (y : Word) :
    fn (applyInvSlow y inv) = y := by
  have hval : ∀ i < 32, fn (inv.getD i 0) = unit i := by
    intro i hi
    rw [vector_getD _ hi]
    exact hunit ⟨i, hi⟩
  rw [applyInvSlow_eq_combine, hfn.map_combine, combine_congr hval, combine_units]

/-- The matrix of the inverse of a bijection, or the exception. -/
theorem invMatrix_cases (hfn : Linear fn) :
    (∃ inv, invMatrix fn = .ok inv ∧ Function.Bijective fn ∧ ∀ y, fn (applyInvSlow y inv) = y) ∨
      (invMatrix fn = .error "SNEIK inverse matrix is singular" ∧ ¬ Function.Bijective fn) := by
  rcases invMatrix_spec hfn with ⟨inv, hinv, hunit⟩ | ⟨herr, x, hx, hzero⟩
  · have hright := fn_applyInvSlow hfn hunit
    have hsurj : Function.Surjective fn := fun y => ⟨applyInvSlow y inv, hright y⟩
    exact .inl ⟨inv, hinv, Finite.surjective_iff_bijective.mp hsurj, hright⟩
  · refine .inr ⟨herr, fun hbij => hx (hbij.injective ?_)⟩
    rw [hzero, hfn.map_zero]

/-- The tables of a linear bijection hold its inverse. -/
theorem applyInv_invMatrix (hfn : Linear fn) (hinj : Function.Injective fn) :
    ∃ inv, invMatrix fn = .ok inv ∧ (∀ y, fn (applyInv y (invTable inv)) = y) ∧
      ∀ x, applyInv (fn x) (invTable inv) = x := by
  rcases invMatrix_cases hfn with ⟨inv, hinv, -, hright⟩ | ⟨-, hnot⟩
  · simp only [applyInv_invTable]
    exact ⟨inv, hinv, hright, fun x => hinj (hright (fn x))⟩
  · exact absurd (Finite.injective_iff_bijective.mp hinj) hnot

theorem linA_linear : Linear linA := by
  intro x y
  rw [linA_eq, linA_eq, linA_eq, rotateLeft_xor, rotateLeft_xor]
  ac_rfl

theorem linB_linear : Linear linB := by
  intro x y
  rw [linB_eq, linB_eq, linB_eq, rotateLeft_xor, rotateLeft_xor]
  ac_rfl

end Inverse

/-- Elimination fails exactly on the linear functions without an inverse, and the tables of any
other hold the only preimage of every word. -/
theorem invMatrix_inverts {fn : Word → Word} (hfn : Linear fn) :
    ((∃ e, invMatrix fn = .error e) ↔ ¬ Function.Bijective fn) ∧
      ∀ inv, invMatrix fn = .ok inv → ∀ y,
        applyInv y (invTable inv) = applyInvSlow y inv ∧ ∀ x, fn x = y ↔ x = applyInvSlow y inv := by
  rcases invMatrix_cases hfn with ⟨inv, hinv, hbij, hright⟩ | ⟨herr, hnot⟩
  · constructor
    · rw [hinv]
      constructor
      · rintro ⟨e, he⟩
        cases he
      · intro hnot
        exact absurd hbij hnot
    · intro inv' hinv' y
      rw [hinv, Except.ok.injEq] at hinv'
      subst hinv'
      refine ⟨applyInv_invTable inv y, fun x => ?_⟩
      constructor
      · intro hx
        exact hbij.injective (by rw [hx, hright])
      · rintro rfl
        exact hright y
  · rw [herr]
    refine ⟨⟨fun _ => hnot, fun _ => ⟨_, rfl⟩⟩, fun inv hinv => ?_⟩
    cases hinv

/-- One of the two linear layers. -/
theorem invMatrix_inverts_linA :
    ((∃ e, invMatrix linA = .error e) ↔ ¬ Function.Bijective linA) ∧
      ∀ inv, invMatrix linA = .ok inv → ∀ y,
        applyInv y (invTable inv) = applyInvSlow y inv ∧ ∀ x, linA x = y ↔ x = applyInvSlow y inv :=
  invMatrix_inverts linA_linear

/-- `invert` and `sneik_f512` with the same domain and rounds undo each other. -/
theorem invert_sneikF512 (state : List Byte) (dom : Byte) (rounds : ℕ) (hstate : state.length = 64)
    (_hrounds : rounds ≤ 16) :
    invert (sneikF512 state dom rounds) dom rounds = .ok state ∧
      (invert state dom rounds).map (sneikF512 · dom rounds) = .ok state := by
  obtain ⟨invA, hA, hA₁, hA₂⟩ := applyInv_invMatrix linA_linear
    (Function.LeftInverse.injective fun x => (unlin_linA x).1)
  obtain ⟨invB, hB, hB₁, hB₂⟩ := applyInv_invMatrix linB_linear
    (Function.LeftInverse.injective fun x => (unlin_linB x).1)
  obtain ⟨unA, hunA⟩ : ∃ unA : Word → Word, unA = (applyInv · (invTable invA)) := ⟨_, rfl⟩
  obtain ⟨unB, hunB⟩ : ∃ unB : Word → Word, unB = (applyInv · (invTable invB)) := ⟨_, rfl⟩
  have hinvert : ∀ s, invert s dom rounds = .ok (invertWith unA unB s dom rounds) := by
    intro s
    rw [invert, hA, hB, hunA, hunB]
    rfl
  have hA' : (∀ y, linA (unA y) = y) ∧ ∀ x, unA (linA x) = x := hunA ▸ ⟨hA₁, hA₂⟩
  have hB' : (∀ y, linB (unB y) = y) ∧ ∀ x, unB (linB x) = x := hunB ▸ ⟨hB₁, hB₂⟩
  refine ⟨?_, ?_⟩
  · rw [hinvert, invertWith_sneikF512 hA'.2 hB'.2 hstate]
  · rw [hinvert, Except.map, sneikF512_invertWith hA'.1 hB'.1 hstate]

/-- The eight rounds of the tests on the zero state. -/
theorem invert_sneikF512_zeros :
    invert (sneikF512 (List.replicate 64 0) 0 8) 0 8 = .ok (List.replicate 64 0) ∧
      (invert (List.replicate 64 0) 0 8).map (sneikF512 · 0 8) = .ok (List.replicate 64 0) :=
  invert_sneikF512 _ 0 8 List.length_replicate (by decide)

end PqPsi.Permutation.Sneik
