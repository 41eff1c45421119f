import PqPsi.Lib.LinearSystem
import PqPsi.Okvs.Bits
import Mathlib.Data.List.GetD

/-!
# Band rows as equations over GF(2)

A band denotes a vector of length `columns` over `ZMod 2`, a row of blocks the
matrix of its bits, and XOR is addition. A table of rows then reads a band by
`Lib.LinearSystem.read`, which is what both the back fill and the decoder
compute column by column.
-/
namespace PqPsi.Okvs
open Lib.LinearSystem

/-- A bit as an element of GF(2). -/
def bitVal (b : Bool) : ZMod 2 := if b then 1 else 0

@[simp] theorem bitVal_false : bitVal false = 0 := rfl
@[simp] theorem bitVal_true : bitVal true = 1 := rfl

theorem bitVal_xor (a b : Bool) : bitVal (xor a b) = bitVal a + bitVal b := by
  cases a <;> cases b <;> decide

theorem bitVal_injective : Function.Injective bitVal := by
  intro a b h
  cases a <;> cases b <;> simp_all [bitVal]

/-- The bits of a row of blocks: block index, then bit index. -/
abbrev Value := ℕ → ℕ → ZMod 2

def valVec (xs : List Block) : Value := fun k i => bitVal ((xs.getD k 0).getLsbD i)

@[simp] theorem length_xorRow (a b : List Block) :
    (xorRow a b).length = min a.length b.length := by
  simp [xorRow]

theorem valVec_xorRow {a b : List Block} (h : a.length = b.length) :
    valVec (xorRow a b) = valVec a + valVec b := by
  funext k i
  simp only [valVec, Pi.add_apply, ← bitVal_xor]
  congr 1
  by_cases hk : k < a.length
  · have hb : k < b.length := h ▸ hk
    rw [List.getD_eq_getElem _ _ hk, List.getD_eq_getElem _ _ hb,
      List.getD_eq_getElem _ _ (by simp; omega)]
    simp [xorRow]
  · have hx : (xorRow a b).length ≤ k := by
      rw [length_xorRow]
      omega
    rw [List.getD_eq_default _ _ hx, List.getD_eq_default a _ (by omega),
      List.getD_eq_default b _ (by omega)]
    simp

theorem valVec_inj {a b : List Block} (hlen : a.length = b.length) (h : valVec a = valVec b) :
    a = b := by
  apply List.ext_getElem hlen
  intro k ha hb
  apply BitVec.eq_of_getLsbD_eq
  intro i _
  have hki := bitVal_injective (congrFun (congrFun h k) i)
  rwa [List.getD_eq_getElem _ _ ha, List.getD_eq_getElem _ _ hb] at hki

@[simp] theorem valVec_nil : valVec [] = 0 := by
  funext k i
  simp [valVec]

@[simp] theorem valVec_replicate_zero (n : ℕ) : valVec (List.replicate n (0 : Block)) = 0 := by
  funext k i
  by_cases hk : k < n
  · simp [valVec, hk]
  · simp [valVec, hk]

/-- A band as a vector of length `columns`. -/
def bandVec (columns start : ℕ) (bits : RBBits) : Fin columns → ZMod 2 :=
  fun c => if start ≤ c.val then bitVal (rbBit bits (c.val - start)) else 0

theorem bandVec_of_lt {columns start : ℕ} {bits : RBBits} {c : Fin columns} (h : c.val < start) :
    bandVec columns start bits c = 0 := if_neg (by omega)

theorem bandVec_of_le {columns start : ℕ} {bits : RBBits} {c : Fin columns} (h : start ≤ c.val) :
    bandVec columns start bits c = bitVal (rbBit bits (c.val - start)) := if_pos h

theorem bandVec_of_ge {columns start bandWidth : ℕ} {bits : RBBits} (ht : Trimmed bandWidth bits)
    {c : Fin columns} (h : start + bandWidth ≤ c.val) : bandVec columns start bits c = 0 := by
  rw [bandVec_of_le (by omega), ht _ (by omega), bitVal_false]

/-- A table of rows, column by column. -/
def tableVec (columns : ℕ) (table : List (List Block)) : Fin columns → Value :=
  fun c => valVec (table.getD c.val [])

/-- A sum over the columns that only a band contributes to. -/
theorem sum_columns_eq_sum_band {V : Type*} [AddCommMonoid V] {columns start bandWidth : ℕ}
    (hfit : start + bandWidth ≤ columns) (g : ℕ → V) (hlo : ∀ c < start, g c = 0)
    (hhi : ∀ c, start + bandWidth ≤ c → g c = 0) :
    ∑ c : Fin columns, g c.val = ∑ j ∈ Finset.range bandWidth, g (start + j) := by
  have hI : ∑ j ∈ Finset.range bandWidth, g (start + j) =
      ∑ c ∈ Finset.Ico start (start + bandWidth), g c := by
    rw [Finset.sum_Ico_eq_sum_range, Nat.add_sub_cancel_left]
  rw [hI, ← Finset.sum_range]
  symm
  apply Finset.sum_subset
  · intro c hc
    rw [Finset.mem_Ico] at hc
    rw [Finset.mem_range]
    omega
  · intro c _ hc
    rw [Finset.mem_Ico, not_and_or, not_le, not_lt] at hc
    rcases hc with hc | hc
    · exact hlo c hc
    · exact hhi c hc

/-- What a band reads from a table, as a sum over the positions of the band. -/
theorem read_bandVec {columns start bandWidth : ℕ} {bits : RBBits} (ht : Trimmed bandWidth bits)
    (hfit : start + bandWidth ≤ columns) (table : List (List Block)) :
    read (tableVec columns table) (bandVec columns start bits) =
      ∑ j ∈ Finset.range bandWidth, bitVal (rbBit bits j) • valVec (table.getD (start + j) []) := by
  rw [read_def]
  have hg := sum_columns_eq_sum_band hfit
    (fun c => (if start ≤ c then bitVal (rbBit bits (c - start)) else 0) •
      valVec (table.getD c []))
    (fun c hc => by simp [not_le.mpr hc])
    (fun c hc => by rw [if_pos (by omega), ht _ (by omega), bitVal_false, zero_smul])
  refine hg.trans (Finset.sum_congr rfl fun j _ => ?_)
  rw [if_pos (by omega), Nat.add_sub_cancel_left]

/-- A row the encoder can use: its mask stays in the band, the band in the table,
and its right-hand side has the common width. -/
structure RowOk (columns bandWidth rowSize : ℕ) (row : RBRow) : Prop where
  trimmed : Trimmed bandWidth row.bits
  fits : row.start + bandWidth ≤ columns
  width : row.rhs.length = rowSize

/-- The left-hand side of a row. -/
def rowVec (columns : ℕ) (row : RBRow) : Fin columns → ZMod 2 :=
  bandVec columns row.start row.bits

/-- The table meets the equation of the row. -/
def Meets (columns : ℕ) (T : Fin columns → Value) (row : RBRow) : Prop :=
  read T (rowVec columns row) = valVec row.rhs

/-- A reduced row as an equation solved for its pivot. -/
def rowEquation (columns : ℕ) [NeZero columns] (e : RBRow × ℕ) :
    Equation (ZMod 2) (Fin columns) Value where
  row := rowVec columns e.1
  pivot := Fin.ofNat columns e.2
  value := valVec e.1.rhs

end PqPsi.Okvs
