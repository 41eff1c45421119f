import Mathlib.LinearAlgebra.Dimension.OrzechProperty
import Mathlib.LinearAlgebra.FiniteDimensional.Lemmas
import Mathlib.LinearAlgebra.LinearIndependent.Lemmas
import Mathlib.Tactic

/-!
# Leading columns of a row space and the solutions they carry

A row is a vector `ι → K` over an ordered set of columns, a table assigns a
value in a `K`-module to each column, and a row reads a table by
`Fintype.linearCombination`. The leading columns of a row space do not depend
on the rows that span it. A table that is zero outside them is determined by
what the rows read, and back substitution over an echelon list reaches every
right-hand side.
-/
namespace PqPsi.Lib.LinearSystem

variable {K ι V : Type*} [Field K]

section Rows

/-- The space spanned by the members of a list of rows. -/
def rowSpan (l : List (ι → K)) : Submodule K (ι → K) := Submodule.span K {w | w ∈ l}

theorem rowSpan_cons (w : ι → K) (l : List (ι → K)) :
    rowSpan (w :: l) = Submodule.span K {w} ⊔ rowSpan l := by
  rw [rowSpan, rowSpan, ← Submodule.span_union]
  congr 1
  ext v
  simp

theorem rowSpan_perm {l l' : List (ι → K)} (h : l.Perm l') : rowSpan l = rowSpan l' := by
  rw [rowSpan, rowSpan]
  congr 1
  ext v
  exact h.mem_iff

theorem mem_rowSpan {l : List (ι → K)} {w : ι → K} (h : w ∈ l) : w ∈ rowSpan l :=
  Submodule.subset_span h

/-- Every vector of the span vanishes where all its rows vanish. -/
theorem apply_eq_zero_of_mem_rowSpan {l : List (ι → K)} {c : ι} (h : ∀ w ∈ l, w c = 0)
    {v : ι → K} (hv : v ∈ rowSpan l) : v c = 0 := by
  have hle : rowSpan l ≤ LinearMap.ker (LinearMap.proj c : (ι → K) →ₗ[K] K) :=
    Submodule.span_le.mpr fun w hw => h w hw
  exact hle hv

/-- Adding multiples of one row to the others keeps the span. -/
theorem rowSpan_cons_congr {w : ι → K} {l l' : List (ι → K)}
    (h : List.Forall₂ (fun v v' => ∃ a : K, v' = v + a • w) l l') :
    rowSpan (w :: l) = rowSpan (w :: l') := by
  induction h with
  | nil => rfl
  | @cons v v' l l' hv _ ih =>
    obtain ⟨a, rfl⟩ := hv
    have hw : w ∈ rowSpan (w :: l) := mem_rowSpan (by simp)
    have hswap (u : ι → K) (l : List (ι → K)) :
        rowSpan (w :: u :: l) = Submodule.span K {u} ⊔ rowSpan (w :: l) := by
      rw [← rowSpan_cons]
      exact rowSpan_perm (List.Perm.swap _ _ _)
    rw [hswap, hswap, ← ih]
    apply le_antisymm
    · refine sup_le (Submodule.span_le.mpr ?_) le_sup_right
      rw [Set.singleton_subset_iff, SetLike.mem_coe]
      have hd : (v + a • w) - a • w ∈ Submodule.span K {v + a • w} ⊔ rowSpan (w :: l) :=
        Submodule.sub_mem _ (Submodule.mem_sup_left (Submodule.mem_span_singleton_self _))
          (Submodule.mem_sup_right (Submodule.smul_mem _ _ hw))
      rwa [add_sub_cancel_right] at hd
    · refine sup_le (Submodule.span_le.mpr ?_) le_sup_right
      rw [Set.singleton_subset_iff, SetLike.mem_coe]
      exact Submodule.add_mem _ (Submodule.mem_sup_left (Submodule.mem_span_singleton_self _))
        (Submodule.mem_sup_right (Submodule.smul_mem _ _ hw))

/-- The rows, counted with repetition, are linearly independent. -/
def Independent (l : List (ι → K)) : Prop := LinearIndependent K fun i : Fin l.length => l.get i

theorem independent_iff_finrank (l : List (ι → K)) :
    Independent l ↔ l.length = Module.finrank K (rowSpan l) := by
  have hr : Set.range (fun i : Fin l.length => l.get i) = {w | w ∈ l} := by
    ext w
    simp [List.mem_iff_get]
  rw [Independent, linearIndependent_iff_card_eq_finrank_span, Fintype.card_fin, hr,
    Set.finrank, rowSpan]

theorem independent_perm {l l' : List (ι → K)} (h : l.Perm l') :
    Independent l ↔ Independent l' := by
  rw [independent_iff_finrank, independent_iff_finrank, h.length_eq, rowSpan_perm h]

/-- Row operations keep the span and the number of rows, hence independence. -/
theorem independent_congr {l l' : List (ι → K)} (hlen : l.length = l'.length)
    (hspan : rowSpan l = rowSpan l') : Independent l ↔ Independent l' := by
  rw [independent_iff_finrank, independent_iff_finrank, hlen, hspan]

theorem not_independent_zero_cons (l : List (ι → K)) : ¬ Independent ((0 : ι → K) :: l) := by
  intro h
  exact h.ne_zero (⟨0, by simp⟩ : Fin _) rfl

theorem independent_cons {w : ι → K} {l : List (ι → K)} :
    Independent (w :: l) ↔ w ∉ rowSpan l ∧ Independent l := by
  have hr : Set.range (fun i : Fin l.length => l.get i) = {v | v ∈ l} := by
    ext v
    simp [List.mem_iff_get]
  have hf : (fun i : Fin (w :: l).length => (w :: l).get i) =
      (Fin.cons w fun i : Fin l.length => l.get i : Fin (l.length + 1) → ι → K) := by
    funext i
    refine Fin.cases ?_ (fun i => ?_) i
    · rfl
    · rfl
  rw [Independent, hf, linearIndependent_finCons, hr, and_comm]
  rfl

theorem independent_map {α : Type*} (l : List α) (f : α → ι → K) :
    Independent (l.map f) ↔ LinearIndependent K fun i : Fin l.length => f (l.get i) := by
  rw [Independent, ← linearIndependent_equiv (finCongr (List.length_map f)).symm]
  have hrows : (fun i => (l.map f).get i) ∘ (finCongr (List.length_map f)).symm =
      fun i : Fin l.length => f (l.get i) := by
    funext i
    simp
  rw [hrows]

/-- A repeated row is a linear dependence. -/
theorem not_independent_of_duplicate {l : List (ι → K)} (h : ¬ l.Nodup) : ¬ Independent l := by
  intro hi
  exact h (List.nodup_iff_injective_get.mpr hi.injective)

end Rows

section Read
variable [Fintype ι] [AddCommGroup V] [Module K V]

/-- What a row reads from a table. -/
def read (T : ι → V) (w : ι → K) : V := Fintype.linearCombination K T w

theorem read_def (T : ι → V) (w : ι → K) : read T w = ∑ c, w c • T c := by
  rw [read, Fintype.linearCombination_apply]

theorem read_add (T : ι → V) (w w' : ι → K) : read T (w + w') = read T w + read T w' :=
  map_add _ _ _

/-- Tables that read alike on the rows read alike on everything the rows span. -/
theorem read_eq_of_mem_rowSpan {T T' : ι → V} {l : List (ι → K)}
    (h : ∀ w ∈ l, read T w = read T' w) {v : ι → K} (hv : v ∈ rowSpan l) :
    read T v = read T' v := by
  have hle : rowSpan l ≤ LinearMap.eqLocus (Fintype.linearCombination K T)
      (Fintype.linearCombination K T') := Submodule.span_le.mpr fun w hw => h w hw
  exact hle hv

end Read

variable [LinearOrder ι]

/-- Column `c` is the first nonzero entry of the row. -/
def IsLead (w : ι → K) (c : ι) : Prop := w c ≠ 0 ∧ ∀ c' < c, w c' = 0

/-- The columns that lead some vector of the space. -/
def leads (W : Submodule K (ι → K)) : Set ι := {c | ∃ w ∈ W, IsLead w c}

/-- An equation: the coefficients, the column it is solved for and the value it must read. -/
structure Equation (K ι V : Type*) where
  row : ι → K
  pivot : ι
  value : V

/-- An echelon list: every equation leads at its pivot and no later row uses it. -/
inductive Echelon : List (Equation K ι V) → Prop
  | nil : Echelon []
  | cons {e : Equation K ι V} {l : List (Equation K ι V)} (lead : IsLead e.row e.pivot)
      (clear : ∀ e' ∈ l, e'.row e.pivot = 0) (rest : Echelon l) : Echelon (e :: l)

/-- The pivots of an echelon list are exactly the leading columns of its row space. -/
theorem Echelon.leads_eq {l : List (Equation K ι V)} (h : Echelon l) :
    leads (rowSpan (l.map Equation.row)) = {c | c ∈ l.map Equation.pivot} := by
  induction h with
  | nil =>
    ext c
    constructor
    · rintro ⟨w, hw, hl⟩
      exact absurd (apply_eq_zero_of_mem_rowSpan (by simp) hw) hl.1
    · intro h
      exact absurd h (List.not_mem_nil)
  | @cons e l lead clear rest ih =>
    ext c
    rw [List.map_cons, List.map_cons, Set.mem_ofPred_eq, List.mem_cons]
    constructor
    · rintro ⟨v, hv, hvc, hbefore⟩
      rw [rowSpan_cons, Submodule.mem_sup] at hv
      obtain ⟨u, hu, v', hv', rfl⟩ := hv
      obtain ⟨a, rfl⟩ := Submodule.mem_span_singleton.mp hu
      by_cases hc : c = e.pivot
      · exact .inl hc
      right
      have hclear : v' e.pivot = 0 := by
        refine apply_eq_zero_of_mem_rowSpan (fun w hw => ?_) hv'
        obtain ⟨e', he', rfl⟩ := List.mem_map.mp hw
        exact clear e' he'
      -- up to column `c` the vector agrees with its part in the later rows
      have hagree : ∀ k ≤ c, (a • e.row) k = 0 := by
        intro k hk
        rcases lt_or_gt_of_ne hc with hlt | hgt
        · simp [lead.2 k (lt_of_le_of_lt hk hlt)]
        · have hp := hbefore e.pivot hgt
          have ha : a = 0 := by
            simpa [hclear, lead.1] using hp
          simp [ha]
      have hmem : c ∈ leads (rowSpan (l.map Equation.row)) := by
        refine ⟨v', hv', ?_, ?_⟩
        · simpa [hagree c le_rfl] using hvc
        · intro k hk
          have hz := hbefore k hk
          rwa [Pi.add_apply, hagree k hk.le, zero_add] at hz
      rw [ih] at hmem
      exact hmem
    · rintro (rfl | hc)
      · exact ⟨e.row, mem_rowSpan (by simp), lead⟩
      · have hmem : c ∈ leads (rowSpan (l.map Equation.row)) := by
          rw [ih]
          exact hc
        obtain ⟨w, hw, hl⟩ := hmem
        refine ⟨w, ?_, hl⟩
        rw [rowSpan_cons]
        exact Submodule.mem_sup_right hw

theorem Echelon.independent {l : List (Equation K ι V)} (h : Echelon l) :
    Independent (l.map Equation.row) := by
  induction h with
  | nil =>
    have : IsEmpty (Fin (([] : List (Equation K ι V)).map Equation.row).length) := Fin.isEmpty
    exact linearIndependent_empty_type
  | @cons e l lead clear rest ih =>
    rw [List.map_cons, independent_cons]
    refine ⟨fun hmem => lead.1 (apply_eq_zero_of_mem_rowSpan (fun w hw => ?_) hmem), ih⟩
    obtain ⟨e', he', rfl⟩ := List.mem_map.mp hw
    exact clear e' he'

section Solutions
variable [Fintype ι] [AddCommGroup V] [Module K V]

/-- Two tables that read alike on the space and vanish outside its leading
columns are equal. -/
theorem eq_of_read_eq {W : Submodule K (ι → K)} {T T' : ι → V}
    (hT : ∀ c ∉ leads W, T c = 0) (hT' : ∀ c ∉ leads W, T' c = 0)
    (h : ∀ w ∈ W, read T w = read T' w) : T = T' := by
  classical
  by_contra hne
  obtain ⟨c₀, hc₀⟩ := Function.ne_iff.mp hne
  -- the last column on which the tables differ
  obtain ⟨c, hc, hmax⟩ := (Finset.univ.filter fun c => T c ≠ T' c).exists_max_image id
    ⟨c₀, by simpa using hc₀⟩
  have hcne : T c ≠ T' c := by simpa using hc
  have hafter : ∀ c' > c, T c' = T' c' := by
    intro c' hlt
    by_contra hd
    exact absurd (hmax c' (by simpa using hd)) (not_le.mpr hlt)
  have hlead : c ∈ leads W := by
    by_contra hn
    exact hcne ((hT c hn).trans (hT' c hn).symm)
  obtain ⟨w, hw, hwc, hbefore⟩ := hlead
  have hz : ∑ k, w k • (T k - T' k) = w c • (T c - T' c) := by
    refine Finset.sum_eq_single c (fun k _ hk => ?_) (by simp)
    rcases lt_or_gt_of_ne hk with hk | hk
    · rw [hbefore k hk, zero_smul]
    · rw [hafter k hk, sub_self, smul_zero]
  have hread : ∑ k, w k • (T k - T' k) = 0 := by
    simp only [smul_sub, Finset.sum_sub_distrib, ← read_def, h w hw, sub_self]
  rw [hz] at hread
  exact (smul_ne_zero hwc (sub_ne_zero.mpr hcne)) hread

/-- The table reads the required value on every equation. -/
def Solves (T : ι → V) (l : List (Equation K ι V)) : Prop := ∀ e ∈ l, read T e.row = e.value

/-- Solve one equation for its pivot, all other columns being settled. -/
def fill (e : Equation K ι V) (T : ι → V) : ι → V :=
  Function.update T e.pivot ((e.row e.pivot)⁻¹ •
    (e.value - ∑ c ∈ Finset.univ.erase e.pivot, e.row c • T c))

theorem read_fill {e : Equation K ι V} (h : e.row e.pivot ≠ 0) (T : ι → V) :
    read (fill e T) e.row = e.value := by
  rw [read_def, ← Finset.add_sum_erase _ _ (Finset.mem_univ e.pivot)]
  have hrest : ∑ c ∈ Finset.univ.erase e.pivot, e.row c • fill e T c =
      ∑ c ∈ Finset.univ.erase e.pivot, e.row c • T c := by
    refine Finset.sum_congr rfl fun c hc => ?_
    rw [fill, Function.update_of_ne (Finset.ne_of_mem_erase hc)]
  rw [hrest, fill, Function.update_self, smul_smul, mul_inv_cancel₀ h, one_smul, sub_add_cancel]

/-- A row that does not use the pivot reads the same value after the fill. -/
theorem read_fill_of_clear {e : Equation K ι V} {w : ι → K} (h : w e.pivot = 0) (T : ι → V) :
    read (fill e T) w = read T w := by
  rw [read_def, read_def]
  refine Finset.sum_congr rfl fun c _ => ?_
  by_cases hc : c = e.pivot
  · rw [hc, h, zero_smul, zero_smul]
  · rw [fill, Function.update_of_ne hc]

/-- Back substitution: the last equation is solved first, unused columns stay zero. -/
def backSubst (l : List (Equation K ι V)) : ι → V := l.foldr fill 0

theorem Echelon.backSubst_solves {l : List (Equation K ι V)} (h : Echelon l) :
    Solves (backSubst l) l := by
  induction h with
  | nil => simp [Solves]
  | @cons e l lead clear rest ih =>
    intro e' he'
    change read (fill e (backSubst l)) e'.row = e'.value
    rcases List.mem_cons.mp he' with rfl | he'
    · exact read_fill lead.1 _
    · rw [read_fill_of_clear (clear e' he')]
      exact ih e' he'

theorem backSubst_eq_zero {l : List (Equation K ι V)} {c : ι} (h : c ∉ l.map Equation.pivot) :
    backSubst l c = 0 := by
  induction l with
  | nil => rfl
  | cons e l ih =>
    rw [List.map_cons, List.mem_cons, not_or] at h
    change fill e (backSubst l) c = 0
    rw [fill, Function.update_of_ne h.1]
    exact ih h.2

theorem backSubst_supported {l : List (Equation K ι V)} (h : Echelon l) :
    ∀ c ∉ leads (rowSpan (l.map Equation.row)), backSubst l c = 0 := by
  intro c hc
  apply backSubst_eq_zero
  rw [h.leads_eq] at hc
  exact hc

end Solutions

end PqPsi.Lib.LinearSystem
