import Mathlib.Analysis.SpecificLimits.Basic
import Mathlib.Data.Fintype.BigOperators
import Mathlib.Data.Stream.Init
import Mathlib.Tactic

/-!
# Rejection sampling

A loop takes trials from a stream until one of them is accepted. When the
accepted trials are spread evenly over their values, so are the results: all
sequences of trials that end the loop are split evenly among the values.
Dividing by a bound spreads the numbers from the remainder on evenly.
-/
namespace PqPsi.Lib.Rejection
open Stream'

section Search
variable {α : Type} {p : α → Prop} {trials rest : Stream' α} {x : α} {k fuel : ℕ}

/-- The first accepted trial stands at place `k`. -/
structure FirstAccepted (p : α → Prop) (trials : Stream' α) (k : ℕ) : Prop where
  rejected : ∀ i < k, ¬ p (trials.get i)
  accepted : p (trials.get k)

theorem firstAccepted_zero : FirstAccepted p trials 0 ↔ p trials.head :=
  ⟨fun h => h.accepted, fun h => ⟨fun _ hi => absurd hi (Nat.not_lt_zero _), h⟩⟩

theorem firstAccepted_succ :
    FirstAccepted p trials (k + 1) ↔ ¬ p trials.head ∧ FirstAccepted p trials.tail k := by
  constructor
  · intro h
    exact ⟨h.rejected 0 (Nat.succ_pos k), fun i hi => h.rejected (i + 1) (by omega), h.accepted⟩
  · rintro ⟨hhead, htail⟩
    refine ⟨fun i hi => ?_, htail.accepted⟩
    cases i with
    | zero => exact hhead
    | succ i => exact htail.rejected i (by omega)

/-- A stream with an accepted trial has a first one. -/
theorem exists_firstAccepted (h : p (trials.get k)) : ∃ k, FirstAccepted p trials k := by
  classical
  have hex : ∃ k, p (trials.get k) := ⟨k, h⟩
  exact ⟨Nat.find hex, fun i hi => Nat.find_min hex hi, Nat.find_spec hex⟩

variable [DecidablePred p]

/-- The loop: the accepted trial and the stream behind it. -/
def search (p : α → Prop) [DecidablePred p] : ℕ → Stream' α → Option (α × Stream' α)
  | 0, _ => none
  | fuel + 1, trials =>
    if p trials.head then some (trials.head, trials.tail) else search p fuel trials.tail

/-- The loop ends with the first accepted trial, as soon as it has the rounds to reach it. -/
theorem search_eq_some :
    search p fuel trials = some (x, rest) ↔
      ∃ k < fuel, FirstAccepted p trials k ∧ trials.get k = x ∧ trials.drop (k + 1) = rest := by
  induction fuel generalizing trials with
  | zero => simp [search]
  | succ fuel ih =>
    rw [search]
    split_ifs with hhead
    · constructor
      · intro h
        obtain ⟨rfl, rfl⟩ := Prod.mk.inj (Option.some.inj h)
        exact ⟨0, Nat.succ_pos fuel, firstAccepted_zero.mpr hhead, rfl, rfl⟩
      · rintro ⟨k, -, hk, rfl, rfl⟩
        cases k with
        | zero => rfl
        | succ k => exact absurd hhead (firstAccepted_succ.mp hk).1
    · rw [ih]
      constructor
      · rintro ⟨k, hk, hfirst, hx, hrest⟩
        exact ⟨k + 1, by omega, firstAccepted_succ.mpr ⟨hhead, hfirst⟩, hx, hrest⟩
      · rintro ⟨k, hk, hfirst, hx, hrest⟩
        cases k with
        | zero => exact absurd (firstAccepted_zero.mp hfirst) hhead
        | succ k => exact ⟨k, by omega, (firstAccepted_succ.mp hfirst).2, hx, hrest⟩

end Search

section Hits
variable {α β : Type} [Fintype α] [DecidableEq β] {p : α → Prop} [DecidablePred p] {val : α → β}
  {rest : Stream' α} {r : β}

/-- The sequences of trials on which the loop takes a trial of value `r`. -/
def hits (p : α → Prop) [DecidablePred p] (val : α → β) (rest : Stream' α) (r : β) (fuel : ℕ) :
    Finset (Fin fuel → α) :=
  Finset.univ.filter fun ws =>
    (search p fuel (List.ofFn ws ++ₛ rest)).map (fun out => val out.1) = some r

/-- The accepted trials of value `r`. -/
def fiber (p : α → Prop) [DecidablePred p] (val : α → β) (r : β) : Finset α :=
  Finset.univ.filter fun x => p x ∧ val x = r

/-- The rejected trials. -/
def rejections (p : α → Prop) [DecidablePred p] : Finset α := Finset.univ.filter fun x => ¬ p x

theorem mem_fiber {x : α} : x ∈ fiber p val r ↔ p x ∧ val x = r := by simp [fiber]

theorem mem_rejections {x : α} : x ∈ rejections p ↔ ¬ p x := by simp [rejections]

/-- The first trial decides, or it is rejected and the others do. -/
theorem cons_mem_hits {fuel : ℕ} (x : α) (ws : Fin fuel → α) :
    (Fin.cons x ws : Fin (fuel + 1) → α) ∈ hits p val rest r (fuel + 1) ↔
      x ∈ fiber p val r ∨ (x ∈ rejections p ∧ ws ∈ hits p val rest r fuel) := by
  have hstep : search p (fuel + 1) (List.ofFn (Fin.cons x ws : Fin (fuel + 1) → α) ++ₛ rest) =
      if p x then some (x, List.ofFn ws ++ₛ rest) else search p fuel (List.ofFn ws ++ₛ rest) := by
    rw [List.ofFn_cons]
    rfl
  simp only [mem_fiber, mem_rejections, hits, Finset.mem_filter, Finset.mem_univ, true_and, hstep]
  by_cases hx : p x
  · simp [hx]
  · simp [hx]

theorem card_hits_succ (fuel : ℕ) :
    (hits p val rest r (fuel + 1)).card =
      (fiber p val r).card * Fintype.card α ^ fuel +
        (rejections p).card * (hits p val rest r fuel).card := by
  classical
  have hsplit : (hits p val rest r (fuel + 1)).map
      (Fin.consEquiv fun _ : Fin (fuel + 1) => α).symm.toEmbedding =
      fiber p val r ×ˢ Finset.univ ∪ rejections p ×ˢ hits p val rest r fuel := by
    ext ⟨x, ws⟩
    simp only [Finset.mem_map_equiv, Equiv.symm_symm, Finset.mem_union, Finset.mem_product,
      Finset.mem_univ, and_true]
    exact cons_mem_hits x ws
  have hdisj : Disjoint (fiber p val r ×ˢ (Finset.univ : Finset (Fin fuel → α)))
      (rejections p ×ˢ hits p val rest r fuel) := by
    apply Finset.disjoint_product.mpr
    left
    rw [Finset.disjoint_left]
    intro x hx hx'
    exact mem_rejections.mp hx' (mem_fiber.mp hx).1
  rw [← Finset.card_map, hsplit, Finset.card_union_of_disjoint hdisj, Finset.card_product,
    Finset.card_product, Finset.card_univ, Fintype.card_pi_const]

variable {m b : ℕ}

/-- All sequences of trials but the rejected ones are split into `b` parts of one size. -/
theorem mul_card_hits (rest : Stream' α) (hfiber : (fiber p val r).card = m)
    (hcard : m * b + (rejections p).card = Fintype.card α) (fuel : ℕ) :
    b * (hits p val rest r fuel).card + (rejections p).card ^ fuel = Fintype.card α ^ fuel := by
  induction fuel with
  | zero => simp [hits, search]
  | succ fuel ih =>
    rw [card_hits_succ, hfiber, pow_succ, pow_succ]
    calc b * (m * Fintype.card α ^ fuel + (rejections p).card * (hits p val rest r fuel).card) +
          (rejections p).card ^ fuel * (rejections p).card
        = m * b * Fintype.card α ^ fuel + (rejections p).card *
          (b * (hits p val rest r fuel).card + (rejections p).card ^ fuel) := by ring
      _ = (m * b + (rejections p).card) * Fintype.card α ^ fuel := by rw [ih, add_mul]
      _ = Fintype.card α ^ fuel * Fintype.card α := by rw [hcard, mul_comm]

/-- With more and more rounds the loop takes each of the `b` values in the same share. -/
theorem tendsto_card_hits (rest : Stream' α) (hm : 0 < m) (hb : 0 < b)
    (hfiber : (fiber p val r).card = m)
    (hcard : m * b + (rejections p).card = Fintype.card α) :
    Filter.Tendsto
      (fun fuel => ((hits p val rest r fuel).card : ℝ) / (Fintype.card α : ℝ) ^ fuel)
      Filter.atTop (nhds (1 / b)) := by
  have hmb : 0 < m * b := Nat.mul_pos hm hb
  have hN : (0 : ℝ) < Fintype.card α := by exact_mod_cast (by omega : 0 < Fintype.card α)
  have hb' : (0 : ℝ) < b := by exact_mod_cast hb
  have hshare : ∀ fuel, ((hits p val rest r fuel).card : ℝ) / (Fintype.card α : ℝ) ^ fuel =
      (1 - ((rejections p).card / (Fintype.card α : ℝ)) ^ fuel) / b := by
    intro fuel
    have hsum : (b : ℝ) * (hits p val rest r fuel).card + ((rejections p).card : ℝ) ^ fuel =
        (Fintype.card α : ℝ) ^ fuel := by
      exact_mod_cast mul_card_hits rest hfiber hcard fuel
    rw [div_pow, ← hsum, one_sub_div (by rw [hsum]; positivity)]
    field_simp
    ring
  have hless : ((rejections p).card : ℝ) / Fintype.card α < 1 := by
    rw [div_lt_one hN]
    exact_mod_cast (by omega : (rejections p).card < Fintype.card α)
  have hpow := tendsto_pow_atTop_nhds_zero_of_lt_one (by positivity) hless
  simp only [hshare]
  simpa using (hpow.const_sub 1).div_const (b : ℝ)

end Hits

section Residues
variable {n b r : ℕ}

/-- Every run of `q` periods holds each residue `q` times. -/
theorem card_residue_periods (hr : r < b) (start q : ℕ) :
    ((Finset.Ico start (start + q * b)).filter (· % b = r)).card = q := by
  have hone : b.count (· % b = r) = 1 := by
    have hsingle : (Finset.range b).filter (· % b = r) = {r} := by
      ext x
      simp only [Finset.mem_filter, Finset.mem_range, Finset.mem_singleton]
      constructor
      · rintro ⟨hx, hmod⟩
        rwa [Nat.mod_eq_of_lt hx] at hmod
      · rintro rfl
        exact ⟨hr, Nat.mod_eq_of_lt hr⟩
    rw [Nat.count_eq_card_filter_range, hsingle, Finset.card_singleton]
  induction q with
  | zero => simp
  | succ q ih =>
    have hend : start + (q + 1) * b = start + q * b + b := by ring
    have hperiodic : Function.Periodic (fun x => x % b = r) b := (Nat.periodic_mod b).comp (· = r)
    rw [hend, ← Finset.Ico_union_Ico_eq_Ico (Nat.le_add_right start (q * b)) (Nat.le_add_right _ b),
      Finset.filter_union, Finset.card_union_of_disjoint, ih,
      Nat.filter_Ico_card_eq_of_periodic _ _ _ hperiodic, hone]
    exact Finset.disjoint_filter_filter (Finset.Ico_disjoint_Ico_consecutive _ _ _)

/-- From the remainder on, the numbers below `n` hold each residue equally often. -/
theorem card_residue (hr : r < b) :
    ((Finset.Ico (n % b) n).filter (· % b = r)).card = n / b := by
  have hn : n % b + n / b * b = n := by rw [mul_comm, Nat.mod_add_div]
  have hperiods := card_residue_periods hr (n % b) (n / b)
  rwa [hn] at hperiods

/-- The remainder takes less than half of the numbers. -/
theorem two_mul_mod_lt (hb : 0 < b) (hle : b ≤ n) : 2 * (n % b) < n := by
  have hlt := Nat.mod_lt n hb
  have hone : 1 ≤ n / b := (Nat.one_le_div_iff hb).mpr hle
  have hdiv := Nat.mod_add_div n b
  have hmul : b * 1 ≤ b * (n / b) := Nat.mul_le_mul_left b hone
  omega

end Residues

end PqPsi.Lib.Rejection
