import Mathlib.Analysis.Complex.ExponentialBounds
import Mathlib.Analysis.SpecialFunctions.Log.Base
import Mathlib.Tactic.NormNum
import PqPsi.Okvs.Fit

/-!
# The automatic shape

With every parameter left at zero the columns and the band width come from two
separate rules. Over exact numbers the check at the end of the resolution
compares a logarithm with the slack that rounding up the columns leaves, and
it rejects small sets and all large ones.
-/
namespace PqPsi.Okvs
open Lib.Exceptions

section Reals

/-- Doubles read as exact numbers; the text has six decimals, as `std::to_string` writes them. -/
noncomputable instance : Double ℝ where
  ofNat n := n
  toNat x := ⌊x⌋₊
  le a b := decide (a ≤ b)
  lt a b := decide (a < b)
  abs x := |x|
  ceil x := ⌈x⌉
  round x := if x < 0 then ⌈x - 1 / 2⌉ else ⌊x + 1 / 2⌋
  log2 x := Real.logb 2 x
  text x :=
    let micro := ⌊|x| * 10 ^ 6 + 1 / 2⌋₊
    (if x < 0 then "-" else "") ++ toString (micro / 10 ^ 6) ++ "." ++
      (toString (10 ^ 6 + micro % 10 ^ 6)).drop 1

@[simp] theorem le_real (a b : ℝ) : Double.le a b = true ↔ a ≤ b := by
  simp [Double.le]

@[simp] theorem lt_real (a b : ℝ) : Double.lt a b = true ↔ a < b := by
  simp [Double.lt]

theorem toNat_ceil_real (x : ℝ) : Double.toNat (Double.ceil x) = ⌈x⌉₊ := by
  simp only [Double.toNat, Double.ceil]
  rw [← Int.floor_toNat, Int.floor_intCast, Int.ceil_toNat]

theorem ceil_le_one_real (x : ℝ) : Double.ceil x ≤ (1.0 : ℝ) ↔ ⌈x⌉₊ ≤ 1 := by
  have hone : (1.0 : ℝ) = ((1 : ℤ) : ℝ) := by norm_num
  simp only [Double.ceil]
  rw [hone, Int.cast_le, Int.ceil_le, Nat.ceil_le]
  norm_num

theorem round_real {x : ℝ} {k : ℕ} (hlo : k - 1 / 2 ≤ x) (hhi : x < k + 1 / 2) (hx : 0 ≤ x) :
    Double.round x = (k : ℝ) := by
  simp only [Double.round]
  rw [if_neg (not_lt.mpr hx)]
  have hfloor : ⌊x + 1 / 2⌋ = (k : ℤ) := by
    rw [Int.floor_eq_iff]
    constructor <;> push_cast <;> linarith
  rw [hfloor, Int.cast_natCast]

end Reals

section Correction

/-- The interpolation of a row of the grid in the logarithm. -/
noncomputable def rowAt (a b c d e x : ℝ) : ℝ :=
  if x ≤ 10 then a
  else if 20 ≤ x then d + (e - d) * ((x - 18) / 2)
  else if x ≤ 14 then a + (b - a) * ((x - 10) / 4)
  else if x ≤ 16 then b + (c - b) * ((x - 14) / 2)
  else if x ≤ 18 then c + (d - c) * ((x - 16) / 2)
  else d + (e - d) * ((x - 18) / 2)

theorem rbInterp_log (a b c d e x : ℝ) :
    rbInterp rbGLog [a, b, c, d, e] x = .ok (rowAt a b c d e x) := by
  norm_num [rbInterp, rbGLog, rbInterpScan, rbLerp, rowAt]
  split_ifs <;> first | rfl | linarith

theorem rowAt_first (a b c d e : ℝ) {x : ℝ} (hlo : 10 ≤ x) (hhi : x ≤ 14) :
    rowAt a b c d e x = a + (b - a) * ((x - 10) / 4) := by
  unfold rowAt
  by_cases hx : x ≤ 10
  · have hten : x = 10 := le_antisymm hx hlo
    rw [if_pos hx, hten]
    norm_num
  · rw [if_neg hx, if_neg (by linarith), if_pos hhi]

theorem rowAt_second (a b c d e : ℝ) {x : ℝ} (hlo : 14 < x) (hhi : x ≤ 16) :
    rowAt a b c d e x = b + (c - b) * ((x - 14) / 2) := by
  rw [rowAt, if_neg (by linarith), if_neg (by linarith), if_neg (by linarith), if_pos hhi]

theorem lerp_le {a b c u : ℝ} (ha : a ≤ c) (hb : b ≤ c) (hlo : 0 ≤ u) (hhi : u ≤ 1) :
    a + (b - a) * u ≤ c := by
  have hleft := mul_le_mul_of_nonneg_right ha (sub_nonneg.mpr hhi)
  have hright := mul_le_mul_of_nonneg_right hb hlo
  linarith

/-- A row that falls stays below its value at 16 from there on. -/
theorem rowAt_le (a b : ℝ) {c d e x : ℝ} (hdc : d ≤ c) (hed : e ≤ d) (hlo : 16 < x) :
    rowAt a b c d e x ≤ c := by
  have hlast : 18 ≤ x → d + (e - d) * ((x - 18) / 2) ≤ c := by
    intro hx
    have hmul := mul_nonneg (sub_nonneg.mpr hed) (show 0 ≤ (x - 18) / 2 by linarith)
    linarith
  rw [rowAt, if_neg (by linarith)]
  split_ifs with h20 h14 h16 h18
  · exact hlast (by linarith)
  · linarith
  · linarith
  · have hmul := mul_nonneg (sub_nonneg.mpr hdc) (show 0 ≤ (x - 16) / 2 by linarith)
    linarith
  · exact hlast (by linarith)

/-- Interpolation over the expansions of the grid, between its last two. -/
theorem rbInterp_eps (a b c d : ℝ) {x : ℝ} (hlo : 0.07 ≤ x) (hhi : x < 0.10) :
    rbInterp rbGEps [a, b, c, d] x = .ok (c + (d - c) * ((x - 0.07) / 0.03)) := by
  norm_num [rbInterp, rbGEps, rbInterpScan, rbLerp]
  norm_num at hlo hhi
  rw [if_neg (by linarith), if_neg (by linarith), if_neg (by linarith)]
  by_cases hle : x ≤ 7 / 100
  · have hx : x = 7 / 100 := le_antisymm hle hlo
    rw [if_pos hle, hx]
    norm_num
  · rw [if_neg hle, if_pos hhi.le]

/-- The logarithm that the paper fit looks up. -/
noncomputable def logN (n : ℕ) : ℝ := max 10 (Real.logb 2 (max n 1 : ℕ))

/-- The correction of the grid at 0.07 and at 0.10. -/
noncomputable def g07 (n : ℕ) : ℝ := rowAt (-5.3) (-8.3) (-10.3) (-12.1) (-14.0) (logN n)

noncomputable def g10 (n : ℕ) : ℝ := rowAt (-6.3) (-9.4) (-11.6) (-13.5) (-15.3) (logN n)

/-- The paper fit for an expansion between 0.07 and 0.10. -/
theorem rbGPaper_eq {n : ℕ} {eps : ℝ} (hlo : 0.07 ≤ eps) (hhi : eps < 0.10) :
    rbGPaper n eps = .ok (g07 n + (g10 n - g07 n) * ((eps - 0.07) / 0.03)) := by
  have hlog : (if Double.lt 10.0 (rbLog2 n : ℝ) = true then rbLog2 n else 10.0) = logN n := by
    simp only [lt_real, rbLog2, Double.log2, Double.ofNat, logN]
    norm_num
    split_ifs with hlt
    · exact (max_eq_right hlt.le).symm
    · exact (max_eq_left (not_lt.mp hlt)).symm
  have hrow := rbInterp_eps (rowAt (-3.4) (-6.1) (-7.5) (-9.0) (-10.7) (logN n))
    (rowAt (-4.3) (-7.5) (-9.2) (-10.8) (-12.9) (logN n)) (g07 n) (g10 n) hlo hhi
  have hlow : ¬ eps ≤ 0.03 := by
    norm_num at hlo ⊢
    linarith
  unfold rbGPaper
  simp only [hlog, rbGGrid, List.mapM_cons, List.mapM_nil, rbInterp_log, ok_bind, pure_eq_ok]
  rw [if_neg (by simpa [rbGEps] using hlow), if_neg (by simpa [rbGEps] using hhi)]
  exact hrow

theorem rbGOf_of_large {n : ℕ} {eps : ℝ} (hn : 1024 < n) : rbGOf n eps = rbGPaper n eps := by
  have hempty : (rbGEmpirical (F := ℝ)).filter (fun size => n ≤ size.1) = [] := by
    rw [List.filter_eq_nil_iff]
    simp only [rbGEmpirical, List.forall_mem_cons, decide_eq_true_eq]
    refine ⟨by omega, by omega, by omega, by omega, by simp⟩
  simp [rbGOf, hempty]

/-- The empirical corrections are looked up at the nearest percent. -/
theorem rbGOf_of_percent {n : ℕ} (k : ℕ) {eps g : ℝ} (hlo : (k - 1 / 2 : ℝ) / 100 ≤ eps)
    (hhi : eps < (k + 1 / 2 : ℝ) / 100) (heps : 0 ≤ eps)
    (hfind : (((rbGEmpirical.filter fun size => n ≤ size.1).flatMap Prod.snd).find?
      fun entry => rbApprox ((k : ℝ) / 100) entry.1).map Prod.snd = some g) :
    rbGOf n eps = .ok g := by
  have hround : Double.round (eps * 100.0) / 100.0 = (k : ℝ) / 100 := by
    rw [round_real (k := k) (by norm_num; linarith) (by norm_num; linarith) (by norm_num; exact heps)]
    norm_num
  obtain ⟨entry, hentry, rfl⟩ := Option.map_eq_some_iff.mp hfind
  simp only [rbGOf, hround, hentry]

theorem rbGOf_tiny {n : ℕ} (eps : ℝ) (hn : n ≤ 128) (hlo : 0.12 ≤ eps) (hhi : eps < 0.145) :
    ∃ g, rbGOf n eps = .ok g ∧ 19.97 ≤ g := by
  norm_num at hlo hhi
  rcases lt_or_ge eps (125 / 1000) with h12 | h12
  · refine ⟨21.51, rbGOf_of_percent 12 ?_ ?_ ?_ ?_, by norm_num⟩
    · linarith
    · norm_num
      linarith
    · linarith
    · norm_num [rbGEmpirical, hn, rbApprox, Double.abs]
  · rcases lt_or_ge eps (135 / 1000) with h13 | h13
    · refine ⟨19.97, rbGOf_of_percent 13 ?_ ?_ ?_ ?_, le_rfl⟩
      · norm_num
        linarith
      · norm_num
        linarith
      · linarith
      · norm_num [rbGEmpirical, hn, rbApprox, Double.abs]
    · refine ⟨21.51, rbGOf_of_percent 14 ?_ ?_ ?_ ?_, by norm_num⟩
      · norm_num
        linarith
      · norm_num
        linarith
      · linarith
      · norm_num [rbGEmpirical, hn, rbApprox, Double.abs]

theorem rbGOf_small {n : ℕ} {eps : ℝ} (hlow : 128 < n) (hn : n ≤ 1024) (hlo : 0.07 ≤ eps)
    (hhi : eps < 0.075 ∨ (n ≤ 256 ∧ eps < 0.085)) : ∃ g, rbGOf n eps = .ok g ∧ 23.82 ≤ g := by
  norm_num at hlo hhi
  by_cases h7 : eps < 75 / 1000
  · have hseven : ∀ g : ℝ, _ → rbGOf n eps = .ok g := fun g hfind =>
      rbGOf_of_percent 7 (by norm_num; linarith) (by norm_num; linarith) (by linarith) hfind
    by_cases h256 : n ≤ 256
    · refine ⟨25.36, hseven _ ?_, by norm_num⟩
      norm_num [rbGEmpirical, hlow.not_ge, h256, rbApprox, Double.abs]
    · by_cases h512 : n ≤ 512
      · refine ⟨24.59, hseven _ ?_, by norm_num⟩
        norm_num [rbGEmpirical, hlow.not_ge, h256, h512, rbApprox, Double.abs]
      · refine ⟨23.82, hseven _ ?_, le_rfl⟩
        norm_num [rbGEmpirical, hlow.not_ge, h256, h512, hn, rbApprox, Double.abs]
  · rcases hhi with hno | ⟨h256, h8⟩
    · exact absurd (by linarith) h7
    · refine ⟨27.68, rbGOf_of_percent 8 ?_ ?_ ?_ ?_, by norm_num⟩
      · norm_num
        linarith
      · norm_num
        linarith
      · linarith
      · norm_num [rbGEmpirical, hlow.not_ge, h256, rbApprox, Double.abs]

end Correction

section Shape

/-- Columns at an expansion of `k` percent; `c` hundredths of a column round it up. -/
theorem rbCeilCols_eq {n m k c : ℕ} {eps : ℝ} (heps : eps = k / 100)
    (hm : 100 * m = (100 + k) * n + c) (hc : c < 100) : rbCeilCols n eps = m := by
  have hm' : (100 * m : ℝ) = (100 + k) * n + c := by exact_mod_cast hm
  have hc' : (c : ℝ) < 100 := by exact_mod_cast hc
  have hceil : ⌈(1 + eps) * n⌉₊ = m := by
    rcases Nat.eq_zero_or_pos m with rfl | hpos
    · have hn : n = 0 := by nlinarith
      simp [hn]
    · rw [Nat.ceil_eq_iff hpos.ne', Nat.cast_sub hpos, heps]
      push_cast
      constructor <;> nlinarith
  have hle : n ≤ m := by nlinarith
  rw [rbCeilCols, toNat_ceil_real]
  norm_num [Double.ofNat, hceil, hle]

theorem rbEpsOf_eq {n m k c : ℕ} (hn : 0 < n) (hm : 100 * m = (100 + k) * n + c) :
    (rbEpsOf n m : ℝ) = k / 100 + c / (100 * n) := by
  have hm' : (100 * m : ℝ) = (100 + k) * n + c := by exact_mod_cast hm
  have hn' : (0 : ℝ) < n := by exact_mod_cast hn
  have hle : n ≤ m := by nlinarith
  simp only [rbEpsOf, Double.ofNat]
  rw [max_eq_left (show 1 ≤ n by omega), max_eq_left hle]
  norm_num
  field_simp
  linarith

/-- The width that a correction asks for, before rounding. -/
noncomputable def needOf (lambda : ℕ) (eps g : ℝ) : ℝ := (lambda - g) / (2.751 * eps)

theorem needOf_le_iff {w : ℕ} {eps : ℝ} (lambda : ℕ) (g : ℝ) (heps : 0 < eps) :
    needOf lambda eps g ≤ w ↔ lambda - g ≤ 2.751 * eps * w := by
  rw [needOf, div_le_iff₀ (by positivity), mul_comm]

theorem rbNeedW_eq {n lambda : ℕ} {eps g : ℝ} (heps : 0 < eps) (hg : rbGOf n eps = .ok g) :
    rbNeedW n lambda eps = .ok (max 1 ⌈needOf lambda eps g⌉₊) := by
  have hpos : ¬ eps ≤ 0.0 := by
    norm_num
    exact heps
  have hneed : (Double.ofNat lambda - g) / (2.751 * eps) = needOf lambda eps g := rfl
  rw [rbNeedW]
  simp only [le_real, hpos, throwIf_false, ok_bind, hg, pure_eq_ok, hneed, ceil_le_one_real,
    toNat_ceil_real]
  split_ifs with hone
  · rw [max_eq_left hone]
  · rw [max_eq_right (by omega)]

theorem rbWidth_eq {n lambda : ℕ} {g : ℝ} (hn : 2048 < n) (hg : rbGOf n (0.07 : ℝ) = .ok g) :
    rbWidth ℝ n lambda = .ok (rbRoundW (max 1 ⌈needOf lambda 0.07 g⌉₊)) := by
  have hneed : (Double.ofNat lambda - g) / (2.751 * 0.07) = needOf lambda 0.07 g := rfl
  have hmax : max n 1 = n := max_eq_left (by omega)
  have heps : (rbDefaultEps n : ℝ) = 0.07 := by
    simp only [rbDefaultEps, hmax, if_neg (show ¬ n ≤ 128 by omega), ite_self]
  rw [rbWidth]
  simp only [hmax, if_neg (show ¬ n ≤ 128 by omega), if_neg (show ¬ n ≤ 256 by omega),
    if_neg (show ¬ n ≤ 512 by omega), if_neg (show ¬ n ≤ 1024 by omega),
    if_neg (show ¬ n ≤ 2048 by omega), heps, hg, ok_bind, pure_eq_ok, hneed, lt_real]
  have hclamp := ceil_le_one_real (needOf lambda 0.07 g)
  by_cases hone : ⌈needOf lambda 0.07 g⌉₊ ≤ 1
  · have htoNat : Double.toNat (1.0 : ℝ) = 1 := by norm_num [Double.toNat]
    rw [if_neg (not_lt.mpr (hclamp.mpr hone)), max_eq_left hone, htoNat]
  · rw [if_pos (lt_of_not_ge (mt hclamp.mp hone)), max_eq_right (by omega), toNat_ceil_real]

/-- The automatic shape of `n` keys is resolved: the two rules fit together and pass the check. -/
structure AutoUsable (env : Env) (n : ℕ) (info : RBInfo ℝ) : Prop where
  resolved : rbInfoOf env n (rbParams ℝ) = .ok info
  width : rbWidth ℝ n 40 = .ok info.bandWidth
  columns : info.columns = rbSize ℝ n
  width_le : info.bandWidth ≤ info.columns
  width_le_max : info.bandWidth ≤ 256
  check : rbCheck n (rbParams ℝ) info = .ok ()

/-- The shape that the resolution hands to the check. -/
noncomputable def autoInfo (env : Env) (n m w : ℕ) (eps g : ℝ) : RBInfo ℝ :=
  { n, lambda := 40, lambdaReal := rbLambdaMain w eps + g, eps, columns := m, bandWidth := w,
    workerThreads := rbWorkerThreads env true 4 }

theorem rbInfoOf_auto (env : Env) {n m w : ℕ} {eps g : ℝ} (hn : 0 < n)
    (hm : rbSize ℝ n = m) (hw : rbWidth ℝ n 40 = .ok w) (hwpos : 1 ≤ w)
    (heps : rbEpsOf n m = eps) (hg : rbGOf n eps = .ok g) :
    rbInfoOf env n (rbParams ℝ) = (do
      throwIf (w > 256) "RBInfoOf width > 256"
      throwIf (w > m) "RBInfoOf width > columns"
      rbCheck n (rbParams ℝ) (autoInfo env n m w eps g)
      return autoInfo env n m w eps g) := by
  have hmax : max n 1 = n := max_eq_left hn
  have hsize : rbTableSize n (rbParams ℝ) = m := by
    simp [rbTableSize, rbParams, hmax, hm]
  have hwidth : rbTableW n m (rbParams ℝ) = .ok w := by
    simp [rbTableW, rbParams, hw]
  rw [rbInfoOf]
  simp only [hmax, hsize, hwidth, heps, rbLambdaOf, hg, ok_bind, pure_eq_ok,
    if_neg (show w ≠ 0 by omega)]
  rfl

theorem rbCheck_auto_iff (env : Env) {n m w : ℕ} {eps g : ℝ} (hwpos : 1 ≤ w) (hpos : 0 < eps)
    (hg : rbGOf n eps = .ok g) :
    rbCheck n (rbParams ℝ) (autoInfo env n m w eps g) = .ok () ↔
      w ≤ 256 ∧ w ≤ m ∧ 40 - g ≤ 2.751 * eps * w := by
  have hneed := needOf_le_iff (w := w) 40 g hpos
  rw [← Nat.ceil_le] at hneed
  simp only [rbCheck, autoInfo, rbNeedW_eq hpos hg, bind_eq_ok, throwIf_eq_ok, exists_const]
  norm_num [rbParams]
  norm_num at hneed
  intro _ _
  rw [hneed]
  exact and_iff_right (by omega)

/-- The resolution in terms of the shape and of its correction. -/
theorem exists_autoUsable_iff (env : Env) {n m w : ℕ} {eps g : ℝ} (hn : 0 < n)
    (hm : rbSize ℝ n = m) (hw : rbWidth ℝ n 40 = .ok w) (hwpos : 1 ≤ w)
    (heps : rbEpsOf n m = eps) (hpos : 0 < eps) (hg : rbGOf n eps = .ok g) :
    (∃ info, AutoUsable env n info) ↔ w ≤ 256 ∧ w ≤ m ∧ 40 - g ≤ 2.751 * eps * w := by
  have hinfo := rbInfoOf_auto env hn hm hw hwpos heps hg
  have hcheck := rbCheck_auto_iff env (m := m) hwpos hpos hg
  constructor
  · rintro ⟨info, h⟩
    have hres := h.resolved
    simp only [hinfo, bind_eq_ok] at hres
    obtain ⟨_, -, _, -, _, hok, -⟩ := hres
    exact hcheck.mp hok
  · intro h
    have hok := hcheck.mpr h
    refine ⟨autoInfo env n m w eps g, ?_, hw, hm.symm, h.2.1, h.1, hok⟩
    simp [hinfo, hok, h.1.not_gt, h.2.1.not_gt]

theorem le_rbRoundW {w : ℕ} (hw : w ≤ 256) : w ≤ rbRoundW w := by
  simp only [rbRoundW]
  split_ifs <;> omega

theorem rbRoundW_of_gt {w : ℕ} (hw : 240 < w) : rbRoundW w = 256 := by
  simp only [rbRoundW]
  split_ifs <;> omega

/-- A resolution that does not throw hands out the shape of the two rules. -/
theorem autoUsable_of_resolved {env : Env} {n : ℕ} {info : RBInfo ℝ} (hn : 0 < n)
    (h : rbInfoOf env n (rbParams ℝ) = .ok info) : AutoUsable env n info := by
  have hres := h
  have hmax : max n 1 = n := max_eq_left hn
  simp only [rbInfoOf, hmax, bind_eq_ok, throwIf_eq_ok, pure_eq_ok, Except.ok.injEq] at hres
  obtain ⟨w, hw, l, -, _, hle, _, hcols, _, hcheck, rfl⟩ := hres
  have hwidth : rbWidth ℝ n 40 = .ok w := by simpa [rbTableW, rbParams] using hw
  have hsize : rbTableSize n (rbParams ℝ) = rbSize ℝ n := by simp [rbTableSize, rbParams, hmax]
  have hpos : ¬ w = 0 := (rbWidth_pos hwidth).ne'
  simp only [if_neg hpos] at hle hcols hcheck ⊢
  refine ⟨?_, hwidth, hsize, not_lt.mp hcols, not_lt.mp hle, hcheck⟩
  simpa only [if_neg hpos] using h

end Shape

section Sizes

theorem logb_le_iff {n k : ℕ} (hn : 0 < n) : Real.logb 2 n ≤ k ↔ n ≤ 2 ^ k := by
  have hn' : (0 : ℝ) < n := by exact_mod_cast hn
  rw [Real.logb_le_iff_le_rpow (by norm_num) hn', Real.rpow_natCast]
  exact_mod_cast Iff.rfl

/-- What rounding 1.07 columns for each key to whole columns adds to the expansion. -/
noncomputable def columnSlack (n : ℕ) : ℝ := ((93 * n % 100 : ℕ) : ℝ) / (100 * n)

theorem columnSlack_nonneg (n : ℕ) : 0 ≤ columnSlack n := by
  unfold columnSlack
  positivity

theorem columnSlack_lt {n k : ℕ} (hk : 0 < k) (hn : k ≤ n) : columnSlack n < 1 / k := by
  have hk' : (0 : ℝ) < k := by exact_mod_cast hk
  have hn' : (k : ℝ) ≤ n := by exact_mod_cast hn
  have hc : ((93 * n % 100 : ℕ) : ℝ) < 100 := by exact_mod_cast Nat.mod_lt _ (by decide)
  unfold columnSlack
  rw [div_lt_div_iff₀ (by linarith) hk']
  nlinarith

theorem rbSize_of_large {n : ℕ} (hn : 128 < n) :
    ∃ m, rbSize ℝ n = m ∧ n ≤ m ∧ (rbEpsOf n m : ℝ) = 0.07 + columnSlack n := by
  have hmax : max n 1 = n := max_eq_left (by omega)
  have heps : (rbDefaultEps n : ℝ) = 0.07 := by
    simp only [rbDefaultEps, hmax, if_neg (show ¬ n ≤ 128 by omega), ite_self]
  have hm : 100 * ((107 * n + 93 * n % 100) / 100) = (100 + 7) * n + 93 * n % 100 := by omega
  refine ⟨(107 * n + 93 * n % 100) / 100, ?_, by omega, ?_⟩
  · rw [rbSize, hmax, heps]
    exact rbCeilCols_eq (by norm_num) hm (Nat.mod_lt _ (by decide))
  · rw [rbEpsOf_eq (by omega) hm, columnSlack]
    norm_num

theorem rbSize_of_le_128 {n : ℕ} (hn : n ≤ 128) :
    ∃ m, rbSize ℝ n = m ∧ 100 * m = (100 + 12) * max n 1 + 88 * max n 1 % 100 := by
  have hm : 100 * ((112 * max n 1 + 88 * max n 1 % 100) / 100) =
      (100 + 12) * max n 1 + 88 * max n 1 % 100 := by omega
  have heps : (rbDefaultEps (max n 1) : ℝ) = 0.12 := by simp [rbDefaultEps, hn]
  refine ⟨_, ?_, hm⟩
  rw [rbSize, heps]
  exact rbCeilCols_eq (by norm_num) hm (Nat.mod_lt _ (by decide))

theorem rbWidth_of_le_128 {n : ℕ} (hn : n ≤ 128) : rbWidth ℝ n 40 = .ok 64 := by
  simp [rbWidth, hn]

/-- Up to 56 keys the table is narrower than the band. -/
theorem not_autoUsable_tiny {env : Env} {n : ℕ} {info : RBInfo ℝ} (hn : n ≤ 56) :
    ¬ AutoUsable env n info := by
  intro h
  obtain ⟨m, hsize, hm⟩ := rbSize_of_le_128 (hn.trans (by decide))
  have hwidth := h.width
  rw [rbWidth_of_le_128 (hn.trans (by decide)), Except.ok.injEq] at hwidth
  have hle := h.width_le
  rw [h.columns, hsize] at hle
  omega

theorem autoUsable_of_le_128 (env : Env) {n : ℕ} (hlo : 57 ≤ n) (hhi : n ≤ 128) :
    ∃ info, AutoUsable env n info := by
  obtain ⟨m, hsize, hm⟩ := rbSize_of_le_128 hhi
  rw [max_eq_left (show 1 ≤ n by omega)] at hm
  have heps := rbEpsOf_eq (show 0 < n by omega) hm
  have hslack : (0 : ℝ) ≤ (88 * n % 100 : ℕ) / (100 * n) := by positivity
  have hslack' : ((88 * n % 100 : ℕ) : ℝ) / (100 * n) < 0.025 := by
    have hn : (57 : ℝ) ≤ n := by exact_mod_cast hlo
    have hc : ((88 * n % 100 : ℕ) : ℝ) ≤ 99 := by
      exact_mod_cast Nat.le_of_lt_succ (Nat.mod_lt _ (by decide))
    rw [div_lt_iff₀ (by linarith)]
    norm_num
    linarith
  generalize ((88 * n % 100 : ℕ) : ℝ) / (100 * n) = slack at heps hslack hslack'
  norm_num at heps hslack'
  obtain ⟨g, hg, hlow⟩ := rbGOf_tiny (3 / 25 + slack) hhi (by norm_num; linarith)
    (by norm_num; linarith)
  rw [exists_autoUsable_iff env (by omega) hsize (rbWidth_of_le_128 hhi) (by decide) heps
    (by linarith) hg]
  refine ⟨by decide, by omega, ?_⟩
  norm_num at hlow ⊢
  linarith

theorem autoUsable_of_le_1024 (env : Env) {n : ℕ} (hlo : 128 < n) (hhi : n ≤ 1024) :
    ∃ info, AutoUsable env n info := by
  obtain ⟨m, hsize, hnm, heps⟩ := rbSize_of_large hlo
  have hslack := columnSlack_nonneg n
  have hrange : 0.07 + columnSlack n < 0.075 ∨ (n ≤ 256 ∧ 0.07 + columnSlack n < 0.085) := by
    by_cases h256 : n ≤ 256
    · have hlt := columnSlack_lt (show 0 < 129 by decide) hlo
      norm_num at hlt ⊢
      exact .inr ⟨h256, by linarith⟩
    · have hlt := columnSlack_lt (show 0 < 257 by decide) (not_le.mp h256)
      norm_num at hlt ⊢
      exact .inl (by linarith)
  obtain ⟨g, hg, hlow⟩ := rbGOf_small hlo hhi (by linarith) hrange
  obtain ⟨w, hwidth, hw, hwle⟩ : ∃ w, rbWidth ℝ n 40 = .ok w ∧ 88 ≤ w ∧ w ≤ 104 := by
    simp only [rbWidth, pure_eq_ok]
    split_ifs
    · omega
    · exact ⟨88, rfl, by decide, by decide⟩
    · exact ⟨96, rfl, by decide, by decide⟩
    · exact ⟨104, rfl, by decide, by decide⟩
    · omega
    · omega
  have hw' : (88 : ℝ) ≤ w := by exact_mod_cast hw
  rw [exists_autoUsable_iff env (by omega) hsize hwidth (by omega) heps (by linarith) hg]
  refine ⟨by omega, by omega, ?_⟩
  norm_num at hlow ⊢
  nlinarith

/-- The correction of a table of more than 1024 keys. -/
theorem rbGOf_of_slack {n : ℕ} (slack : ℝ) (hn : 1024 < n) (hlo : 0 ≤ slack) (hhi : slack < 0.03) :
    rbGOf n (0.07 + slack) = .ok (g07 n + (g10 n - g07 n) * (slack / 0.03)) := by
  rw [rbGOf_of_large hn, rbGPaper_eq (by linarith) (by norm_num at hhi ⊢; linarith),
    add_sub_cancel_left]

theorem logN_eq {n : ℕ} (hn : 1024 < n) : logN n = Real.logb 2 n ∧ 10 < logN n := by
  have hlog : 10 < Real.logb 2 n := by
    have h := (logb_le_iff (n := n) (k := 10) (by omega)).not.mpr (by omega)
    exact_mod_cast not_le.mp h
  rw [logN, max_eq_left (show 1 ≤ n by omega), max_eq_right hlog.le]
  exact ⟨rfl, hlog⟩

theorem columnSlack_lt_grid {n : ℕ} (hn : 1024 < n) : columnSlack n < 0.03 := by
  have hlt := columnSlack_lt (show 0 < 1024 by decide) hn.le
  norm_num at hlt ⊢
  linarith

/-- Above 2048 keys the width is the one that the correction at 0.07 asks for. -/
theorem rbWidth_of_large {n : ℕ} (hn : 2048 < n) :
    rbWidth ℝ n 40 = .ok (rbRoundW (max 1 ⌈needOf 40 0.07 (g07 n)⌉₊)) := by
  have hg := rbGOf_of_slack (n := n) 0 (by omega) le_rfl (by norm_num)
  rw [add_zero, zero_div, mul_zero, add_zero] at hg
  exact rbWidth_eq hn hg

section Middle
variable {n : ℕ} (hlo : 1024 < n) (hhi : n ≤ 2 ^ 14)
include hlo hhi

theorem logN_le : logN n ≤ 14 := by
  rw [(logN_eq hlo).1]
  exact_mod_cast (logb_le_iff (k := 14) (by omega)).mpr hhi

theorem g07_middle : g07 n = -5.3 - 0.75 * (logN n - 10) := by
  rw [g07, rowAt_first _ _ _ _ _ (logN_eq hlo).2.le (logN_le hlo hhi)]
  ring

theorem g10_middle : g10 n = -6.3 - 0.775 * (logN n - 10) := by
  rw [g10, rowAt_first _ _ _ _ _ (logN_eq hlo).2.le (logN_le hlo hhi)]
  ring

/-- The width covers the correction at 0.07. -/
theorem rbWidth_middle : ∃ w, rbWidth ℝ n 40 = .ok w ∧ 16 ≤ w ∧ w ≤ 256 ∧
    40 - g07 n ≤ 2.751 * 0.07 * w := by
  have hfour := logN_le hlo hhi
  by_cases h2048 : n ≤ 2048
  · have hone : logN n ≤ 11 := by
      rw [(logN_eq hlo).1]
      exact_mod_cast (logb_le_iff (k := 11) (by omega)).mpr h2048
    refine ⟨240, ?_, by decide, by decide, ?_⟩
    · simp [rbWidth, h2048, show ¬ n ≤ 128 by omega, show ¬ n ≤ 256 by omega,
        show ¬ n ≤ 512 by omega, show ¬ n ≤ 1024 by omega]
    · rw [g07_middle hlo hhi]
      norm_num
      linarith
  · have hneed : needOf 40 0.07 (g07 n) ≤ (256 : ℕ) := by
      rw [needOf_le_iff _ _ (by norm_num), g07_middle hlo hhi]
      norm_num
      linarith
    have hle : max 1 ⌈needOf 40 0.07 (g07 n)⌉₊ ≤ 256 := max_le (by decide) (Nat.ceil_le.mpr hneed)
    refine ⟨_, rbWidth_of_large (by omega), (rbRoundW_bounds _).1, (rbRoundW_bounds _).2, ?_⟩
    have hround := (le_max_right _ _).trans (le_rbRoundW hle)
    rw [Nat.ceil_le, needOf_le_iff _ _ (by norm_num)] at hround
    exact_mod_cast hround

theorem autoUsable_middle (env : Env) : ∃ info, AutoUsable env n info := by
  obtain ⟨m, hsize, hnm, heps⟩ := rbSize_of_large (show 128 < n by omega)
  obtain ⟨w, hwidth, hw16, hw256, hmain⟩ := rbWidth_middle hlo hhi
  have hslack := columnSlack_nonneg n
  have hg := rbGOf_of_slack _ hlo hslack (columnSlack_lt_grid hlo)
  have hfour := logN_le hlo hhi
  rw [exists_autoUsable_iff env (by omega) hsize hwidth (by omega) heps (by linarith) hg]
  refine ⟨hw256, by omega, ?_⟩
  -- the slack buys more width than the correction between the rows costs
  have hcost : (g07 n - g10 n) * (columnSlack n / 0.03) ≤ 1.1 * (columnSlack n / 0.03) := by
    apply mul_le_mul_of_nonneg_right _ (by positivity)
    rw [g07_middle hlo hhi, g10_middle hlo hhi]
    linarith
  have hgain : 2.751 * columnSlack n * 16 ≤ 2.751 * columnSlack n * w := by
    apply mul_le_mul_of_nonneg_left _ (by positivity)
    exact_mod_cast hw16
  calc 40 - (g07 n + (g10 n - g07 n) * (columnSlack n / 0.03))
      = (40 - g07 n) + (g07 n - g10 n) * (columnSlack n / 0.03) := by ring
    _ ≤ 2.751 * 0.07 * w + 1.1 * (columnSlack n / 0.03) := add_le_add hmain hcost
    _ ≤ 2.751 * 0.07 * w + 2.751 * columnSlack n * w := by
      norm_num at hgain ⊢
      linarith
    _ = 2.751 * (0.07 + columnSlack n) * w := by ring

end Middle

section Large
variable {n : ℕ} (hn : 2 ^ 14 < n)
include hn

theorem lt_logN : 14 < logN n := by
  rw [(logN_eq (by omega)).1]
  have h := (logb_le_iff (n := n) (k := 14) (by omega)).not.mpr (by omega)
  exact_mod_cast not_le.mp h

/-- Up to 65536 keys the two rows fall along straight lines. -/
theorem g_large (hhi : logN n ≤ 16) :
    g07 n = -8.3 - (logN n - 14) ∧ g10 n = -9.4 - 1.1 * (logN n - 14) := by
  rw [g07, g10, rowAt_second _ _ _ _ _ (lt_logN hn) hhi, rowAt_second _ _ _ _ _ (lt_logN hn) hhi]
  constructor <;> ring

omit hn in
theorem g_huge (hlo : 16 < logN n) : g07 n ≤ -10.3 ∧ g10 n ≤ -10.3 := by
  have h10 : g10 n ≤ -11.6 := rowAt_le _ _ (by norm_num) (by norm_num) hlo
  refine ⟨rowAt_le _ _ (by norm_num) (by norm_num) hlo, ?_⟩
  norm_num at h10 ⊢
  linarith

/-- The width has reached its cap. -/
theorem rbWidth_capped : rbWidth ℝ n 40 = .ok 256 := by
  have hneed : ¬ needOf 40 0.07 (g07 n) ≤ (240 : ℕ) := by
    rw [needOf_le_iff _ _ (by norm_num)]
    have hlog := lt_logN hn
    rcases le_or_gt (logN n) 16 with h16 | h16
    · rw [(g_large hn h16).1]
      norm_num
      linarith
    · have hg := (g_huge h16).1
      norm_num at hg ⊢
      linarith
  rw [← Nat.ceil_le, not_le] at hneed
  rw [rbWidth_of_large (by omega), rbRoundW_of_gt (lt_of_lt_of_le hneed (le_max_right _ _))]

theorem columnSlack_huge (hlo : 16 < logN n) : columnSlack n < 1 / 65536 := by
  have hle : 65536 ≤ n := by
    by_contra hlt
    have h := (logb_le_iff (n := n) (k := 16) (by omega)).mpr (by omega)
    rw [(logN_eq (by omega)).1] at hlo
    exact absurd hlo (by exact_mod_cast not_lt.mpr h)
  exact_mod_cast columnSlack_lt (by decide) hle

theorem autoUsable_large_iff (env : Env) : (∃ info, AutoUsable env n info) ↔
    (Real.logb 2 n - 14) * (1 + columnSlack n / 0.3) ≤
      0.99792 + (704.256 - 110 / 3) * columnSlack n := by
  have hn' : 1024 < n := by omega
  obtain ⟨m, hsize, hnm, heps⟩ := rbSize_of_large (show 128 < n by omega)
  have hslack := columnSlack_nonneg n
  have hgrid := columnSlack_lt_grid hn'
  rw [exists_autoUsable_iff env (by omega) hsize (rbWidth_capped hn) (by decide) heps (by linarith)
    (rbGOf_of_slack _ hn' hslack hgrid), ← (logN_eq hn').1]
  have hcols : 256 ≤ m := by omega
  rcases le_or_gt (logN n) 16 with h16 | h16
  · rw [(g_large hn h16).1, (g_large hn h16).2]
    norm_num [hcols]
    constructor <;> intro h <;> linarith
  · -- the correction is too large for any slack
    have hsmall := columnSlack_huge hn h16
    apply iff_of_false
    · rintro ⟨-, -, h⟩
      have hg := lerp_le (g_huge h16).1 (g_huge h16).2 (u := columnSlack n / 0.03) (by positivity)
        ((div_le_one (by norm_num)).mpr hgrid.le)
      norm_num at h hg
      linarith
    · intro h
      have hfactor : 0 ≤ (logN n - 14) * (columnSlack n / 0.3) :=
        mul_nonneg (by linarith) (by positivity)
      norm_num at h hfactor
      linarith

end Large

/-- The set sizes whose automatic shape passes. -/
def AutoFits (n : ℕ) : Prop :=
  57 ≤ n ∧ (n ≤ 2 ^ 14 ∨ (Real.logb 2 n - 14) * (1 + columnSlack n / 0.3) ≤
    0.99792 + (704.256 - 110 / 3) * columnSlack n)

theorem logb_eq_add {n : ℕ} (hn : 0 < n) :
    Real.logb 2 n = 15 + Real.log (n / 32768) / Real.log 2 := by
  have hn' : (n : ℝ) ≠ 0 := by exact_mod_cast hn.ne'
  have hlog : Real.log 32768 = 15 * Real.log 2 := by
    rw [show (32768 : ℝ) = 2 ^ 15 by norm_num, Real.log_pow]
    norm_num
  have htwo : Real.log 2 ≠ 0 := (Real.log_pos (by norm_num)).ne'
  rw [Real.logb, Real.log_div hn' (by norm_num), hlog]
  field_simp
  ring

/-- All sizes from 57 to 32720 pass. -/
theorem autoFits_of_le {n : ℕ} (hlo : 57 ≤ n) (hhi : n ≤ 32720) : AutoFits n := by
  refine ⟨hlo, ?_⟩
  by_cases hlarge : n ≤ 2 ^ 14
  · exact .inl hlarge
  · have hslack := columnSlack_nonneg n
    have hn : (n : ℝ) ≤ 32720 := by exact_mod_cast hhi
    have hpos : (0 : ℝ) < n / 32768 := by
      have h57 : (57 : ℝ) ≤ n := by exact_mod_cast hlo
      linarith
    have hlog := Real.log_le_sub_one_of_pos hpos
    have htwo := Real.log_two_lt_d9
    have hx : Real.logb 2 n ≤ 14.9979 := by
      rw [logb_eq_add (by omega), ← le_sub_iff_add_le', div_le_iff₀ (Real.log_pos (by norm_num))]
      norm_num at htwo ⊢
      linarith
    have hmul := mul_le_mul_of_nonneg_right hx hslack
    norm_num at hx hmul ⊢
    right
    linarith

/-- From 33200 keys on the correction is more than any slack makes up for. -/
theorem slack_lt_of_ge {n : ℕ} (hn : 33200 ≤ n) : 0.99792 + (704.256 - 110 / 3) * columnSlack n <
    (Real.logb 2 n - 14) * (1 + columnSlack n / 0.3) := by
  have hslack := columnSlack_nonneg n
  have hsmall := columnSlack_lt (by decide) hn
  have hn' : (33200 : ℝ) ≤ n := by exact_mod_cast hn
  have hlog := Real.one_sub_inv_le_log_of_pos (show (0 : ℝ) < n / 32768 by linarith)
  have hinv : ((n : ℝ) / 32768)⁻¹ ≤ 32768 / 33200 := by
    rw [inv_div]
    exact div_le_div_of_nonneg_left (by norm_num) (by norm_num) hn'
  have hratio : 1 - 32768 / 33200 ≤ Real.log (n / 32768) := by linarith
  have htwo := Real.log_two_lt_d9
  have hx : 15.01877 ≤ Real.logb 2 n := by
    rw [logb_eq_add (by omega), ← sub_le_iff_le_add', le_div_iff₀ (Real.log_pos (by norm_num))]
    norm_num at htwo hratio ⊢
    linarith
  have hmul := mul_nonneg (show 0 ≤ Real.logb 2 n - 14 by norm_num at hx; linarith) hslack
  norm_num at hx hmul hsmall ⊢
  linarith

theorem not_autoFits_of_ge {n : ℕ} (hn : 33200 ≤ n) : ¬ AutoFits n := by
  rintro ⟨-, hsmall | hle⟩
  · omega
  · exact absurd hle (not_le.mpr (slack_lt_of_ge hn))

end Sizes

/-- The automatic shape passes its own check exactly for these sizes. -/
theorem rbInfoOf_default_iff (env : Env) (n : ℕ) :
    (∃ info, AutoUsable env n info) ↔ AutoFits n := by
  by_cases hmin : 57 ≤ n
  · rw [AutoFits, and_iff_right hmin]
    by_cases hlarge : n ≤ 2 ^ 14
    · refine iff_of_true ?_ (.inl hlarge)
      by_cases h128 : n ≤ 128
      · exact autoUsable_of_le_128 env hmin h128
      · by_cases h1024 : n ≤ 1024
        · exact autoUsable_of_le_1024 env (not_le.mp h128) h1024
        · exact autoUsable_middle (not_le.mp h1024) hlarge env
    · rw [autoUsable_large_iff (not_le.mp hlarge) env, or_iff_right hlarge]
  · refine iff_of_false ?_ (fun h => hmin h.1)
    rintro ⟨info, h⟩
    exact not_autoUsable_tiny (by omega) h

/-- Four keys, the size of the test runs, ask for a band of 64 bits in five columns; a million keys
ask for more than the 256 bits of the cap. -/
theorem rbInfoOf_default_throws :
    (∀ env info, rbInfoOf env 4 (rbParams ℝ) ≠ .ok info) ∧
      ∀ env info, rbInfoOf env (2 ^ 20) (rbParams ℝ) ≠ .ok info := by
  constructor
  · intro env info h
    exact not_autoUsable_tiny (by decide) (autoUsable_of_resolved (by decide) h)
  · intro env info h
    have husable := autoUsable_of_resolved (by decide) h
    have hfits := (autoUsable_large_iff (by decide) env).mp ⟨info, husable⟩
    exact absurd hfits (not_le.mpr (slack_lt_of_ge (by decide)))

end PqPsi.Okvs
