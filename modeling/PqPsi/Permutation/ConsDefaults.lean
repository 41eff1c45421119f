import PqPsi.Permutation.ConsInverse

/-!
# The default parameters of `ConsPi`

`bestStep` looks for the largest step that keeps `2 * lambda` bits of the
window on both of its sides, and the constructor checks the step again. Both
double `lambda` in a word of 64 bits, so for `lambda` from `2 ^ 63` on they
agree on a smaller gap than they were asked for.
-/
namespace PqPsi.Permutation
open Lib.Exceptions Protocol

section Defaults

def widthOf : SmallKind → ℕ
  | .keccak800 => 800
  | .keccak1600 => 1600
  | .keccak1600R12 => 1600
  | .sneikF512 => 512

/-- A step that the loop of `bestStep` takes over. -/
def GoodStep (n N lambda s : ℕ) : Prop :=
  (N - n) % s = 0 ∧ s ≥ 2 * lambda % 2 ^ 64 ∧ n - s ≥ 2 * lambda % 2 ^ 64

instance (n N lambda s : ℕ) : Decidable (GoodStep n N lambda s) :=
  inferInstanceAs (Decidable (_ ∧ _ ∧ _))

def bestStep (n N lambda : ℕ) : Except Err ℕ := do
  throwIf (N ≤ n) "Pi needs N > n"
  let best := (List.range' 1 n).foldl (fun best s => if GoodStep n N lambda s then s else best) 0
  throwIf (best = 0) "no valid Pi step for this small permutation"
  return best

/-- `pi::defaults`. -/
def defaults (kind : SmallKind) (N lambda : ℕ) : Except Err Params := do
  let s ← bestStep (widthOf kind) N lambda
  return ⟨kind, widthOf kind, N, s, lambda⟩

/-- The last good element of a list, or the start. -/
theorem foldl_last_mem {p : ℕ → Prop} [DecidablePred p] (l : List ℕ) (best : ℕ) :
    l.foldl (fun best s => if p s then s else best) best = best ∨
      (l.foldl (fun best s => if p s then s else best) best ∈ l ∧
        p (l.foldl (fun best s => if p s then s else best) best)) := by
  induction l generalizing best with
  | nil => exact .inl rfl
  | cons s l ih =>
    rw [List.foldl_cons]
    by_cases hs : p s
    · rw [if_pos hs]
      rcases ih s with heq | ⟨hmem, hp⟩
      · rw [heq]
        exact .inr ⟨List.mem_cons_self, hs⟩
      · exact .inr ⟨List.mem_cons_of_mem _ hmem, hp⟩
    · rw [if_neg hs]
      rcases ih best with heq | ⟨hmem, hp⟩
      · exact .inl heq
      · exact .inr ⟨List.mem_cons_of_mem _ hmem, hp⟩

theorem bestStep_eq_ok {n N lambda s : ℕ} (h : bestStep n N lambda = .ok s) :
    n < N ∧ 0 < s ∧ s ≤ n ∧ GoodStep n N lambda s := by
  simp only [bestStep, bind_eq_ok, throwIf_eq_ok, exists_const, pure_eq_ok] at h
  obtain ⟨hN, hne, hs⟩ := h
  rw [Except.ok.injEq] at hs
  rw [hs] at hne
  have hlast := foldl_last_mem (p := GoodStep n N lambda) (List.range' 1 n) 0
  rw [hs] at hlast
  rcases hlast with hzero | ⟨hmem, hgood⟩
  · exact absurd hzero hne
  · rw [List.mem_range'_1] at hmem
    exact ⟨by omega, by omega, by omega, hgood⟩

/-- A gap of zero allows the whole window as the step. -/
theorem bestStep_self {n N lambda : ℕ} (hn : 0 < n) (hN : n < N) (hdvd : (N - n) % n = 0)
    (hgap : 2 * lambda % 2 ^ 64 = 0) : bestStep n N lambda = .ok n := by
  obtain ⟨m, rfl⟩ := Nat.exists_eq_add_one_of_ne_zero hn.ne'
  have hgood : GoodStep (m + 1) N lambda (m + 1) := ⟨hdvd, by omega, by omega⟩
  have hbest : (List.range' 1 (m + 1)).foldl
      (fun best s => if GoodStep (m + 1) N lambda s then s else best) 0 = m + 1 := by
    rw [List.range'_1_concat, List.foldl_concat, Nat.add_comm 1 m, if_pos hgood]
  simp [bestStep, hbest, Nat.not_le.mpr hN]

/-- The constructor accepts all parameters that `defaults` finds. -/
theorem checkParams_defaults (smalls : Smalls) {kind : SmallKind} {N lambda : ℕ} {params : Params}
    (h : defaults kind N lambda = .ok params) :
    params.kind = kind ∧ checkParams (makePerm smalls kind) params = .ok () := by
  simp only [defaults, bind_eq_ok, pure_eq_ok, Except.ok.injEq] at h
  obtain ⟨s, hs, rfl⟩ := h
  obtain ⟨hN, hpos, hle, hgood⟩ := bestStep_eq_ok hs
  have hbits : (makePerm smalls kind).bits = widthOf kind := by cases kind <;> rfl
  obtain ⟨hdiv, hlow, hhigh⟩ := hgood
  refine ⟨rfl, ?_⟩
  simp only [checkParams, bind_eq_ok, throwIf_eq_ok, exists_const, hbits]
  omega

end Defaults

section Largest
variable {n N lambda s best : ℕ}

/-- The last good element of an increasing range is the largest one. -/
theorem le_foldl_last {p : ℕ → Prop} [DecidablePred p] (hs : s ∈ List.range' 1 n) (hp : p s) :
    s ≤ (List.range' 1 n).foldl (fun best s => if p s then s else best) 0 := by
  induction n with
  | zero => exact absurd hs List.not_mem_nil
  | succ n ih =>
    rw [List.range'_1_concat, List.foldl_concat]
    rw [List.mem_range'_1] at hs
    split_ifs with hlast
    · omega
    · have hne : s ≠ 1 + n := by
        rintro rfl
        exact hlast hp
      exact ih (List.mem_range'_1.mpr (by omega))

/-- A good step is found, or a larger one. -/
theorem exists_bestStep (hN : n < N) (hpos : 0 < s) (hs : s ≤ n) (hgood : GoodStep n N lambda s) :
    ∃ best, bestStep n N lambda = .ok best ∧ s ≤ best := by
  have hle := le_foldl_last (p := GoodStep n N lambda)
    (List.mem_range'_1.mpr ⟨hpos, by omega⟩ : s ∈ List.range' 1 n) hgood
  refine ⟨_, ?_, hle⟩
  simp only [bestStep, bind_eq_ok, throwIf_eq_ok, exists_const, pure_eq_ok, and_true]
  omega

theorem le_bestStep (h : bestStep n N lambda = .ok best) (hpos : 0 < s) (hs : s ≤ n)
    (hgood : GoodStep n N lambda s) : s ≤ best := by
  obtain ⟨best', hbest', hle⟩ := exists_bestStep (bestStep_eq_ok h).1 hpos hs hgood
  rw [h, Except.ok.injEq] at hbest'
  rwa [hbest']

end Largest

section Gap
variable {n N lambda s : ℕ} {kind : SmallKind} {params : Params}

/-- The step divides the rest of the state and leaves the gap on both sides of it, in numbers
that neither wrap nor stop at zero. -/
structure ExactStep (n N lambda s : ℕ) : Prop where
  dvd : (s : ℤ) ∣ N - n
  low : 2 * (lambda : ℤ) ≤ s
  high : 2 * (lambda : ℤ) ≤ n - s

/-- While `2 * lambda` does not wrap, the loop takes over the exact steps. -/
theorem exactStep_iff (hN : n < N) (hs : s ≤ n) (hlambda : lambda < 2 ^ 63) :
    ExactStep n N lambda s ↔ GoodStep n N lambda s := by
  have hdvd : (s : ℤ) ∣ N - n ↔ (N - n) % s = 0 := by
    rw [← Nat.cast_sub hN.le, Int.natCast_dvd_natCast, Nat.dvd_iff_mod_eq_zero]
  have hgap : 2 * lambda % 2 ^ 64 = 2 * lambda := Nat.mod_eq_of_lt (by omega)
  constructor
  · intro h
    have hlow := h.low
    have hhigh := h.high
    exact ⟨hdvd.mp h.dvd, by omega, by omega⟩
  · rintro ⟨hmod, hlow, hhigh⟩
    exact ⟨hdvd.mpr hmod, by omega, by omega⟩

/-- What `defaults` promises: its parameters pass the constructor, and their step is the largest
exact one. -/
def GapEnforced (kind : SmallKind) (N lambda : ℕ) : Prop :=
  ∀ params, defaults kind N lambda = .ok params →
    (∀ smalls party, ∃ c, consPi smalls params party = .ok c) ∧
    ExactStep (widthOf kind) N lambda params.s ∧
    ∀ s ≤ widthOf kind, ExactStep (widthOf kind) N lambda s → s ≤ params.s

theorem defaults_eq_ok (h : defaults kind N lambda = .ok params) :
    bestStep (widthOf kind) N lambda = .ok params.s ∧
      params = ⟨kind, widthOf kind, N, params.s, lambda⟩ := by
  simp only [defaults, bind_eq_ok, pure_eq_ok, Except.ok.injEq] at h
  obtain ⟨s, hs, rfl⟩ := h
  exact ⟨hs, rfl⟩

theorem gapEnforced_of_lt (hlambda : lambda < 2 ^ 63) : GapEnforced kind N lambda := by
  intro params h
  obtain ⟨hbest, -⟩ := defaults_eq_ok h
  obtain ⟨hN, -, hle, hgood⟩ := bestStep_eq_ok hbest
  refine ⟨fun smalls party => ?_, (exactStep_iff hN hle hlambda).mpr hgood, fun s hs hexact => ?_⟩
  · obtain ⟨hkind, hcheck⟩ := checkParams_defaults smalls h
    exact exists_consPi party (by rwa [hkind])
  · rcases Nat.eq_zero_or_pos s with rfl | hpos
    · exact Nat.zero_le _
    · exact le_bestStep hbest hpos hs ((exactStep_iff hN hs hlambda).mp hexact)

/-- No window holds a gap of `2 ^ 64` bits, so a `lambda` that wraps is safe only if nothing is
found for it. -/
theorem gapEnforced_iff_of_ge (hlambda : 2 ^ 63 ≤ lambda) :
    GapEnforced kind N lambda ↔ ∀ s, bestStep (widthOf kind) N lambda ≠ .ok s := by
  constructor
  · intro h s hs
    have hdef : defaults kind N lambda = .ok ⟨kind, widthOf kind, N, s, lambda⟩ := by
      rw [defaults, hs, ok_bind, pure_eq_ok]
    have hlow : 2 * (lambda : ℤ) ≤ s := (h _ hdef).2.1.low
    have hle : s ≤ widthOf kind := (bestStep_eq_ok hs).2.2.1
    have hwidth : widthOf kind ≤ 1600 := by cases kind <;> decide
    omega
  · intro h params hdef
    exact absurd (defaults_eq_ok hdef).1 (h params.s)

/-- The wrapped gap, for `lambda` from `2 ^ 63` on. -/
theorem goodStep_iff_of_ge (hlow : 2 ^ 63 ≤ lambda) (hhigh : lambda < 2 ^ 64) (hs : s ≤ n) :
    GoodStep n N lambda s ↔ s ∣ N - n ∧ 2 * lambda ≤ s + 2 ^ 64 ∧ s + 2 * lambda ≤ n + 2 ^ 64 := by
  have hgap : 2 * lambda % 2 ^ 64 = 2 * lambda - 2 ^ 64 := by omega
  rw [GoodStep, hgap, Nat.dvd_iff_mod_eq_zero]
  constructor
  · rintro ⟨hmod, hle, hge⟩
    exact ⟨hmod, by omega, by omega⟩
  · rintro ⟨hmod, hle, hge⟩
    exact ⟨hmod, by omega, by omega⟩

end Gap

/-- The gap of the default parameters holds in exact arithmetic unless `2 * lambda` wraps and a
divisor of `N - n` keeps the wrapped gap. -/
theorem gapEnforced_iff (kind : SmallKind) {N lambda : ℕ} (hlambda : lambda < 2 ^ 64) :
    GapEnforced kind N lambda ↔
      lambda < 2 ^ 63 ∨ N ≤ widthOf kind ∨
        ∀ s, 2 * lambda ≤ s + 2 ^ 64 → s + 2 * lambda ≤ widthOf kind + 2 ^ 64 →
          ¬ s ∣ N - widthOf kind := by
  rcases Nat.lt_or_ge lambda (2 ^ 63) with hlt | hge
  · exact ⟨fun _ => .inl hlt, fun _ => gapEnforced_of_lt hlt⟩
  rw [gapEnforced_iff_of_ge hge]
  constructor
  · intro hnone
    refine .inr (or_iff_not_imp_left.mpr fun hN s hlow hhigh hdvd => ?_)
    have hpos : 0 < s := Nat.pos_of_dvd_of_pos hdvd (by omega)
    obtain ⟨best, hbest, -⟩ := exists_bestStep (not_le.mp hN) hpos (by omega)
      ((goodStep_iff_of_ge hge hlambda (by omega)).mpr ⟨hdvd, hlow, hhigh⟩)
    exact hnone best hbest
  · intro h s hs
    obtain ⟨hN, -, hle, hgood⟩ := bestStep_eq_ok hs
    obtain ⟨hdvd, hlow, hhigh⟩ := (goodStep_iff_of_ge hge hlambda hle).mp hgood
    rcases h with hlt | hN' | hnone
    · omega
    · omega
    · exact hnone s hlow hhigh hdvd

/-- Keccak with rows of 800 bytes and the default `lambda`. -/
theorem gapEnforced_keccak1600 : GapEnforced .keccak1600 6400 128 :=
  (gapEnforced_iff .keccak1600 (by decide)).mpr (.inl (by decide))

/-- Doubling `2 ^ 63` gives zero, and the step is the whole window. -/
theorem not_gapEnforced_lambda_wraps :
    defaults .keccak1600 6400 (2 ^ 63) = .ok ⟨.keccak1600, 1600, 6400, 1600, 2 ^ 63⟩ ∧
      ¬ GapEnforced .keccak1600 6400 (2 ^ 63) := by
  have hbest : bestStep (widthOf .keccak1600) 6400 (2 ^ 63) = .ok 1600 :=
    bestStep_self (by decide) (by decide) (by decide) (by decide)
  refine ⟨?_, fun h => (gapEnforced_iff_of_ge le_rfl).mp h 1600 hbest⟩
  rw [defaults, hbest, ok_bind, pure_eq_ok, widthOf]

end PqPsi.Permutation
