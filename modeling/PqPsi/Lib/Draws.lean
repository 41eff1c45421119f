import PqPsi.Lib.Exceptions
import Mathlib.Data.List.GetD
import Mathlib.Probability.Distributions.Uniform

/-!
# Computations with uniform draws

A computation that draws bounded numbers and may throw is a tree: a leaf is a
result, a node one uniform draw. `Outcome` collects the results over all
draws, and `toPMF` is the distribution of the result when all draws are
independent and uniform.
-/
namespace PqPsi.Lib

variable {ε α β γ : Type}

/-- A result, or a draw from `n + 1` values and a computation for each. -/
inductive Draws (ε α : Type) where
  | done (r : Except ε α)
  | draw (n : ℕ) (next : Fin (n + 1) → Draws ε α)

namespace Draws

def bind : Draws ε α → (α → Draws ε β) → Draws ε β
  | done (.ok a), f => f a
  | done (.error e), _ => done (.error e)
  | draw n next, f => draw n fun i => (next i).bind f

instance : Monad (Draws ε) where
  pure a := done (.ok a)
  bind := bind

@[simp] theorem done_ok_bind (a : α) (f : α → Draws ε β) : done (.ok a) >>= f = f a := rfl

@[simp] theorem done_error_bind (e : ε) (f : α → Draws ε β) :
    done (.error e) >>= f = done (.error e) := rfl

@[simp] theorem draw_bind (n : ℕ) (next : Fin (n + 1) → Draws ε α) (f : α → Draws ε β) :
    draw n next >>= f = draw n fun i => next i >>= f := rfl

theorem bind_pure (t : Draws ε α) : t >>= pure = t := by
  induction t with
  | done r => cases r <;> rfl
  | draw n next ih =>
    rw [draw_bind]
    congr 1
    ext i
    exact ih i

theorem bind_assoc (t : Draws ε α) (f : α → Draws ε β) (g : β → Draws ε γ) :
    t >>= f >>= g = t >>= fun a => f a >>= g := by
  induction t with
  | done r => cases r <;> rfl
  | draw n next ih =>
    rw [draw_bind, draw_bind, draw_bind]
    congr 1
    ext i
    exact ih i

instance : LawfulMonad (Draws ε) :=
  LawfulMonad.mk' (Draws ε) bind_pure (fun _ _ => rfl) bind_assoc

/-- A computation that ends with an exception. -/
def raise (e : ε) : Draws ε α := done (.error e)

@[simp] theorem raise_bind (e : ε) (f : α → Draws ε β) : raise e >>= f = raise e := rfl

/-- A uniform draw below `bound`; a zero bound throws. -/
def uniform (zero : ε) : ℕ → Draws ε ℕ
  | 0 => raise zero
  | n + 1 => draw n fun i => pure i.val

theorem uniform_bind_congr {zero : ε} {bound : ℕ} {f g : ℕ → Draws ε α}
    (h : ∀ i < bound, f i = g i) : uniform zero bound >>= f = uniform zero bound >>= g := by
  cases bound with
  | zero => rfl
  | succ n =>
    change (draw n fun i => f i.val) = draw n fun i => g i.val
    congr 1
    ext i
    exact h i.val i.isLt

/-- A uniform choice from a list. -/
def choice (zero : ε) (l : List ℕ) : Draws ε ℕ := do
  let i ← uniform zero l.length
  return l.getD i 0

/-- A loop that draws and folds, as all draws followed by the fold. -/
theorem foldlM_eq_mapM_bind (pick : γ → Draws ε α) (f : β → α → β) (init : β) (ws : List γ) :
    ws.foldlM (fun b w => do
      let v ← pick w
      return f b v) init =
      ws.mapM pick >>= fun vs => pure (vs.foldl f init) := by
  induction ws generalizing init with
  | nil => simp
  | cons w ws ih =>
    simp only [List.foldlM_cons, List.mapM_cons, LawfulMonad.bind_assoc, LawfulMonad.pure_bind, ih,
      List.foldl_cons]

/-- The results the computation can end with. -/
def Outcome : Draws ε α → Except ε α → Prop
  | done r, r' => r = r'
  | draw _ next, r' => ∃ i, Outcome (next i) r'

@[simp] theorem outcome_done {r r' : Except ε α} : (done r).Outcome r' ↔ r = r' := Iff.rfl

@[simp] theorem outcome_pure {a : α} {r : Except ε α} :
    (pure a : Draws ε α).Outcome r ↔ .ok a = r := Iff.rfl

@[simp] theorem outcome_draw {n : ℕ} {next : Fin (n + 1) → Draws ε α} {r : Except ε α} :
    (draw n next).Outcome r ↔ ∃ i, (next i).Outcome r := Iff.rfl

theorem outcome_uniform {zero : ε} {bound : ℕ} (h : 0 < bound) {r : Except ε ℕ} :
    (uniform zero bound).Outcome r ↔ ∃ i < bound, .ok i = r := by
  cases bound with
  | zero => omega
  | succ n =>
    simp only [uniform, outcome_draw, outcome_pure]
    constructor
    · rintro ⟨i, hi⟩
      exact ⟨i.val, i.isLt, hi⟩
    · rintro ⟨i, hlt, hi⟩
      exact ⟨⟨i, hlt⟩, hi⟩

/-- When the first part never throws, outcomes compose. -/
theorem outcome_bind {t : Draws ε α} {f : α → Draws ε β} {r : Except ε β} :
    (t >>= f).Outcome r ↔
      (∃ a, t.Outcome (.ok a) ∧ (f a).Outcome r) ∨ ∃ e, t.Outcome (.error e) ∧ .error e = r := by
  induction t with
  | done r' => cases r' <;> simp
  | draw n next ih =>
    simp only [draw_bind, outcome_draw, ih]
    grind

/-- Only the first part, or the second after it, can throw. -/
theorem not_outcome_error_bind {t : Draws ε α} {f : α → Draws ε β} {e : ε}
    (ht : ∀ e, ¬ t.Outcome (.error e)) (hf : ∀ a, t.Outcome (.ok a) → ¬ (f a).Outcome (.error e)) :
    ¬ (t >>= f).Outcome (.error e) := by
  rw [outcome_bind]
  rintro (⟨a, ha, hb⟩ | ⟨e', he, -⟩)
  · exact hf a ha hb
  · exact ht e' he

theorem outcome_ok_bind {t : Draws ε α} {f : α → Draws ε β} {b : β} :
    (t >>= f).Outcome (.ok b) ↔ ∃ a, t.Outcome (.ok a) ∧ (f a).Outcome (.ok b) := by
  simp [outcome_bind]

@[simp] theorem outcome_bind_pure {t : Draws ε α} {f : α → β} {r : Except ε β} :
    (t >>= fun a => pure (f a)).Outcome r ↔ ∃ r', t.Outcome r' ∧ r'.map f = r := by
  rw [outcome_bind]
  constructor
  · rintro (⟨a, ha, rfl⟩ | ⟨e, he, rfl⟩)
    · exact ⟨.ok a, ha, rfl⟩
    · exact ⟨.error e, he, rfl⟩
  · rintro ⟨r', hr, rfl⟩
    cases r' with
    | error e => exact .inr ⟨e, hr, rfl⟩
    | ok a => exact .inl ⟨a, hr, rfl⟩

theorem outcome_choice {zero : ε} {l : List ℕ} (h : 0 < l.length) {r : Except ε ℕ} :
    (choice zero l).Outcome r ↔ ∃ x ∈ l, .ok x = r := by
  rw [choice, outcome_bind]
  simp only [outcome_uniform h, outcome_pure, Except.ok.injEq, reduceCtorEq, and_false, exists_false,
    false_and, or_false]
  constructor
  · rintro ⟨a, ⟨i, hi, rfl⟩, rfl⟩
    exact ⟨_, List.getD_eq_getElem l 0 hi ▸ List.getElem_mem hi, rfl⟩
  · rintro ⟨x, hx, rfl⟩
    obtain ⟨i, hi, rfl⟩ := List.getElem_of_mem hx
    exact ⟨i, ⟨i, hi, rfl⟩, by rw [List.getD_eq_getElem l 0 hi]⟩

theorem outcome_mapM_ok {pick : γ → Draws ε α} {ws : List γ} {vs : List α} :
    (ws.mapM pick).Outcome (.ok vs) ↔
      List.Forall₂ (fun w v => (pick w).Outcome (.ok v)) ws vs := by
  induction ws generalizing vs with
  | nil => simp [eq_comm]
  | cons w ws ih =>
    simp only [List.mapM_cons, outcome_ok_bind, ih, outcome_pure, Except.ok.injEq,
      List.forall₂_cons_left_iff]
    constructor
    · rintro ⟨v, hv, vs', hvs, rfl⟩
      exact ⟨v, vs', hv, hvs, rfl⟩
    · rintro ⟨v, vs', hv, hvs, rfl⟩
      exact ⟨v, hv, vs', hvs, rfl⟩

theorem not_outcome_error_mapM {pick : γ → Draws ε α} {ws : List γ} {e : ε}
    (h : ∀ w ∈ ws, ∀ e, ¬ (pick w).Outcome (.error e)) : ¬ (ws.mapM pick).Outcome (.error e) := by
  induction ws generalizing e with
  | nil => simp
  | cons w ws ih =>
    rw [List.mapM_cons]
    apply not_outcome_error_bind (h w (by simp))
    intro v _
    apply not_outcome_error_bind fun e => ih fun w' hw' => h w' (by simp [hw'])
    intro vs _
    simp

section Probability
open scoped Classical NNReal ENNReal

/-- The distribution of the result under independent uniform draws. -/
noncomputable def toPMF : Draws ε α → PMF (Except ε α)
  | done r => PMF.pure r
  | draw n next => (PMF.uniformOfFintype (Fin (n + 1))).bind fun i => (next i).toPMF

/-- The probability of one result, as a finite average over the tree. -/
noncomputable def prob : Draws ε α → Except ε α → ℝ≥0
  | done r, r' => if r = r' then 1 else 0
  | draw n next, r' => (∑ i, (next i).prob r') / (n + 1 : ℕ)

theorem toPMF_apply (t : Draws ε α) (r : Except ε α) : t.toPMF r = (t.prob r : ℝ≥0∞) := by
  induction t with
  | done r' =>
    rw [toPMF, prob, PMF.pure_apply]
    split_ifs <;> simp_all
  | draw n next ih =>
    have hn : ((n + 1 : ℕ) : ℝ≥0) ≠ 0 := by positivity
    rw [toPMF, prob, PMF.bind_apply, tsum_fintype, ENNReal.coe_div hn, ENNReal.ofNNReal_finsetSum,
      ENNReal.div_eq_inv_mul, Finset.mul_sum]
    apply Finset.sum_congr rfl
    intro i _
    rw [PMF.uniformOfFintype_apply, Fintype.card_fin, ih i, ENNReal.coe_natCast]

theorem prob_eq_zero {t : Draws ε α} {r : Except ε α} (h : ¬ t.Outcome r) : t.prob r = 0 := by
  induction t with
  | done r' => exact if_neg h
  | draw n next ih =>
    rw [outcome_draw, not_exists] at h
    rw [prob, Finset.sum_eq_zero fun i _ => ih i (h i), zero_div]

theorem prob_pure (a : α) (r : Except ε α) :
    (pure a : Draws ε α).prob r = if .ok a = r then 1 else 0 := rfl

theorem prob_uniform_bind {zero : ε} {bound : ℕ} (h : 0 < bound) (f : ℕ → Draws ε α)
    (r : Except ε α) :
    (uniform zero bound >>= f).prob r = (∑ i ∈ Finset.range bound, (f i).prob r) / bound := by
  cases bound with
  | zero => omega
  | succ n =>
    change (draw n fun i => f i.val).prob r = _
    rw [prob, Finset.sum_range]

theorem prob_uniform {zero : ε} {bound i : ℕ} (h : i < bound) :
    (uniform zero bound).prob (.ok i) = (bound : ℝ≥0)⁻¹ := by
  rw [← bind_pure (uniform zero bound), prob_uniform_bind (Nat.zero_lt_of_lt h)]
  simp only [prob_pure, Except.ok.injEq]
  rw [Finset.sum_ite_eq' (Finset.range bound) i, if_pos (Finset.mem_range.mpr h), one_div]

theorem prob_choice {zero : ε} {l : List ℕ} (hpos : 0 < l.length) (hnodup : l.Nodup) (y : ℕ) :
    (choice zero l).prob (.ok y) = if y ∈ l then (l.length : ℝ≥0)⁻¹ else 0 := by
  rw [choice, prob_uniform_bind hpos]
  simp only [prob_pure, Except.ok.injEq]
  split_ifs with hy
  · obtain ⟨k, hk, rfl⟩ := List.getElem_of_mem hy
    rw [Finset.sum_eq_single k, if_pos (List.getD_eq_getElem l 0 hk), one_div]
    · intro i hi hne
      rw [Finset.mem_range] at hi
      rw [if_neg]
      intro heq
      rw [List.getD_eq_getElem l 0 hi, hnodup.getElem_inj_iff] at heq
      exact hne heq
    · intro hnot
      exact absurd (Finset.mem_range.mpr hk) hnot
  · rw [Finset.sum_eq_zero, zero_div]
    intro i hi
    rw [Finset.mem_range] at hi
    rw [if_neg]
    rintro rfl
    exact hy (List.getD_eq_getElem l 0 hi ▸ List.getElem_mem hi)

/-- Only one possible intermediate value leads to the result. -/
theorem prob_bind_single (t : Draws ε α) {f : α → Draws ε β} {a : α} {b : β}
    (h : ∀ a', t.Outcome (.ok a') → a' ≠ a → (f a').prob (.ok b) = 0) :
    (t >>= f).prob (.ok b) = t.prob (.ok a) * (f a).prob (.ok b) := by
  induction t with
  | done r =>
    cases r with
    | error e => simp [prob]
    | ok a' =>
      rw [done_ok_bind]
      by_cases ha : a' = a
      · rw [ha, prob, if_pos rfl, one_mul]
      · rw [h a' rfl ha, prob, if_neg (by simpa using ha), zero_mul]
  | draw n next ih =>
    have hstep : ∀ i, (next i >>= f).prob (.ok b) = (next i).prob (.ok a) * (f a).prob (.ok b) :=
      fun i => ih i fun a' ha' => h a' ⟨i, ha'⟩
    rw [draw_bind, prob, prob, Finset.sum_congr rfl fun i _ => hstep i, ← Finset.sum_mul,
      mul_div_right_comm]

theorem prob_bind_zero (t : Draws ε α) {f : α → Draws ε β} {b : β}
    (h : ∀ a, t.Outcome (.ok a) → (f a).prob (.ok b) = 0) : (t >>= f).prob (.ok b) = 0 := by
  induction t with
  | done r =>
    cases r with
    | error e => simp [prob]
    | ok a => exact h a rfl
  | draw n next ih =>
    rw [draw_bind, prob, Finset.sum_eq_zero fun i _ => ih i fun a ha => h a ⟨i, ha⟩, zero_div]

/-- A list of independent choices of which exactly one possible list leads to the result. -/
theorem prob_mapM_bind_single {pick : γ → Draws ε α} {f : List α → Draws ε β} {b : β}
    (ws : List γ) (ys : List α) (hlen : ws.length = ys.length)
    (h : ∀ vs, (ws.mapM pick).Outcome (.ok vs) → vs ≠ ys → (f vs).prob (.ok b) = 0) :
    (ws.mapM pick >>= f).prob (.ok b) =
      (List.zipWith (fun w y => (pick w).prob (.ok y)) ws ys).prod * (f ys).prob (.ok b) := by
  induction ws generalizing ys f with
  | nil =>
    cases ys with
    | nil => simp
    | cons y ys => simp at hlen
  | cons w ws ih =>
    cases ys with
    | nil => simp at hlen
    | cons y ys =>
      have hstep : (w :: ws).mapM pick >>= f =
          pick w >>= fun v => ws.mapM pick >>= fun vs => f (v :: vs) := by
        simp
      have hcons : ∀ {v vs}, (pick w).Outcome (.ok v) → (ws.mapM pick).Outcome (.ok vs) →
          ((w :: ws).mapM pick).Outcome (.ok (v :: vs)) := by
        intro v vs hv hvs
        rw [outcome_mapM_ok] at hvs ⊢
        exact .cons hv hvs
      by_cases hy : (pick w).Outcome (.ok y)
      · rw [hstep, prob_bind_single (a := y), ih ys (by simpa using hlen), List.zipWith_cons_cons,
          List.prod_cons, mul_assoc]
        · intro vs hvs hne
          exact h (y :: vs) (hcons hy hvs) (by simpa using hne)
        · intro v hv hne
          apply prob_bind_zero
          intro vs hvs
          exact h (v :: vs) (hcons hv hvs) (by simp [hne])
      · -- the first choice already excludes the list
        rw [hstep, List.zipWith_cons_cons, List.prod_cons, prob_eq_zero hy, zero_mul, zero_mul]
        apply prob_bind_zero
        intro v hv
        apply prob_bind_zero
        intro vs hvs
        apply h (v :: vs) (hcons hv hvs)
        rintro heq
        rw [List.cons.injEq] at heq
        exact hy (heq.1 ▸ hv)

/-- A list of `n` uniform draws. -/
def draws (zero : ε) (bound : ℕ) : ℕ → Draws ε (List ℕ)
  | 0 => pure []
  | n + 1 => do
    let x ← uniform zero bound
    let xs ← draws zero bound n
    return x :: xs

/-- The average of `g` over all lists of `n` numbers below `bound`. -/
noncomputable def mean (bound : ℕ) : ℕ → (List ℕ → ℝ≥0) → ℝ≥0
  | 0, g => g []
  | n + 1, g => (∑ x ∈ Finset.range bound, mean bound n fun xs => g (x :: xs)) / bound

theorem prob_draws_bind {zero : ε} {bound : ℕ} (h : 0 < bound) (n : ℕ)
    (f : List ℕ → Draws ε α) (r : Except ε α) :
    (draws zero bound n >>= f).prob r = mean bound n fun xs => (f xs).prob r := by
  induction n generalizing f with
  | zero => rfl
  | succ n ih =>
    have hstep : draws zero bound (n + 1) >>= f =
        uniform zero bound >>= fun x => draws zero bound n >>= fun xs => f (x :: xs) := by
      simp [draws]
    rw [hstep, prob_uniform_bind h, mean, Finset.sum_congr rfl fun x _ => ih fun xs => f (x :: xs)]

theorem mean_mul (bound n : ℕ) (g : List ℕ → ℝ≥0) (c : ℝ≥0) :
    mean bound n (fun xs => g xs * c) = mean bound n g * c := by
  induction n generalizing g with
  | zero => rfl
  | succ n ih =>
    rw [mean, mean, Finset.sum_congr rfl fun x _ => ih fun xs => g (x :: xs), ← Finset.sum_mul,
      mul_div_right_comm]

theorem mean_congr {bound n : ℕ} {g g' : List ℕ → ℝ≥0}
    (h : ∀ xs, xs.length = n → (∀ x ∈ xs, x < bound) → g xs = g' xs) :
    mean bound n g = mean bound n g' := by
  induction n generalizing g g' with
  | zero => exact h [] rfl (by simp)
  | succ n ih =>
    rw [mean, mean]
    congr 1
    apply Finset.sum_congr rfl
    intro x hx
    apply ih
    intro xs hlen hxs
    exact h (x :: xs) (by simp [hlen]) (by simpa using ⟨Finset.mem_range.mp hx, hxs⟩)

/-- The average of a product over the positions is the product of the averages. -/
theorem mean_prod (bound : ℕ) (hs : List (ℕ → ℝ≥0)) :
    mean bound hs.length (fun xs => (List.zipWith (fun h x => h x) hs xs).prod) =
      (hs.map fun h => (∑ x ∈ Finset.range bound, h x) / (bound : ℝ≥0)).prod := by
  induction hs with
  | nil => rfl
  | cons h hs ih =>
    have hstep : ∀ x, mean bound hs.length
        (fun xs => (List.zipWith (fun h x => h x) (h :: hs) (x :: xs)).prod) =
        (hs.map fun h => (∑ x ∈ Finset.range bound, h x) / (bound : ℝ≥0)).prod * h x := by
      intro x
      rw [← ih, ← mean_mul]
      apply mean_congr
      intro xs _ _
      rw [List.zipWith_cons_cons, List.prod_cons, mul_comm]
    rw [List.length_cons, mean, Finset.sum_congr rfl fun x _ => hstep x, ← Finset.mul_sum,
      List.map_cons, List.prod_cons, mul_comm, mul_div_right_comm]

end Probability

end Draws

end PqPsi.Lib
