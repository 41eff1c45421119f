import PqPsi.Lib.Runs

/-!
# Teams of workers

The workers of a team share a memory. A turn of a worker changes the memory
and its own state; which worker takes the next turn is open. Every worker
keeps an assertion about the memory. A turn of one worker leaves the
assertions of the others intact when the workers own parts that are apart.
-/
namespace PqPsi.Lib.Teams
open Runs

variable {σ ω α ρ : Type}

structure Team (σ ω : Type) where
  shared : σ
  workers : List ω

namespace Team
variable (turn : σ → ω → α → Option (σ × ω))

/-- Worker `a.1` takes a turn. -/
def step (s : Team σ ω) (a : ℕ × α) : Option (Team σ ω) :=
  match s.workers[a.1]? with
  | none => none
  | some w => (turn s.shared w a.2).map fun r => ⟨r.1, s.workers.set a.1 r.2⟩

variable {turn}

theorem step_cases {s s' : Team σ ω} {a : ℕ × α} (h : step turn s a = some s') :
    ∃ w m w', s.workers[a.1]? = some w ∧ turn s.shared w a.2 = some (m, w') ∧
      s' = ⟨m, s.workers.set a.1 w'⟩ := by
  unfold step at h
  cases hw : s.workers[a.1]? with
  | none => simp [hw] at h
  | some w =>
    rw [hw] at h
    obtain ⟨⟨m, w'⟩, hturn, rfl⟩ := Option.map_eq_some_iff.mp h
    exact ⟨w, m, w', rfl, hturn, rfl⟩

/-- A worker that can take a turn takes it in the team. -/
theorem step_of_turn {s : Team σ ω} {k : ℕ} {a : α} {w : ω} {r : σ × ω}
    (hw : s.workers[k]? = some w) (h : turn s.shared w a = some r) :
    step turn s (k, a) = some ⟨r.1, s.workers.set k r.2⟩ := by
  simp only [step, hw, h, Option.map_some]

/-- The others are still there after a turn. -/
theorem mem_set_of_ne {ws : List ω} {k : ℕ} {w w' u : ω} (hk : ws[k]? = some w) (hu : u ∈ ws)
    (hne : u ≠ w) : u ∈ ws.set k w' := by
  obtain ⟨j, hj⟩ := List.mem_iff_getElem?.mp hu
  refine List.mem_iff_getElem?.mpr ⟨j, ?_⟩
  rw [List.getElem?_set_ne fun hkj => hne ?_]
  · exact hj
  · subst hkj
    exact Option.some.inj (hj.symm.trans hk)

section Outline
variable (turn)

/-- A proof outline: what a turn of one worker does to the memory, to its own assertion and to
those of the workers whose parts are apart from its own. -/
structure Outline (own : ω → ρ) (apart : ρ → ρ → Prop) (Shaped : σ → Prop)
    (Holds : σ → ω → Prop) : Prop where
  symm : ∀ {a b}, apart a b → apart b a
  own_eq : ∀ {m w a m' w'}, turn m w a = some (m', w') → own w' = own w
  keeps : ∀ {m w a m' w'}, Shaped m → Holds m w → turn m w a = some (m', w') →
    Shaped m' ∧ Holds m' w'
  frame : ∀ {m w a m' w' u}, Shaped m → Holds m w → turn m w a = some (m', w') →
    apart (own w) (own u) → Holds m u → Holds m' u

/-- The assertions of all workers, who own the parts they had at the start. -/
structure Inv (own : ω → ρ) (Shaped : σ → Prop) (Holds : σ → ω → Prop) (owns : List ρ)
    (s : Team σ ω) : Prop where
  shaped : Shaped s.shared
  owns_eq : s.workers.map own = owns
  holds : ∀ w ∈ s.workers, Holds s.shared w

variable {turn} {own : ω → ρ} {apart : ρ → ρ → Prop} {Shaped : σ → Prop} {Holds : σ → ω → Prop}
  {owns : List ρ}

/-- Every turn keeps the assertions, that of its worker and those of the others. -/
theorem Outline.inv_step (o : Outline turn own apart Shaped Holds) (howns : owns.Pairwise apart)
    {s s' : Team σ ω} {a : ℕ × α} (hinv : Inv own Shaped Holds owns s)
    (h : step turn s a = some s') : Inv own Shaped Holds owns s' := by
  obtain ⟨w, m, w', hw, hturn, rfl⟩ := step_cases h
  obtain ⟨hk, hget⟩ := List.getElem?_eq_some_iff.mp hw
  have hmem : w ∈ s.workers := List.mem_of_getElem? hw
  obtain ⟨hshaped, hholds⟩ := o.keeps hinv.shaped (hinv.holds w hmem) hturn
  refine ⟨hshaped, ?_, fun u hu => ?_⟩
  · have hk' : a.1 < (s.workers.map own).length := by simpa using hk
    have hself := List.set_getElem_self hk'
    rw [List.getElem_map, hget] at hself
    rw [List.map_set, o.own_eq hturn, hself]
    exact hinv.owns_eq
  · obtain ⟨j, hj, rfl⟩ := List.mem_iff_getElem.mp hu
    rw [List.length_set] at hj
    rw [List.getElem_set]
    split_ifs with hjk
    · exact hholds
    · refine o.frame hinv.shaped (hinv.holds w hmem) hturn ?_ (hinv.holds _ (List.getElem_mem hj))
      rw [← hget]
      have hpair := List.pairwise_map.mp (hinv.owns_eq ▸ howns)
      rw [List.pairwise_iff_getElem] at hpair
      rcases Nat.lt_or_gt_of_ne hjk with hlt | hlt
      · exact hpair a.1 j hk hj hlt
      · exact o.symm (hpair j a.1 hj hk hlt)

end Outline

section Rank
variable {weight : ω → ℕ}

/-- A turn that makes its worker lighter makes the team lighter. -/
theorem sum_weight_set {ws : List ω} {k : ℕ} {w w' : ω} (hk : ws[k]? = some w)
    (h : weight w' < weight w) : ((ws.set k w').map weight).sum < (ws.map weight).sum := by
  induction ws generalizing k with
  | nil => simp at hk
  | cons u ws ih =>
    cases k with
    | zero =>
      obtain rfl : u = w := by simpa using hk
      simpa using h
    | succ k =>
      have hrest := ih (by simpa using hk)
      simpa using hrest

end Rank

end Team

end PqPsi.Lib.Teams
