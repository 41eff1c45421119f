import PqPsi.Permutation.ConsDefaults

/-!
# The round constants of `ConsPi`

A round adds its number and its party to the bits between the step and the
window. What does not fit into these bits is dropped, and the constructor
looks at their number through `lambda` only.
-/
namespace PqPsi.Permutation
open Lib.BitStream Lib.BitLists Lib.Exceptions Protocol

section Bits

theorem checkParams_gap {small : Small} {params : Params} (h : checkParams small params = .ok ()) :
    2 * params.lambda % 2 ^ 64 ≤ params.s ∧ 2 * params.lambda % 2 ^ 64 ≤ params.n - params.s := by
  simp only [checkParams, bind_eq_ok, throwIf_eq_ok, exists_and_left, exists_const] at h
  omega

theorem lt_two_pow_bitsNeeded (x : ℕ) : x < 2 ^ bitsNeeded x := by
  fun_induction bitsNeeded x with
  | case1 x h => omega
  | case2 x h ih =>
    rw [pow_succ]
    omega

theorem bitsNeeded_le {x k : ℕ} (hk : 0 < k) (h : x < 2 ^ k) : bitsNeeded x ≤ k := by
  fun_induction bitsNeeded x generalizing k with
  | case1 x hx => exact hk
  | case2 x hx ih =>
    cases k with
    | zero => exact absurd hk (Nat.lt_irrefl 0)
    | succ k =>
      rw [pow_succ] at h
      have hk' : 0 < k := by
        rcases Nat.eq_zero_or_pos k with rfl | hpos
        · omega
        · exact hpos
      exact Nat.succ_le_succ (ih hk' (by omega))

end Bits

namespace ConsPi
section Masks
variable {c : ConsPi} {data : List Byte} {off : ℕ}

/-- The bits that the constant of a round flips, from the end of the step to the end of the
window. -/
def roundMask (c : ConsPi) (round : ℕ) : List Bool :=
  (List.range (c.params.n - c.params.s)).map (c.roundBit round)

/-- The mask on the state seen from the offset. -/
def stateMask (c : ConsPi) (round : ℕ) : List Bool :=
  List.replicate c.params.s false ++ c.roundMask round ++
    List.replicate (c.params.N - c.params.n) false

@[simp] theorem length_roundMask (c : ConsPi) (round : ℕ) :
    (c.roundMask round).length = c.params.n - c.params.s := by
  simp [roundMask]

theorem length_stateMask (c : ConsPi) (round : ℕ) : (c.stateMask round).length = c.params.N := by
  have hs := c.s_le
  have hn := c.n_lt
  simp only [stateMask, List.length_append, List.length_replicate, length_roundMask]
  omega

theorem getElem_stateMask (c : ConsPi) (round : ℕ) {i : ℕ} (hi : i < (c.stateMask round).length) :
    (c.stateMask round)[i] =
      (decide (c.params.s ≤ i ∧ i < c.params.n) && c.roundBit round (i - c.params.s)) := by
  have hs := c.s_le
  simp only [stateMask, List.getElem_append, List.length_append, List.length_replicate,
    List.length_map, List.length_range, List.getElem_replicate, roundMask, List.getElem_map,
    List.getElem_range]
  split_ifs with hwindow hstep
  · have hno : ¬ c.params.s ≤ i := by omega
    simp [hno]
  · have hin : c.params.s ≤ i ∧ i < c.params.n := by omega
    simp [hin]
  · have hno : ¬ i < c.params.n := by omega
    simp [hno]

/-- A round adds its mask to the state seen from the offset, whatever the state is. -/
theorem xorRound_eq_stateMask (h : c.Fits data off) (round : ℕ) :
    (bitsOf (c.xorRound data off round)).rotate off =
      List.zipWith xor ((bitsOf data).rotate off) (c.stateMask round) := by
  have hlen := c.length_stateMask round
  have hN := h.length_eq
  rw [rotate_bitsOf_xorRound h]
  apply List.ext_getElem
  · simp [addRound, hlen, hN]
  · intro i hi hi'
    simp only [addRound, List.getElem_mapIdx, List.getElem_zipWith, getElem_stateMask]
    split_ifs with hin
    · rw [decide_eq_true hin, Bool.true_and]
    · rw [decide_eq_false hin, Bool.false_and, Bool.xor_false]

theorem stateMask_eq_iff {c c' : ConsPi} (hparams : c'.params = c.params) {round round' : ℕ} :
    c.stateMask round = c'.stateMask round' ↔
      ∀ j < c.params.n - c.params.s, c.roundBit round j = c'.roundBit round' j := by
  simp [stateMask, roundMask, hparams, List.map_inj_left]

end Masks

section Separation

theorem r_eq (c : ConsPi) : c.r - 1 = 5 * ((c.params.N - c.params.n) / c.params.s + 1) - 3 := by
  rw [r, t]
  omega

theorem one_le_r (c : ConsPi) : 1 ≤ c.r - 1 := by
  have ht : 1 ≤ c.t := Nat.le_add_left 1 _
  rw [r]
  omega

theorem roundBits_congr {c c' : ConsPi} (hparams : c'.params = c.params) :
    c'.roundBits = c.roundBits := by
  rw [roundBits, roundBits, r_eq, r_eq, hparams]

/-- The numbers of the rounds have no bit from `roundBits` on. -/
theorem testBit_round {c : ConsPi} {round j : ℕ} (hround : round ≤ c.r - 1)
    (hj : c.roundBits ≤ j) : round.testBit j = false := by
  apply Nat.testBit_lt_two_pow
  calc round ≤ c.r - 1 := hround
    _ < 2 ^ c.roundBits := lt_two_pow_bitsNeeded _
    _ ≤ 2 ^ j := Nat.pow_le_pow_right (by decide) hj

/-- The round functions of the two parties are told apart by their constants. -/
structure Separated (cs : Bool → ConsPi) : Prop where
  masks : ∀ {party party' : Bool} {round round' : ℕ}, 1 ≤ round → round ≤ (cs party).r - 1 →
    1 ≤ round' → round' ≤ (cs party').r - 1 →
    (cs party).stateMask round = (cs party').stateMask round' → party = party' ∧ round = round'
  parties : (List.range' 1 ((cs false).r - 1)).map (cs false).stateMask ≠
    (List.range' 1 ((cs true).r - 1)).map (cs true).stateMask

variable {cs : Bool → ConsPi} {params : Params}

/-- With a place for the party behind the round numbers no two constants agree. -/
theorem stateMask_inj (hparams : ∀ party, (cs party).params = params)
    (hparty : ∀ party, (cs party).party = party)
    (hroom : (cs false).roundBits < params.n - params.s) {party party' : Bool} {round round' : ℕ}
    (hr : round ≤ (cs party).r - 1) (hr' : round' ≤ (cs party').r - 1)
    (h : (cs party).stateMask round = (cs party').stateMask round') :
    party = party' ∧ round = round' := by
  have hbits : ∀ p, (cs p).roundBits = (cs false).roundBits := fun p =>
    roundBits_congr ((hparams p).trans (hparams false).symm)
  rw [stateMask_eq_iff ((hparams party').trans (hparams party).symm), hparams] at h
  simp only [roundBit, hparty, hbits] at h
  have hhigh : ∀ j, (cs false).roundBits ≤ j → round.testBit j = round'.testBit j := by
    intro j hj
    rw [testBit_round hr (by rwa [hbits]), testBit_round hr' (by rwa [hbits])]
  -- the bit behind the round numbers holds the party alone
  have hpp : party = party' := by
    have hat := h _ hroom
    rw [hhigh _ le_rfl] at hat
    simpa using hat
  subst hpp
  refine ⟨rfl, Nat.eq_of_testBit_eq fun j => ?_⟩
  rcases Nat.lt_or_ge j (cs false).roundBits with hj | hj
  · simpa using h j (by omega)
  · exact hhigh j hj

/-- Without such a place the two parties have the same constants. -/
theorem stateMask_congr_party (hparams : ∀ party, (cs party).params = params)
    (hroom : ¬ (cs false).roundBits < params.n - params.s) (round : ℕ) :
    (cs false).stateMask round = (cs true).stateMask round := by
  have hbits := roundBits_congr ((hparams true).trans (hparams false).symm)
  rw [stateMask_eq_iff ((hparams true).trans (hparams false).symm), hparams]
  intro j hj
  have hne : decide (j = (cs false).roundBits) = false := decide_eq_false (by omega)
  rw [roundBit, roundBit, hbits, hne, Bool.and_false, Bool.and_false]

theorem separated_iff (hparams : ∀ party, (cs party).params = params)
    (hparty : ∀ party, (cs party).party = party) :
    Separated cs ↔ (cs false).roundBits < params.n - params.s := by
  constructor
  · intro hsep
    by_contra hroom
    have heq := hsep.masks le_rfl (cs false).one_le_r le_rfl (cs true).one_le_r
      (stateMask_congr_party hparams hroom 1)
    exact absurd heq.1 (by decide)
  · intro hroom
    refine ⟨fun _ hr _ hr' h => stateMask_inj hparams hparty hroom hr hr' h, fun h => ?_⟩
    have hr := (cs false).one_le_r
    have hmem : (cs false).stateMask 1 ∈
        (List.range' 1 ((cs true).r - 1)).map (cs true).stateMask := by
      rw [← h]
      exact List.mem_map_of_mem (List.mem_range'_1.mpr ⟨le_rfl, by omega⟩)
    obtain ⟨round, hround, heq⟩ := List.mem_map.mp hmem
    rw [List.mem_range'_1] at hround
    have hparts := stateMask_inj hparams hparty hroom (by omega) (cs false).one_le_r heq
    exact absurd hparts.1 (by decide)

/-- A `lambda` that is not tiny and does not wrap, such as the default, leaves a bit for the
party. -/
theorem separated_of_lambda (hparams : ∀ party, (cs party).params = params)
    (hparty : ∀ party, (cs party).party = party) (hN : params.N < 2 ^ 64)
    (hlow : 32 ≤ params.lambda) (hhigh : params.lambda < 2 ^ 63) : Separated cs := by
  rw [separated_iff hparams hparty]
  have hgap := (checkParams_gap (cs false).accepted)
  rw [hparams, Nat.mod_eq_of_lt (by omega)] at hgap
  have ht : (params.N - params.n) / params.s ≤ 2 ^ 64 / 64 :=
    Nat.div_le_div (by omega) (by omega) (by decide)
  have hbits : (cs false).roundBits ≤ 61 := by
    apply bitsNeeded_le (by decide)
    rw [r_eq, hparams]
    omega
  omega

end Separation

end ConsPi

theorem consPi_party {smalls : Smalls} {params : Params} {party : Bool} {c : ConsPi}
    (h : consPi smalls params party.toNat = .ok c) : c.party = party := by
  unfold consPi at h
  split at h
  · cases h
    cases party <;> rfl
  · cases h

/-- The objects of the two parties add their masks to every state at every offset, and the masks
tell rounds and parties apart exactly when the window leaves a bit for the party. -/
theorem roundConstants_separated_iff {smalls : Smalls} {params : Params} {cs : Bool → ConsPi}
    (h : ∀ party, consPi smalls params party.toNat = .ok (cs party)) :
    (∀ party round off (data : List Byte), 8 * data.length = params.N → off < params.N →
      (bitsOf ((cs party).xorRound data off round)).rotate off =
        List.zipWith xor ((bitsOf data).rotate off) ((cs party).stateMask round)) ∧
    (ConsPi.Separated cs ↔
      bitsNeeded (5 * ((params.N - params.n) / params.s + 1) - 3) < params.n - params.s) := by
  have hparams : ∀ party, (cs party).params = params := fun party => (consPi_eq_ok (h party)).1
  constructor
  · intro party round off data hlen hoff
    rw [← hparams party] at hlen hoff
    exact ConsPi.xorRound_eq_stateMask ⟨hlen.symm, hoff⟩ round
  · rw [ConsPi.separated_iff hparams fun party => consPi_party (h party), ConsPi.roundBits,
      ConsPi.r_eq, hparams]

theorem roundConstants_separated_sneik :
    ∃ cs : Bool → ConsPi, (∀ party, consPi sneikSmalls sneikParams party.toNat = .ok (cs party)) ∧
      ConsPi.Separated cs := by
  choose cs hcs using fun party : Bool => exists_consPi_sneik party.toNat
  have hbits : bitsNeeded 322 ≤ 9 := bitsNeeded_le (by decide) (by decide)
  exact ⟨cs, hcs, (roundConstants_separated_iff hcs).2.mpr (Nat.lt_of_le_of_lt hbits (by decide))⟩

/-- With `lambda` zero the default step over Keccak is the whole window: no round has a constant,
and the two parties run one permutation. -/
theorem roundConstants_lambda_zero :
    defaults .keccak1600 6400 0 = .ok ⟨.keccak1600, 1600, 6400, 1600, 0⟩ ∧
      ∀ smalls : Smalls, ∃ cs : Bool → ConsPi,
        (∀ party : Bool, consPi smalls ⟨.keccak1600, 1600, 6400, 1600, 0⟩ party.toNat =
          .ok (cs party)) ∧
        ¬ ConsPi.Separated cs ∧ ∀ round, (cs false).stateMask round = (cs true).stateMask round := by
  have hdef : defaults .keccak1600 6400 0 = .ok ⟨.keccak1600, 1600, 6400, 1600, 0⟩ := by
    rw [defaults, widthOf, bestStep_self (by decide) (by decide) (by decide) (by decide), ok_bind,
      pure_eq_ok]
  refine ⟨hdef, fun smalls => ?_⟩
  choose cs hcs using fun party : Bool =>
    exists_consPi party.toNat (checkParams_defaults smalls hdef).2
  have hparams : ∀ party, (cs party).params = _ := fun party => (consPi_eq_ok (hcs party)).1
  refine ⟨cs, hcs, fun hsep => ?_, ConsPi.stateMask_congr_party hparams (Nat.not_lt_zero _)⟩
  rw [ConsPi.separated_iff hparams fun party => consPi_party (hcs party)] at hsep
  exact Nat.not_lt_zero _ hsep

end PqPsi.Permutation
