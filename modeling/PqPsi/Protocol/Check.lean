import PqPsi.Okvs.Resolution
import PqPsi.Protocol.OwnPermutations
import PqPsi.Protocol.Prng

/-!
# The self check

`rbRun` draws a set for each party from one generator, runs both parties on
them and compares the count with the number of rows that the sets share. The
generator never repeats a block, so that the sets share exactly the rows that
the check expects, and only rows that pass by chance can make it fail.
-/
namespace PqPsi.Protocol
open Lib Lib.Buffers Lib.Exceptions Okvs Permutation.Aes

section Blocks

/-- Block `i` that a seed stands for. -/
def blockAt (seed : Block) (i : ℕ) : Block :=
  (AES.setKey seed).ecbEncBlock (toBlock 0 (BitVec.ofNat 64 i))

theorem window_stream (seed : Block) (i : ℕ) :
    window (stream seed) (16 * i) blockBytes = bytesOfBlock (blockAt seed i) := by
  rw [window, bytesOfBlock]
  refine List.map_congr_left fun j hj => ?_
  have hj : j < 16 := List.mem_range.mp hj
  have hdiv : (16 * i + j) / 16 = i := by omega
  have hmod : (16 * i + j) % 16 = j := by omega
  have hcounter : (0 : U64) + BitVec.ofNat 64 i = BitVec.ofNat 64 i := BitVec.zero_add _
  rw [stream, counterByte, hdiv, hmod, hcounter, blockAt]

/-- Reading block after block. -/
theorem getBlock_at {seed : Block} {i : ℕ} {g : PRNG} (h : At (stream seed) (16 * i) g) :
    g.getBlock.1 = blockAt seed i ∧ At (stream seed) (16 * (i + 1)) g.getBlock.2 := by
  obtain ⟨hbytes, hat⟩ := get_at h blockBytes
  refine ⟨?_, hat⟩
  change blockOfBytes (g.get blockBytes).1 = _
  rw [hbytes, window_stream, blockOfBytes_bytesOfBlock]

/-- Before the counter wraps no block comes twice. -/
theorem blockAt_inj {seed : Block} {i j : ℕ} (hi : i < 2 ^ 64) (hj : j < 2 ^ 64)
    (h : blockAt seed i = blockAt seed j) : i = j := by
  have hplain := congrArg (AESDec.setKey seed).ecbDecBlock h
  rw [blockAt, blockAt, ecbDecBlock_ecbEncBlock, ecbDecBlock_ecbEncBlock] at hplain
  have hlow := congrArg (BitVec.extractLsb' 0 64) hplain
  rw [toBlock, toBlock, BitVec.extractLsb'_append_eq_right, BitVec.extractLsb'_append_eq_right]
    at hlow
  have hnat := congrArg BitVec.toNat hlow
  rwa [BitVec.toNat_ofNat, BitVec.toNat_ofNat, Nat.mod_eq_of_lt hi, Nat.mod_eq_of_lt hj] at hnat

end Blocks

section Sets

def sameBlock (a b : Block) : Bool := bytesOfBlock a == bytesOfBlock b

def hasBlock (set : List Block) (x : Block) : Bool := set.any fun v => sameBlock v x

/-- `freshBlock`, with a bound on its draws. -/
def freshBlock (fuel : ℕ) (prng : PRNG) (forbidA forbidB : List Block) : Option (Block × PRNG) :=
  match fuel with
  | 0 => none
  | fuel + 1 =>
    let (x, prng) := prng.getBlock
    if !hasBlock forbidA x && !hasBlock forbidB x then some (x, prng)
    else freshBlock fuel prng forbidA forbidB

/-- The seed of the check. -/
def checkSeed : Block := 4253465#32 ++ 3434565#32 ++ 234435#32 ++ 23987045#32

/-- The generator and the sets of the two parties. -/
structure PairSets where
  prng : PRNG
  set0 : List Block
  set1 : List Block

namespace PairSets

/-- A turn of the first loop: one block for both parties. -/
def both (s : PairSets) (i : ℕ) : PairSets :=
  let (x, prng) := s.prng.getBlock
  let set1 := s.set1.set i x
  ⟨prng, s.set0.set i (set1.getD i 0), set1⟩

/-- A turn of the second loop: another block for the first party. -/
def miss (fuel : ℕ) (s : PairSets) (i : ℕ) : Option PairSets := do
  let (x, prng) ← freshBlock fuel s.prng s.set0 s.set1
  return { s with prng, set0 := s.set0.set i x }

end PairSets

/-- `makePairSets`, with a bound on the draws of each `freshBlock`. -/
def makePairSets (fuel n hitTarget : ℕ) (set0 set1 : List Block) :
    Option (List Block × List Block) := do
  let s := (List.range n).foldl PairSets.both ⟨.new checkSeed, resize set0 n 0, resize set1 n 0⟩
  let misses := if hitTarget > n then 0 else n - hitTarget
  let s ← (List.range misses).foldlM (PairSets.miss fuel) s
  return (s.set0, s.set1)

theorem hasBlock_iff {set : List Block} {x : Block} : hasBlock set x = true ↔ x ∈ set := by
  have hsame : ∀ v, sameBlock v x = true ↔ v = x := by
    intro v
    rw [sameBlock, beq_iff_eq]
    refine ⟨fun h => ?_, fun h => by rw [h]⟩
    rw [← blockOfBytes_bytesOfBlock v, h, blockOfBytes_bytesOfBlock]
  rw [hasBlock, List.any_eq_true]
  constructor
  · rintro ⟨v, hv, h⟩
    exact (hsame v).mp h ▸ hv
  · exact fun hx => ⟨x, hx, (hsame x).mpr rfl⟩

/-- A block that is new at the first draw is taken. -/
theorem freshBlock_eq {fuel : ℕ} (hfuel : 0 < fuel) {prng : PRNG} {forbidA forbidB : List Block}
    (hA : prng.getBlock.1 ∉ forbidA) (hB : prng.getBlock.1 ∉ forbidB) :
    freshBlock fuel prng forbidA forbidB = some prng.getBlock := by
  obtain ⟨fuel, rfl⟩ := Nat.exists_eq_succ_of_ne_zero hfuel.ne'
  rw [← hasBlock_iff, Bool.not_eq_true] at hA hB
  simp [freshBlock, hA, hB]

/-- Which block the first party holds at a place, when `m` of its blocks are its own. -/
def place (n m i : ℕ) : ℕ := if i < m then n + i else i

variable {n m : ℕ}

/-- The sets over a sequence of blocks when `m` blocks of the first party are its own. -/
def firstSet (b : ℕ → Block) (n m : ℕ) : List Block := (List.range n).map fun i => b (place n m i)

def secondSet (b : ℕ → Block) (n : ℕ) : List Block := (List.range n).map b

theorem firstSet_zero (b : ℕ → Block) (n : ℕ) : firstSet b n 0 = secondSet b n :=
  List.map_congr_left fun i _ => by rw [place, if_neg (Nat.not_lt_zero i)]

theorem firstSet_succ (b : ℕ → Block) (n m : ℕ) :
    (firstSet b n m).set m (b (n + m)) = firstSet b n (m + 1) := by
  apply List.ext_getElem (by simp [firstSet])
  intro i hi _
  rw [List.getElem_set]
  split_ifs with him
  · subst him
    simp [firstSet, place]
  · have hlt : i ≤ m ↔ i < m := by omega
    simp [firstSet, place, hlt]

theorem place_lt (hn : n < 2 ^ 63) {i : ℕ} (hi : i < n) : place n m i < 2 ^ 64 := by
  rw [place]
  split_ifs <;> omega

theorem mem_secondSet {i : ℕ} (hn : n < 2 ^ 63) (hi : i < 2 ^ 64) :
    blockAt checkSeed i ∈ secondSet (blockAt checkSeed) n ↔ i < n := by
  rw [secondSet, List.mem_map]
  constructor
  · rintro ⟨j, hj, hij⟩
    have hj := List.mem_range.mp hj
    rw [← blockAt_inj (by omega) hi hij]
    exact hj
  · exact fun h => ⟨i, List.mem_range.mpr h, rfl⟩

/-- The next block is in neither set. -/
theorem next_fresh (hn : n < 2 ^ 63) (hm : m < n) : blockAt checkSeed (n + m) ∉ firstSet (blockAt checkSeed) n m ∧
    blockAt checkSeed (n + m) ∉ secondSet (blockAt checkSeed) n := by
  constructor
  · rw [firstSet, List.mem_map]
    rintro ⟨i, hi, hplace⟩
    have hi := List.mem_range.mp hi
    have heq := blockAt_inj (place_lt hn hi) (by omega) hplace
    rw [place] at heq
    split_ifs at heq <;> omega
  · rw [mem_secondSet hn (by omega)]
    omega

theorem both_run (set0 set1 : List Block) :
    ∃ prng, (List.range n).foldl PairSets.both
        ⟨.new checkSeed, resize set0 n 0, resize set1 n 0⟩ = ⟨prng, secondSet (blockAt checkSeed) n, secondSet (blockAt checkSeed) n⟩ ∧
      At (stream checkSeed) (16 * n) prng := by
  have hrun : ∀ k ≤ n, ∃ prng, (List.range k).foldl PairSets.both
      ⟨.new checkSeed, resize set0 n 0, resize set1 n 0⟩ =
        ⟨prng, filled (blockAt checkSeed) (resize set0 n 0) k,
          filled (blockAt checkSeed) (resize set1 n 0) k⟩ ∧
      At (stream checkSeed) (16 * k) prng := by
    intro k
    induction k with
    | zero => exact fun _ => ⟨_, rfl, new_at checkSeed⟩
    | succ k ih =>
      intro hk
      obtain ⟨prng, hfold, hat⟩ := ih (by omega)
      obtain ⟨hx, hnext⟩ := getBlock_at hat
      refine ⟨prng.getBlock.2, ?_, hnext⟩
      rw [List.range_succ, List.foldl_append, hfold, List.foldl_cons, List.foldl_nil, PairSets.both]
      have hlen : ∀ set : List Block, k < (resize set n 0).length := fun set => by
        rw [length_resize]
        omega
      have hread : (filled (blockAt checkSeed) (resize set1 n 0) (k + 1)).getD k 0 =
          blockAt checkSeed k := by
        rw [filled, List.getD_append _ _ _ _ (by simp)]
        simp
      simp only [hx, filled_set (hlen set1), hread, filled_set (hlen set0)]
  obtain ⟨prng, hfold, hat⟩ := hrun n le_rfl
  have hfull : ∀ set : List Block, filled (blockAt checkSeed) (resize set n 0) n = secondSet (blockAt checkSeed) n := by
    intro set
    rw [filled, List.drop_of_length_le (by rw [length_resize]), List.append_nil, secondSet]
  rw [hfull, hfull] at hfold
  exact ⟨prng, hfold, hat⟩

/-- Each `freshBlock` takes its first draw. -/
theorem miss_run {fuel : ℕ} (hfuel : 0 < fuel) (hn : n < 2 ^ 63) {prng : PRNG}
    (hat : At (stream checkSeed) (16 * n) prng) (hm : m ≤ n) :
    ∃ prng', (List.range m).foldlM (PairSets.miss fuel) ⟨prng, secondSet (blockAt checkSeed) n, secondSet (blockAt checkSeed) n⟩ =
        some ⟨prng', firstSet (blockAt checkSeed) n m, secondSet (blockAt checkSeed) n⟩ ∧ At (stream checkSeed) (16 * (n + m)) prng' := by
  induction m with
  | zero => exact ⟨prng, by rw [firstSet_zero]; rfl, hat⟩
  | succ m ih =>
    obtain ⟨prng', hfold, hat'⟩ := ih (by omega)
    obtain ⟨hx, hnext⟩ := getBlock_at hat'
    obtain ⟨hfirst, hsecond⟩ := next_fresh hn hm
    refine ⟨prng'.getBlock.2, ?_, hnext⟩
    have hfresh := freshBlock_eq hfuel (hx ▸ hfirst) (hx ▸ hsecond)
    rw [List.range_succ, List.foldlM_append, hfold]
    simp only [Option.bind_eq_bind, Option.bind_some, List.foldlM_cons, List.foldlM_nil,
      PairSets.miss, hfresh, hx, firstSet_succ]
    rfl

theorem makePairSets_eq {fuel : ℕ} (hfuel : 0 < fuel) (hn : n < 2 ^ 63) (hitTarget : ℕ)
    (set0 set1 : List Block) : makePairSets fuel n hitTarget set0 set1 =
      some (firstSet (blockAt checkSeed) n (n - hitTarget), secondSet (blockAt checkSeed) n) := by
  obtain ⟨prng, hboth, hat⟩ := both_run (n := n) set0 set1
  obtain ⟨prng', hmiss, -⟩ := miss_run hfuel hn hat (Nat.sub_le n hitTarget)
  have hmisses : (if hitTarget > n then 0 else n - hitTarget) = n - hitTarget := by
    split_ifs <;> omega
  simp only [makePairSets, hboth, hmisses, hmiss]
  rfl

theorem place_inj {i j : ℕ} (hi : i < n) (hj : j < n) (h : place n m i = place n m j) : i = j := by
  simp only [place] at h
  split_ifs at h <;> omega

@[simp] theorem length_firstSet (b : ℕ → Block) : (firstSet b n m).length = n := by
  simp [firstSet]

@[simp] theorem length_secondSet (b : ℕ → Block) : (secondSet b n).length = n := by
  simp [secondSet]

theorem nodup_firstSet (hn : n < 2 ^ 63) (m : ℕ) : (firstSet (blockAt checkSeed) n m).Nodup := by
  refine List.Nodup.map_on ?_ List.nodup_range
  intro i hi j hj h
  rw [List.mem_range] at hi hj
  exact place_inj hi hj (blockAt_inj (place_lt hn hi) (place_lt hn hj) h)

/-- The blocks that the first party shares. -/
theorem firstSet_mem (hn : n < 2 ^ 63) {i : ℕ} (hi : i < (firstSet (blockAt checkSeed) n m).length) :
    (firstSet (blockAt checkSeed) n m)[i] ∈ secondSet (blockAt checkSeed) n ↔ m ≤ i := by
  rw [length_firstSet] at hi
  simp only [firstSet, List.getElem_map, List.getElem_range]
  rw [mem_secondSet hn (place_lt hn hi), place]
  split_ifs <;> omega

theorem card_ge (n m : ℕ) : (Finset.univ.filter fun i : Fin n => m ≤ i).card = n - m := by
  have hsplit := Finset.card_filter_add_card_filter_not (s := Finset.univ) fun i : Fin n => i.val < m
  simp only [Fin.card_filter_val_lt, not_lt, Finset.card_univ, Fintype.card_fin] at hsplit
  omega

/-- The sets of the check: both parties hold `n` different blocks, and the first party shares
those behind its own `n - hitTarget`. The loop of `freshBlock` never runs twice. -/
theorem makePairSets_spec {fuel : ℕ} (hfuel : 0 < fuel) (hn : n < 2 ^ 63) (hitTarget : ℕ)
    (old0 old1 : List Block) : ∃ set0 set1,
      makePairSets fuel n hitTarget old0 old1 = some (set0, set1) ∧
      set0.length = n ∧ set1.length = n ∧ set0.Nodup ∧ set1.Nodup ∧
      (∀ i : Fin set0.length, set0[i] ∈ set1 ↔ n - hitTarget ≤ i) ∧
      (Finset.univ.filter fun i : Fin set0.length => set0[i] ∈ set1).card = min hitTarget n := by
  have hmem : ∀ i : Fin (firstSet (blockAt checkSeed) n (n - hitTarget)).length,
      (firstSet (blockAt checkSeed) n (n - hitTarget))[i] ∈ secondSet (blockAt checkSeed) n ↔
        n - hitTarget ≤ i := fun i => firstSet_mem hn i.isLt
  refine ⟨_, _, makePairSets_eq hfuel hn hitTarget old0 old1, length_firstSet _,
    length_secondSet _, nodup_firstSet hn _, ?_, hmem, ?_⟩
  · rw [← firstSet_zero]
    exact nodup_firstSet hn 0
  · simp only [hmem]
    rw [card_ge, length_firstSet]
    omega

theorem makePairSets_spec_four : ∃ set0 set1,
    makePairSets 1 4 3 [] [] = some (set0, set1) ∧ set0.length = 4 ∧ set1.length = 4 ∧
    set0.Nodup ∧ set1.Nodup ∧ (∀ i : Fin set0.length, set0[i] ∈ set1 ↔ 4 - 3 ≤ i.val) ∧
    (Finset.univ.filter fun i : Fin set0.length => set0[i] ∈ set1).card = min 3 4 :=
  makePairSets_spec one_pos (by norm_num) 3 [] []

end Sets

section Runs
variable {F : Type} [Double F]

/-- The arguments that `rbRun` hands on to both parties, the `PQPSI_NET_CHANNELS` of the process,
and the randomness that the parties draw. -/
structure RbRun (F : Type) where
  prims : Primitives
  env : Env
  netChannels : Option ℕ
  rb : Option (RBParams F)
  pi : Option PiCfg
  kem : Option PsiKemKind
  keySeeds : KeySeeds
  encapSeeds : ℕ → List Byte

/-- The two threads of `rbRun`. -/
def RbRun.system (c : RbRun F) (n : ℕ) (set0 set1 : List Block) : System F where
  prims := c.prims
  env := c.env
  kem := c.kem
  pi := c.pi
  recvArgs := ⟨set0, n, c.rb, c.netChannels⟩
  sendArgs := ⟨set1, n, c.rb, c.netChannels⟩
  keySeeds := c.keySeeds
  encapSeeds := c.encapSeeds

/-- The hits that `rbRun` expects. -/
def wantedHits (n hitTarget : ℕ) : ℕ :=
  let hitTarget := if hitTarget = 2 ^ 64 - 1 then n - 1 else hitTarget
  if hitTarget > n then n else hitTarget

/-- `rbRun` over one order of the steps of its threads: what it returns, `got` and `want`. It
gives nothing before both threads are joined. -/
def rbRun (c : RbRun F) (fuel n hitTarget : ℕ) (acts : List Action) : Option (Bool × ℕ × ℕ) :=
  if n = 0 then some (true, 0, 0)
  else do
    let want := wantedHits n hitTarget
    let (set0, set1) ← makePairSets fuel n want [] []
    let s ← Runs.run (c.system n set0 set1).step (State.init F) acts
    match s.recv, s.send with
    | .done _ _ got, .done _ => some (got == want, got, want)
    | _, _ => none

theorem wantedHits_le (n hitTarget : ℕ) : wantedHits n hitTarget ≤ n := by
  rw [wantedHits]
  split_ifs <;> omega

theorem decoderUses_of_encoderUses (hcast : TruncatesAboveOne F) {env : Env} {params : RBParams F}
    {n columns bandWidth : ℕ} (hn : 1 ≤ n) (hcols : params.columns = 0 ∨ n ≤ params.columns)
    (h : EncoderUses env params n columns bandWidth) : DecoderUses params n columns bandWidth := by
  obtain ⟨info, hinfo, rfl, rfl⟩ := h
  obtain ⟨hsize, hwidth⟩ := rbInfoOf_shape hcast hn hinfo
  refine ⟨?_, hwidth⟩
  rw [hsize]
  exact (rbTableSize_agrees_iff params hn).mpr hcols

variable {c : RbRun F} {n : ℕ} {set0 set1 : List Block}

/-- Two sets of one size under one choice of parameters resolve one shape. -/
theorem RbRun.compatible (hcast : TruncatesAboveOne F) (hpos : 0 < n)
    (hcols : (c.rb.getD (rbParams F)).columns = 0 ∨ n ≤ (c.rb.getD (rbParams F)).columns)
    (h0 : set0.length = n) (h1 : set1.length = n) {r : RecvWaiting F} {msgs : List (List Byte)}
    (h : (c.system n set0 set1).recvStart = .ok (r, msgs)) :
    ∃ columns bandWidth, (c.system n set0 set1).Compatible columns bandWidth := by
  obtain ⟨hR, -⟩ := recvStart_spec h
  obtain ⟨info, hinfo, -⟩ := hR.rbInfoOf_eq
  have hrecv : (c.system n set0 set1).Shape (c.system n set0 set1).recvArgs info.columns
      info.bandWidth := ⟨info, hinfo, rfl, rfl⟩
  have huse : EncoderUses c.env (c.rb.getD (rbParams F)) n info.columns info.bandWidth := by
    rw [← h0]
    exact hrecv
  have hdec := decoderUses_of_encoderUses hcast hpos hcols huse
  refine ⟨info.columns, info.bandWidth, rfl, rfl, hrecv, ?_, ?_, ?_⟩
  · exact h0.symm ▸ hdec
  · exact h1.symm ▸ huse
  · exact h1.symm ▸ hdec

/-- Where nothing can go on and `Recv` did not throw, it has started. -/
theorem Inv.started {sys : System F} {s : State F} (hi : Inv sys s)
    (hstuck : ∀ a, sys.step s a = none) (hrecv : ∀ e r, s.recv ≠ .failed e r) :
    ∃ r, sys.recvStart = .ok (r, s.okvs1.sent) := by
  cases hr : s.recv with
  | idle => simpa [System.step, hr] using hstuck .recvStart
  | waiting r => exact ⟨r, hi.recv_sent r (by rw [hr]; rfl)⟩
  | done r rows hits => exact ⟨r, hi.recv_sent r (by rw [hr]; rfl)⟩
  | failed e r => exact absurd hr (hrecv e r)

/-- A run that is finished is what `rbRun` reports. -/
theorem rbRun_done {fuel hitTarget : ℕ} (hpos : 0 < n)
    (hsets : makePairSets fuel n (wantedHits n hitTarget) [] [] = some (set0, set1))
    {acts : List Action} {s : State F} (hs : (c.system n set0 set1).Reaches acts s)
    {r : RecvWaiting F} {rows : List Block} {hits : ℕ} {d : SendDone F}
    (hr : s.recv = .done r rows hits) (hd : s.send = .done d) :
    rbRun c fuel n hitTarget acts =
      some (hits == wantedHits n hitTarget, hits, wantedHits n hitTarget) := by
  have hrun : Runs.run (c.system n set0 set1).step (State.init F) acts = some s := hs
  simp only [rbRun, if_neg hpos.ne', hsets, Option.bind_eq_bind, Option.bind_some, hrun, hr, hd]

theorem card_lt_and {m : ℕ} (hm : m ≤ n) (p : ℕ → Bool) :
    (Finset.univ.filter fun i : Fin n => i < m ∧ p i = true).card = (List.range m).countP p := by
  have hcount := countP_range n fun i => decide (i < m) && p i
  simp only [Bool.and_eq_true, decide_eq_true_eq] at hcount
  rw [← hcount]
  obtain ⟨k, rfl⟩ := Nat.exists_eq_add_of_le hm
  have hlow : ∀ i ∈ List.range m, (decide (i < m) && p i) = true ↔ p i = true := by
    intro i hi
    simp [List.mem_range.mp hi]
  rw [List.range_add, List.countP_append, List.countP_congr hlow, List.countP_map]
  simp [Function.comp_def]

omit [Double F] in
/-- The rows that are shared and those that are not, counted over the sets of the check. -/
theorem RbRun.hits_eq (hn : n < 2 ^ 63) {want : ℕ} (hwant : want ≤ n) (p : ℕ → Bool) :
    let sys := c.system n (firstSet (blockAt checkSeed) n (n - want))
      (secondSet (blockAt checkSeed) n)
    (Finset.univ.filter fun i : Fin sys.recvArgs.set.length =>
        sys.recvArgs.set.get i ∈ sys.sendArgs.set).card +
      (Finset.univ.filter fun i : Fin sys.recvArgs.set.length =>
        sys.recvArgs.set.get i ∉ sys.sendArgs.set ∧ p i = true).card =
      want + (List.range (n - want)).countP p := by
  intro sys
  have hlen : sys.recvArgs.set.length = n := length_firstSet _
  have hmem : ∀ i : Fin sys.recvArgs.set.length,
      sys.recvArgs.set.get i ∈ sys.sendArgs.set ↔ n - want ≤ i := fun i => firstSet_mem hn i.isLt
  simp only [hmem, not_le]
  rw [card_ge, card_lt_and (by omega), hlen, Nat.sub_sub_self hwant]

/-- The self check, in any order of the steps of its threads: where they cannot go on and none of
them threw, it returns. When both encodings succeeded it counts the rows that the sets share and
those rows of the first party's own that pass by chance, and it succeeds exactly when there are
none of these. -/
theorem rbRun_counts (hcast : TruncatesAboveOne F) {k : Permutation.Feistel.Sponge}
    (hown : c.prims.makePi = makePi k) (hkem : c.prims.KemCorrect (c.kem.getD .obfMlKem))
    {fuel : ℕ} (hfuel : 0 < fuel) (hpos : 0 < n) (hn : n < 2 ^ 63)
    (hcols : (c.rb.getD (rbParams F)).columns = 0 ∨ n ≤ (c.rb.getD (rbParams F)).columns)
    (hitTarget : ℕ) :
    ∃ set0 set1, makePairSets fuel n (wantedHits n hitTarget) [] [] = some (set0, set1) ∧
    ∀ acts s, (c.system n set0 set1).Reaches acts s →
      ((∀ a, (c.system n set0 set1).step s a = none) → (∀ e r, s.recv ≠ .failed e r) →
        (∀ e, s.send ≠ .failed e) → ∃ result, rbRun c fuel n hitTarget acts = some result) ∧
      ∀ r rows hits d, s.recv = .done r rows hits → s.send = .done d →
        r.encoded = true → d.encoded = true →
        let chance := (List.range (n - wantedHits n hitTarget)).countP (r.hit c.prims rows)
        rbRun c fuel n hitTarget acts =
          some (chance == 0, wantedHits n hitTarget + chance, wantedHits n hitTarget) := by
  have hsets := makePairSets_eq hfuel hn (wantedHits n hitTarget) [] []
  refine ⟨_, _, hsets, fun acts s hs => ⟨fun hstuck hrecv hsend => ?_, ?_⟩⟩
  · obtain ⟨r, hstart⟩ := hs.inv.started hstuck hrecv
    obtain ⟨columns, bandWidth, hc⟩ :=
      RbRun.compatible hcast hpos hcols (length_firstSet _) (length_secondSet _) hstart
    obtain ⟨r, rows, hits, d, hr, hd⟩ := hs.inv.finished hc hstuck hrecv hsend
    exact ⟨_, rbRun_done hpos hsets hs hr hd⟩
  · intro r rows hits d hr hd henc henc'
    have hstart := hs.inv.recv_sent r (by rw [hr]; rfl)
    obtain ⟨columns, bandWidth, hc⟩ :=
      RbRun.compatible hcast hpos hcols (length_firstSet _) (length_secondSet _) hstart
    have hhits := hits_of_done hown hc hkem hs.inv hr hd henc henc'
    rw [RbRun.hits_eq hn (wantedHits_le n hitTarget)] at hhits
    rw [rbRun_done hpos hsets hs hr hd, hhits]
    have hzero : ∀ m k : ℕ, (m + k == m) = (k == 0) := by simp
    rw [hzero]
    rfl

/-- The first block of the check. -/
def checkBlock : Block := 0x1c7650adbfa691c9dc52883fe8faee50#128

/-- AES as a check on one row uses it: under the seeds of the OKVS on its block, and under its
block on the counters of the mask. -/
def checkAes : List ((Block × Block) × Block) :=
  [((48040894569132013023652617540#128, checkBlock), 0xd1837c00fd38342e04048f2b3dc95e5e#128),
    ((24471987230181219092578079158#128, checkBlock), 0x3753c33da6d254ed236a48dcb904f3f7#128),
    ((24471987230181219092578079157#128, checkBlock), 0x143e841a6b109ba6e2f8734eb877081a#128),
    ((checkBlock, 1#128), 0x3c761323d4c4ecf08d0daa19bf13dfb4#128),
    ((checkBlock, 2#128), 0x40435e9e3774eab580c6088fc98ba075#128),
    ((checkBlock, 3#128), 0x9bd125910c50b52b930c9fdc98964d5f#128)]

/-- A check over the curve, with Xoodoo itself. -/
def checkRun : RbRun ℚ where
  prims := { sessionPrims with makePi := makePi Permutation.Feistel.sampleSponge }
  env := ⟨fun key block => tabulate checkAes 0 (key, block), 8⟩
  netChannels := none
  rb := some sampleParams
  pi := (session [] []).pi
  kem := some .ecKem
  keySeeds := (session [] []).keySeeds
  encapSeeds := (session [] []).encapSeeds

theorem rbRun_counts_single : makePairSets 1 1 1 [] [] = some ([checkBlock], [checkBlock]) ∧
    ∃ s, (checkRun.system 1 [checkBlock] [checkBlock]).Reaches sessionActions s ∧
      rbRun checkRun 1 1 1 sessionActions = some (true, 1, 1) := by
  obtain ⟨set0, set1, hsets, hall⟩ := rbRun_counts (c := checkRun) (n := 1) truncatesAboveOne_rat rfl
    sessionPrims_kemCorrect one_pos one_pos (by norm_num) (.inr (by decide)) 1
  have hblock : blockAt checkSeed 0 = checkBlock := by decide +kernel
  have hdraw : makePairSets 1 1 1 [] [] = some ([checkBlock], [checkBlock]) := by
    rw [makePairSets_eq one_pos (by norm_num), ← hblock]
    rfl
  obtain ⟨rfl, rfl⟩ : [checkBlock] = set0 ∧ [checkBlock] = set1 := by
    simpa using hdraw.symm.trans hsets
  have heval : (Runs.run (checkRun.system 1 [checkBlock] [checkBlock]).step (State.init ℚ)
      sessionActions).map State.summary = some (some (true, true, 1)) := by
    decide +kernel
  obtain ⟨s, hs, hsum⟩ := Option.map_eq_some_iff.mp heval
  obtain ⟨r, rows, d, hr, hd, henc, henc'⟩ := State.summary_eq_some hsum
  exact ⟨hdraw, s, hs, (hall sessionActions s hs).2 r rows 1 d hr hd henc henc'⟩

end Runs

end PqPsi.Protocol
