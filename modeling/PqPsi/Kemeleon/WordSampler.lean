import PqPsi.Common.Block
import PqPsi.Kemeleon.Cipher
import PqPsi.Lib.Rejection
import Mathlib.Data.FinEnum

/-!
# The sampler of the ciphertext encoder

`WordSampler` draws numbers below a bound from buffered random words. The
remainder of `2 ^ 32` is rejected from below, and what is left holds every
residue equally often. `randombytes_buf` writes the next words of a stream, 1024
at a time; the loop of `next` runs for a given number of rounds.
-/
namespace PqPsi.Kemeleon
open Lib Lib.Rejection

abbrev Word := BitVec 32

/-- The sampler, with the words that `randombytes_buf` has not written yet. -/
structure WordSampler where
  mBuf : Vector Word 1024
  mPos : ℕ
  random : Stream' Word
  pos_le : mPos ≤ 1024

namespace WordSampler

/-- A new sampler: its buffer counts as used up. -/
def start (random : Stream' Word) : WordSampler := ⟨Vector.replicate 1024 0, 1024, random, le_rfl⟩

/-- The call of `randombytes_buf` in `nextWord`. -/
def refill (s : WordSampler) : WordSampler :=
  if s.mPos = 1024 then
    { mBuf := Vector.ofFn fun i => s.random.get i
      mPos := 0
      random := s.random.drop 1024
      pos_le := Nat.zero_le _ }
  else s

theorem refill_lt (s : WordSampler) : s.refill.mPos < 1024 := by
  have hle := s.pos_le
  rw [refill]
  split_ifs with hpos
  · exact Nat.zero_lt_succ _
  · omega

def nextWord (s : WordSampler) : Word × WordSampler :=
  have hpos := s.refill_lt
  (s.refill.mBuf[s.refill.mPos], { s.refill with mPos := s.refill.mPos + 1, pos_le := hpos })

/-- The words below `lim` are rejected. -/
def lim (bound : Word) : Word := -bound % bound

/-- The loop of `next`; without a result it still runs after the given rounds. -/
def nextLoop (bound : Word) : ℕ → WordSampler → Option (Word × WordSampler)
  | 0, _ => none
  | fuel + 1, s =>
    let x := s.nextWord.1
    if x ≥ lim bound then some (x % bound, s.nextWord.2) else nextLoop bound fuel s.nextWord.2

def next (bound : Word) (fuel : ℕ) (s : WordSampler) : Except Err (Option (Word × WordSampler)) :=
  if bound = 0 then .error "Kemeleon sampler got zero bound" else .ok (nextLoop bound fuel s)

section Stream
variable {bound : Word} {s : WordSampler}

/-- The words still to be handed out: the rest of the buffer, then the stream. -/
def unread (s : WordSampler) : Stream' Word := s.mBuf.toList.drop s.mPos ++ₛ s.random

@[simp] theorem unread_start (random : Stream' Word) : (start random).unread = random := by
  rw [unread, start, List.drop_of_length_le Vector.length_toList.le, Stream'.nil_append_stream]

theorem toList_ofFn_get (random : Stream' Word) (n : ℕ) :
    (Vector.ofFn fun i : Fin n => random.get i).toList = random.take n := by
  rw [Vector.toList_ofFn]
  apply List.ext_getElem
  · rw [List.length_ofFn, Stream'.length_take]
  · intro i hi hi'
    rw [List.getElem_ofFn]
    have hlt : i < n := by rwa [Stream'.length_take] at hi'
    have hget := Stream'.getElem?_take (s := random) hlt
    rw [List.getElem?_eq_getElem hi', Option.some.injEq] at hget
    exact hget.symm

@[simp] theorem unread_refill (s : WordSampler) : s.refill.unread = s.unread := by
  rw [refill]
  split_ifs with hpos
  · rw [unread, unread, hpos, List.drop_zero, toList_ofFn_get, Stream'.append_take_drop,
      List.drop_of_length_le Vector.length_toList.le, Stream'.nil_append_stream]
  · rfl

/-- A word is taken from the front, also when the buffer has to be filled first. -/
theorem unread_nextWord (s : WordSampler) :
    s.unread = Stream'.cons s.nextWord.1 s.nextWord.2.unread := by
  have hpos : s.refill.mPos < s.refill.mBuf.toList.length := by
    rw [Vector.length_toList]
    exact s.refill_lt
  rw [← unread_refill, unread, List.drop_eq_getElem_cons hpos, Stream'.cons_append_stream]
  rfl

theorem nextWord_fst (s : WordSampler) : s.nextWord.1 = s.unread.head := by
  rw [unread_nextWord, Stream'.head_cons]

@[simp] theorem unread_nextWord_snd (s : WordSampler) : s.nextWord.2.unread = s.unread.tail := by
  rw [s.unread_nextWord, Stream'.tail_cons]

/-- The loop reads the stream as the plain search does. -/
theorem nextLoop_map (bound : Word) (fuel : ℕ) (s : WordSampler) :
    (nextLoop bound fuel s).map (fun out => (out.1, out.2.unread)) =
      (search (lim bound ≤ ·) fuel s.unread).map fun out => (out.1 % bound, out.2) := by
  induction fuel generalizing s with
  | zero => rfl
  | succ fuel ih =>
    rw [nextLoop, search, nextWord_fst]
    split_ifs with hx
    · simp
    · rw [ih, unread_nextWord_snd]

end Stream

section Words
variable {bound r : Word}

/-- Negation wraps, and the remainder is that of `2 ^ 32`. -/
theorem toNat_lim (hbound : 1 ≤ bound) : (lim bound).toNat = 2 ^ 32 % bound.toNat := by
  have hpos : 1 ≤ bound.toNat := hbound
  have hlt := bound.isLt
  have hneg : (-bound).toNat = 2 ^ 32 - bound.toNat := by
    rw [BitVec.toNat_neg, Nat.mod_eq_of_lt (by omega)]
  rw [lim, BitVec.toNat_umod, hneg, ← Nat.mod_eq_sub_mod hlt.le]

/-- Words are counted as the numbers below `2 ^ 32`. -/
theorem card_words {p : Word → Prop} (q : ℕ → Prop) [DecidablePred p] [DecidablePred q]
    (h : ∀ w, p w ↔ q w.toNat) :
    (Finset.univ.filter p).card = ((Finset.range (2 ^ 32)).filter q).card := by
  apply Finset.card_bij fun w _ => w.toNat
  · intro w hw
    exact Finset.mem_filter.mpr ⟨Finset.mem_range.mpr w.isLt, (h w).mp (Finset.mem_filter.mp hw).2⟩
  · intro w _ w' _ heq
    exact BitVec.eq_of_toNat_eq heq
  · intro x hx
    rw [Finset.mem_filter, Finset.mem_range] at hx
    have hx' : (BitVec.ofNat 32 x).toNat = x := by
      rw [BitVec.toNat_ofNat, Nat.mod_eq_of_lt hx.1]
    refine ⟨BitVec.ofNat 32 x, Finset.mem_filter.mpr ⟨Finset.mem_univ _, (h _).mpr ?_⟩, hx'⟩
    rw [hx']
    exact hx.2

theorem card_fiber (hbound : 1 ≤ bound) (hr : r < bound) :
    (fiber (lim bound ≤ ·) (· % bound) r).card = 2 ^ 32 / bound.toNat := by
  have hnat : ∀ w : Word, (lim bound ≤ w ∧ w % bound = r) ↔
      2 ^ 32 % bound.toNat ≤ w.toNat ∧ w.toNat % bound.toNat = r.toNat := by
    intro w
    rw [BitVec.le_def, toNat_lim hbound, ← BitVec.toNat_inj, BitVec.toNat_umod]
  have hIco : (Finset.range (2 ^ 32)).filter
      (fun x => 2 ^ 32 % bound.toNat ≤ x ∧ x % bound.toNat = r.toNat) =
      (Finset.Ico (2 ^ 32 % bound.toNat) (2 ^ 32)).filter (· % bound.toNat = r.toNat) := by
    ext x
    simp only [Finset.mem_filter, Finset.mem_range, Finset.mem_Ico]
    tauto
  rw [fiber, card_words (fun x => 2 ^ 32 % bound.toNat ≤ x ∧ x % bound.toNat = r.toNat) hnat, hIco,
    card_residue hr]

theorem card_rejections (hbound : 1 ≤ bound) :
    (rejections (lim bound ≤ ·)).card = 2 ^ 32 % bound.toNat := by
  have hnat : ∀ w : Word, ¬ lim bound ≤ w ↔ w.toNat < 2 ^ 32 % bound.toNat := by
    intro w
    rw [BitVec.le_def, toNat_lim hbound, not_le]
  have hrange : (Finset.range (2 ^ 32)).filter (· < 2 ^ 32 % bound.toNat) =
      Finset.range (2 ^ 32 % bound.toNat) := by
    have hle : 2 ^ 32 % bound.toNat ≤ 2 ^ 32 := Nat.mod_le _ _
    ext x
    simp only [Finset.mem_filter, Finset.mem_range]
    omega
  rw [rejections, card_words (· < 2 ^ 32 % bound.toNat) hnat, hrange, Finset.card_range]

theorem card_univ : Fintype.card Word = 2 ^ 32 := by
  have hall := card_words (p := fun _ => True) (fun _ => True) fun _ => Iff.rfl
  rwa [Finset.filter_true, Finset.filter_true, Finset.card_range] at hall

end Words

section Calls
variable {bound v : Word} {s s' : WordSampler} {fuel fuel' k : ℕ}

theorem next_eq (hbound : 1 ≤ bound) : next bound fuel s = .ok (nextLoop bound fuel s) := by
  apply if_neg
  rintro rfl
  exact absurd hbound (by decide)

/-- More rounds do not change a result. -/
theorem nextLoop_mono (h : nextLoop bound fuel s = some (v, s')) (hle : fuel ≤ fuel') :
    nextLoop bound fuel' s = some (v, s') := by
  induction fuel generalizing s fuel' with
  | zero => cases h
  | succ fuel ih =>
    obtain ⟨fuel', rfl⟩ : ∃ m, fuel' = m + 1 := ⟨fuel' - 1, by omega⟩
    rw [nextLoop] at h ⊢
    split_ifs at h ⊢ with hx
    · exact h
    · exact ih h (by omega)

/-- A result is that of the first accepted word, and the words up to it are gone. -/
theorem firstAccepted_of_nextLoop (h : nextLoop bound fuel s = some (v, s')) :
    ∃ k < fuel, FirstAccepted (lim bound ≤ ·) s.unread k ∧ v = s.unread.get k % bound ∧
      s'.unread = s.unread.drop (k + 1) := by
  have hmap := nextLoop_map bound fuel s
  rw [h, Option.map_some, eq_comm, Option.map_eq_some_iff] at hmap
  obtain ⟨⟨x, rest⟩, hsearch, hout⟩ := hmap
  obtain ⟨k, hk, hfirst, rfl, rfl⟩ := search_eq_some.mp hsearch
  exact ⟨k, hk, hfirst, (Prod.mk.inj hout).1.symm, (Prod.mk.inj hout).2.symm⟩

/-- The first accepted word ends the loop in its round. -/
theorem nextLoop_of_firstAccepted (h : FirstAccepted (lim bound ≤ ·) s.unread k) :
    ∃ s', s'.unread = s.unread.drop (k + 1) ∧
      nextLoop bound (k + 1) s = some (s.unread.get k % bound, s') := by
  have hsearch := search_eq_some.mpr ⟨k, Nat.lt_succ_self k, h, rfl, rfl⟩
  have hmap := nextLoop_map bound (k + 1) s
  rw [hsearch, Option.map_some, Option.map_eq_some_iff] at hmap
  obtain ⟨⟨v, s'⟩, hloop, hout⟩ := hmap
  obtain ⟨rfl, hunread⟩ := Prod.mk.inj hout
  exact ⟨s', hunread, hloop⟩

/-- A call ends if and only if the stream holds an accepted word. -/
theorem next_returns_iff (hbound : 1 ≤ bound) :
    (∃ fuel out, next bound fuel s = .ok (some out)) ↔ ∃ k, lim bound ≤ s.unread.get k := by
  constructor
  · rintro ⟨fuel, ⟨v, s'⟩, h⟩
    rw [next_eq hbound, Except.ok.injEq] at h
    obtain ⟨k, -, hfirst, -⟩ := firstAccepted_of_nextLoop h
    exact ⟨k, hfirst.accepted⟩
  · rintro ⟨k, hk⟩
    obtain ⟨k, hfirst⟩ := exists_firstAccepted (p := (lim bound ≤ ·)) hk
    obtain ⟨s', -, hloop⟩ := nextLoop_of_firstAccepted hfirst
    exact ⟨k + 1, _, (next_eq hbound).trans (congrArg Except.ok hloop)⟩

end Calls

/-- What `next` does for a bound: the accepted words hold every residue equally often and are the
greater part of all words, and a call from any state takes the words of the stream up to the first
accepted one. -/
structure Unbiased (bound : Word) : Prop where
  residues : ∀ r < bound, (Finset.univ.filter fun w : Word => lim bound ≤ w ∧ w % bound = r).card =
    2 ^ 32 / bound.toNat
  accepted : 2 ^ 32 < 2 * (Finset.univ.filter fun w : Word => lim bound ≤ w).card
  start : ∀ random, (start random).unread = random
  returns : ∀ (s : WordSampler) (k : ℕ), FirstAccepted (lim bound ≤ ·) s.unread k →
    ∃ s', s'.unread = s.unread.drop (k + 1) ∧
      ∀ fuel, k < fuel → next bound fuel s = .ok (some (s.unread.get k % bound, s'))
  returned : ∀ (s s' : WordSampler) (fuel : ℕ) (v : Word),
    next bound fuel s = .ok (some (v, s')) → v < bound ∧
      ∃ k, FirstAccepted (lim bound ≤ ·) s.unread k ∧ v = s.unread.get k % bound ∧
        s'.unread = s.unread.drop (k + 1)

theorem unbiased {bound : Word} (hbound : 1 ≤ bound) : Unbiased bound where
  residues _ hr := card_fiber hbound hr
  accepted := by
    have hsplit : _ + (rejections (lim bound ≤ ·)).card = _ :=
      Finset.card_filter_add_card_filter_not (s := Finset.univ) (lim bound ≤ ·)
    have hless := two_mul_mod_lt (n := 2 ^ 32) hbound bound.isLt.le
    rw [card_rejections hbound, Finset.card_univ, card_univ] at hsplit
    omega
  start := unread_start
  returns s k h := by
    obtain ⟨s', hunread, hloop⟩ := nextLoop_of_firstAccepted h
    refine ⟨s', hunread, fun fuel hk => ?_⟩
    rw [next_eq hbound, nextLoop_mono hloop hk]
  returned s s' fuel v h := by
    rw [next_eq hbound, Except.ok.injEq] at h
    obtain ⟨k, -, hfirst, rfl, hunread⟩ := firstAccepted_of_nextLoop h
    refine ⟨?_, k, hfirst, rfl, hunread⟩
    rw [BitVec.lt_def, BitVec.toNat_umod]
    exact Nat.mod_lt _ hbound

theorem unbiased_three : Unbiased 3 := unbiased (by decide)

section Distribution
variable {bound r : Word}

/-- The sequences of random words from which a new sampler returns `r`. -/
theorem returns_eq_hits (bound r : Word) (rest : Stream' Word) (fuel : ℕ) :
    (Finset.univ.filter fun ws : Fin fuel → Word =>
      (nextLoop bound fuel (start (List.ofFn ws ++ₛ rest))).map Prod.fst = some r) =
      hits (lim bound ≤ ·) (· % bound) rest r fuel := by
  apply Finset.filter_congr
  intro ws _
  have hmap := congrArg (Option.map Prod.fst)
    (nextLoop_map bound fuel (start (List.ofFn ws ++ₛ rest)))
  rw [Option.map_map, Option.map_map, unread_start] at hmap
  exact Eq.congr_left hmap

/-- Over uniform words the share of the runs that return `r` tends to the probability of the
draw that stands for `next` in the encoder. -/
theorem tendsto_next (hr : r < bound) (rest : Stream' Word) :
    Filter.Tendsto
      (fun fuel => ((Finset.univ.filter fun ws : Fin fuel → Word =>
        (nextLoop bound fuel (start (List.ofFn ws ++ₛ rest))).map Prod.fst = some r).card : ℝ) /
          (2 ^ 32 : ℝ) ^ fuel)
      Filter.atTop (nhds ((Kemeleon.next bound.toNat).prob (.ok r.toNat) : ℝ)) := by
  have hbound : 1 ≤ bound.toNat := Nat.succ_le_of_lt (Nat.lt_of_le_of_lt (Nat.zero_le _) hr)
  have hcard : 2 ^ 32 / bound.toNat * bound.toNat + (rejections (lim bound ≤ ·)).card =
      Fintype.card Word := by
    rw [card_rejections hbound, card_univ, mul_comm, Nat.div_add_mod]
  have hlim := tendsto_card_hits rest (Nat.div_pos bound.isLt.le hbound) hbound
    (card_fiber hbound hr) hcard
  rw [Kemeleon.next, Draws.prob_uniform hr, NNReal.coe_inv, NNReal.coe_natCast, ← one_div]
  simpa only [returns_eq_hits, card_univ, Nat.cast_pow, Nat.cast_ofNat] using hlim

end Distribution

end WordSampler

end PqPsi.Kemeleon
