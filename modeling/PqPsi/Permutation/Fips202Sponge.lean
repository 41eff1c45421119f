import PqPsi.Lib.BitLists
import PqPsi.Lib.Sponge
import PqPsi.Permutation.Fips202Rounds

/-!
# The functions of FIPS 202

`k` is a sponge over the bits of its lanes: the suffix byte holds the bits
that separate the functions and the first bit of the padding, and the last
byte of the block holds the other one. So its macros define SHA3 and SHAKE.
-/
namespace PqPsi.Permutation.Fips202
open Lib Lib.BitLists Lib.BitPoly Lib.BitStream Lib.Buffers Lib.Sponge Lib.Words
open Keccak (KeccakF)

section States

/-- The lanes as the state of a sponge on bits. -/
def bits (s : State) : KeccakP.Bits 64 := fun x y z =>
  ofBool ((lane s (x.val + 5 * y.val)).getLsbD z.val)

theorem bits_toTools (s : State) : bits s = tools.bits (toTools s) := by
  funext x y z
  have hplace : (Keccak.index x.val y.val).val = x.val + 5 * y.val := by
    revert x y
    decide
  have hbits : tools.bits (toTools s) x y z =
      ofBool ((lane s (Keccak.index x.val y.val).val).getLsbD z.val) := rfl
  rw [hbits, hplace, bits]

theorem masked_toTools (s : State) : tools.Masked (toTools s) :=
  fun _ _ hp => BitVec.getLsbD_of_ge _ _ hp

theorem bits_F (s : State) : bits (F s) = KeccakP.perm 0 24 (bits s) := by
  have hrefines := KeccakF.refines_forward (k := tools) (by decide) _ (masked_toTools s)
  rw [bits_toTools, bits_toTools, toTools_F]
  exact hrefines.2

theorem bits_zero : bits (Vector.replicate 25 0) = 0 := by
  have hlane : ∀ p, lane (Vector.replicate 25 0) p = 0#64 := by
    intro p
    by_cases hp : p < 25
    · rw [lane, vector_getD _ hp, Vector.getElem_replicate]
      rfl
    · simp [lane, Vector.getD, Array.getD, hp]
  funext x y z
  rw [bits, hlane, BitVec.getLsbD_zero]
  rfl

/-- Reading a bit of the state reads a bit of a lane. -/
theorem read_bits (s : State) {p : ℕ} (hp : p < 1600) :
    keccakParts.read (bits s) p = ofBool ((lane s (p / 64)).getLsbD (p % 64)) := by
  have hplace : p / 64 % 5 + 5 * (p / 320 % 5) = p / 64 := by omega
  have hread : keccakParts.read (bits s) p = bits s ((p / 64 : ℕ) : ZMod 5) ((p / 320 : ℕ) : ZMod 5)
    ((p : ℕ) : ZMod 64) := rfl
  rw [hread, bits, ZMod.val_natCast, ZMod.val_natCast, ZMod.val_natCast, hplace]

end States

section Strings

/-- The bits of bytes. -/
def str (m : List Byte) : Str := (bitsOf m).map ofBool

@[simp] theorem length_str (m : List Byte) : (str m).length = 8 * m.length := by
  rw [str, List.length_map, length_bitsOf]

theorem bit_str (m : List Byte) (p : ℕ) : bit (str m) p = ofBool (bitAt m p) := by
  by_cases hp : p < 8 * m.length
  · rw [bit, List.getD_eq_getElem _ _ (by simpa using hp)]
    simp only [str, List.getElem_map, getElem_bitsOf]
  · rw [bit, List.getD_eq_default _ _ (by simpa using hp), bitAt_of_ge (not_lt.mp hp)]
    rfl

/-- The bits of a string behind a front. -/
theorem bit_append (P Q : Str) (p : ℕ) :
    bit (P ++ Q) p = if p < P.length then bit P p else bit Q (p - P.length) := by
  split_ifs with hp
  · exact List.getD_append _ _ _ _ hp
  · exact List.getD_append_right _ _ _ _ (not_lt.mp hp)

theorem str_zipWith_xor {a b : List Byte} (h : a.length = b.length) :
    str (List.zipWith (· ^^^ ·) a b) = List.zipWith (· + ·) (str a) (str b) := by
  apply List.ext_getElem (by simp [h])
  intro p hp _
  have ha : p / 8 < a.length := by
    rw [length_str, List.length_zipWith] at hp
    omega
  simp only [str, List.getElem_map, getElem_bitsOf, List.getElem_zipWith, bitAt]
  rw [List.getD_eq_getElem _ _ (by simp; omega), List.getD_eq_getElem _ _ ha,
    List.getD_eq_getElem _ _ (by omega), List.getElem_zipWith, BitVec.getLsbD_xor, ofBool_xor]

theorem bitAt_drop (m : List Byte) (n p : ℕ) : bitAt (m.drop n) p = bitAt m (8 * n + p) := by
  have hdiv : (8 * n + p) / 8 = n + p / 8 := by omega
  have hmod : (8 * n + p) % 8 = p % 8 := by omega
  rw [bitAt, bitAt, hdiv, hmod]
  simp only [List.getD_eq_getElem?_getD, List.getElem?_drop]

end Strings

section Blocks

/-- A lane after the first `r` bytes were added. -/
theorem getLsbD_S (s : State) (x : List Byte) {r : ℕ} (hr : r ≤ 200) {i j : ℕ}
    (hj : j < 64) : (lane (S r s x) i).getLsbD j =
      ((lane s i).getLsbD j ^^ (decide (64 * i + j < 8 * r) && bitAt x (64 * i + j))) := by
  induction r with
  | zero => simp [S]
  | succ r ih =>
    have hbyte := getLsbD_byteAt (w := 64) (x.getD r 0) (r % 8) hj
    rw [Nat.mul_comm] at hbyte
    have hstep : S (r + 1) s x = (S r s x).setIfInBounds (r / 8)
        (lane (S r s x) (r / 8) ^^^ (x.getD r 0).setWidth 64 <<< (r % 8 * 8)) := by
      rw [S, List.range_succ, List.foldl_append]
      rfl
    rw [hstep, lane, vector_getD_setIfInBounds _ (by omega)]
    by_cases hlane : i = r / 8
    · rw [if_pos hlane, BitVec.getLsbD_xor, ← hlane, ih (by omega), hbyte]
      by_cases hnew : j / 8 = r % 8
      · have hpos : (64 * i + j) / 8 = r ∧ (64 * i + j) % 8 = j % 8 := by omega
        have hold : ¬ 64 * i + j < 8 * r := by omega
        have hlt : 64 * i + j < 8 * (r + 1) := by omega
        rw [decide_eq_false hold, decide_eq_true hlt, decide_eq_true hnew, bitAt, hpos.1, hpos.2]
        simp
      · have hsame : 64 * i + j < 8 * (r + 1) ↔ 64 * i + j < 8 * r := by omega
        rw [decide_eq_false hnew]
        simp [hsame]
    · have hsame : 64 * i + j < 8 * (r + 1) ↔ 64 * i + j < 8 * r := by omega
      rw [if_neg hlane]
      simp only [hsame]
      exact ih (by omega)

/-- The macro `S` adds a block of the sponge. -/
theorem bits_S (s : State) (x : List Byte) {r : ℕ} (hr : r ≤ 200) {P : Str} {i : ℕ}
    (hx : ∀ p < 8 * r, ofBool (bitAt x p) = bit P (8 * r * i + p)) :
    bits (S r s x) = bits s + keccakParts.embed (block (8 * r) P i) := by
  funext x' y z
  have hplace := ZMod.val_lt x'
  have hrow := ZMod.val_lt y
  have hz := ZMod.val_lt z
  have hindex : 64 * (x'.val + 5 * y.val) + z.val = 64 * (5 * y.val + x'.val) + z.val := by omega
  have hembed : keccakParts.embed (block (8 * r) P i) x' y z =
      block (8 * r) P i (64 * (5 * y.val + x'.val) + z.val) := rfl
  rw [Pi.add_apply, Pi.add_apply, Pi.add_apply, hembed, bits,
    getLsbD_S s x hr hz, ofBool_xor, hindex, block]
  congr 1
  split_ifs with hp
  · rw [decide_eq_true hp, Bool.true_and, hx _ hp]
  · rw [decide_eq_false hp, Bool.false_and]
    rfl

/-- The full blocks, and what is left. -/
theorem absorb_eq {r : ℕ} (hr : 0 < r) (s : State) (m : List Byte) : absorb r s m =
    ((List.range (m.length / r)).foldl (fun s i => F (S r s (m.drop (r * i)))) s,
      m.drop (r * (m.length / r))) := by
  induction s, m using absorb.induct r with
  | case1 s m h ih =>
    have hlen : m.length / r = (m.length - r) / r + 1 := Nat.div_eq_sub_div hr h.2
    rw [absorb, dif_pos h, ih, List.length_drop, hlen, List.range_succ_eq_map, List.foldl_cons,
      List.foldl_map]
    simp only [List.drop_drop, Nat.mul_succ, Nat.mul_zero, List.drop_zero, Nat.add_comm r]
  | case2 s m h =>
    have hzero : m.length / r = 0 := Nat.div_eq_of_lt (by omega)
    rw [absorb, dif_neg h, hzero]
    rfl

theorem lastBlock_eq {r : ℕ} {m : List Byte} (hm : m.length < 200) (p : Byte) :
    lastBlock r m p =
      (m ++ p :: List.replicate (199 - m.length) 0).modify (r - 1) (· ||| 128) := by
  have hroom : 0 + m.length ≤ (List.replicate 200 (0 : Byte)).length := by
    rw [List.length_replicate]
    omega
  have hfill := @foldl_set_filled _ (fun i => m.getD i 0) _ _ _ hroom
  have hself : (List.range m.length).map (fun i => m.getD i 0) = m := by
    apply List.ext_getElem (by simp)
    intro i _ hi
    simp [hi]
  have hrest : (List.replicate 200 (0 : Byte)).drop m.length = 0 :: List.replicate (199 - m.length) 0 := by
    have hsize : 200 - m.length = (199 - m.length) + 1 := by omega
    rw [List.drop_replicate, hsize, List.replicate_succ]
  rw [filled_zero, Nat.zero_add, ← List.range_eq_range', filled, hself, hrest] at hfill
  rw [lastBlock, hfill, List.set_append_right _ _ le_rfl, Nat.sub_self, List.set_cons_zero]

/-- The suffix byte holds the suffix and a one, the last byte of the block another one. -/
theorem bitAt_lastBlock {r : ℕ} (hr : r ≤ 200) {m : List Byte} (hm : m.length < r) (p : Byte)
    (q : ℕ) : bitAt (lastBlock r m p) q =
      ((if q < 8 * m.length then bitAt m q
        else if q < 8 * m.length + 8 then p.getLsbD (q - 8 * m.length) else false) ||
          decide (q + 1 = 8 * r)) := by
  have hlen : r - 1 < (m ++ p :: List.replicate (199 - m.length) 0).length := by
    simp only [List.length_append, List.length_cons, List.length_replicate]
    omega
  have htop : ∀ j < 8, (128 : Byte).getLsbD j = decide (j = 7) := by decide
  have hbyte : ∀ q, bitAt (p :: List.replicate (199 - m.length) 0) q =
      if q < 8 then p.getLsbD q else false := by
    intro q
    have hcons := bitAt_append [p] (List.replicate (199 - m.length) 0) q
    rw [List.singleton_append] at hcons
    rw [hcons]
    split_ifs with hq
    · have hdiv : q / 8 = 0 ∧ q % 8 = q := by
        rw [List.length_singleton] at hq
        omega
      rw [bitAt, hdiv.1, hdiv.2]
      rfl
    · rw [List.length_singleton] at hq
      omega
    · rw [List.length_singleton] at hq
      omega
    · exact bitAt_replicate_zero _ _
  have hlast : (decide (q / 8 = r - 1) && (128 : Byte).getLsbD (q % 8)) = decide (q + 1 = 8 * r) := by
    rw [htop _ (Nat.mod_lt q (by decide)), ← Bool.decide_and, decide_eq_decide]
    omega
  have hshift : q - 8 * m.length < 8 ↔ q < 8 * m.length + 8 := by omega
  rw [lastBlock_eq (by omega), bitAt_orAt hlen, hlast, bitAt_append, hbyte]
  simp only [hshift]

end Blocks

section Output

/-- Byte `i` of the output. -/
def outByte (r : ℕ) (s : State) (i : ℕ) : Byte :=
  (lane (F^[i / r + 1] s) (i % r / 8) >>> (8 * (i % 8))).setWidth 8

theorem squeezeStep_turns {r d : ℕ} (hr : 0 < r) (s : State) (h : Vector Byte d) {n : ℕ}
    (hn : n ≤ d) :
    let c := (List.range n).foldl (squeezeStep r) (s, h)
    c.1 = F^[(n + r - 1) / r] s ∧ ∀ i < n, c.2.getD i 0 = outByte r s i := by
  induction n with
  | zero =>
    have hzero : (0 + r - 1) / r = 0 := Nat.div_eq_of_lt (by omega)
    exact ⟨by rw [hzero]; rfl, nofun⟩
  | succ n ih =>
    obtain ⟨hstate, hbytes⟩ := ih (by omega)
    rw [List.range_succ, List.foldl_append, List.foldl_cons, List.foldl_nil]
    generalize (List.range n).foldl (squeezeStep r) (s, h) = c at hstate hbytes ⊢
    have hsucc : (n + 1 + r - 1) / r = n / r + 1 := by
      have heq : n + 1 + r - 1 = n + r := by omega
      rw [heq, Nat.add_div_right _ hr]
    have hF : (if n % r = 0 then F c.1 else c.1) = F^[n / r + 1] s := by
      have hdiv := Nat.div_add_mod n r
      rw [hstate]
      split_ifs with hmod
      · have hturn : (n + r - 1) / r = n / r := by
          apply Nat.div_eq_of_lt_le
          · rw [Nat.mul_comm]
            omega
          · rw [Nat.succ_mul, Nat.mul_comm]
            omega
        rw [hturn, Function.iterate_succ_apply']
      · have hlt := Nat.mod_lt n hr
        have hturn : (n + r - 1) / r = n / r + 1 := by
          apply Nat.div_eq_of_lt_le
          · rw [Nat.succ_mul, Nat.mul_comm]
            omega
          · rw [Nat.succ_mul, Nat.succ_mul, Nat.mul_comm]
            omega
        rw [hturn]
    rw [squeezeStep]
    simp only [hF]
    refine ⟨by rw [hsucc], fun i hi => ?_⟩
    rw [vector_getD_setIfInBounds _ (by omega)]
    split_ifs with heq
    · rw [heq]
      rfl
    · exact hbytes i (by omega)

/-- The output bytes hold the first bits of the states. -/
theorem ofBool_outByte {r : ℕ} (hr : 0 < r) (h8 : r % 8 = 0) (hle : r ≤ 200) (s : State) (n : ℕ) :
    ofBool ((outByte r s (n / 8)).getLsbD (n % 8)) =
      keccakParts.read (bits (F^[n / (8 * r) + 1] s)) (n % (8 * r)) := by
  have hturn : n / 8 / r = n / (8 * r) := Nat.div_div_eq_div_mul n 8 r
  have hmod : n % (8 * r) = 8 * (n / 8 % r) + n % 8 := by
    rw [Nat.mod_mul, Nat.add_comm]
  have hlt := Nat.mod_lt (n / 8) hr
  have hsame : n / 8 % 8 = n / 8 % r % 8 :=
    (Nat.mod_mod_of_dvd _ (Nat.dvd_of_mod_eq_zero h8)).symm
  have hdiv : (8 * (n / 8 % r) + n % 8) / 64 = n / 8 % r / 8 := by omega
  have hbit : (8 * (n / 8 % r) + n % 8) % 64 = 8 * (n / 8 % 8) + n % 8 := by omega
  have h8' : n % 8 < 8 := Nat.mod_lt n (by decide)
  rw [hmod, read_bits _ (by omega), hdiv, hbit, outByte, hturn, BitVec.getLsbD_setWidth,
    BitVec.getLsbD_ushiftRight, decide_eq_true h8', Bool.true_and]

end Output

section Padding
variable {r n : ℕ} {m rest : List Byte} {suffix : Str}

theorem length_padded_str (hm : m.length = r * n + rest.length) (hrest : rest.length < r)
    (hsuffix : suffix.length ≤ 6) :
    (padded (8 * r) (str m ++ suffix)).length = 8 * r * (n + 1) := by
  have hlen : (str m ++ suffix).length = 8 * r * n + (8 * rest.length + suffix.length) := by
    rw [List.length_append, length_str, hm, Nat.mul_assoc]
    omega
  have hlt : 8 * rest.length + suffix.length + 2 ≤ 8 * r := by omega
  have hdiv : (str m ++ suffix).length / (8 * r) = n := by
    rw [hlen, Nat.mul_add_div (by omega), Nat.div_eq_of_lt (by omega), Nat.add_zero]
  have hmod : (str m ++ suffix).length % (8 * r) = 8 * rest.length + suffix.length := by
    rw [hlen, Nat.mul_add_mod, Nat.mod_eq_of_lt (by omega)]
  rw [length_padded (by omega), hdiv]

theorem bit_padded_message (x : ℕ) {q : ℕ} (hq : q < 8 * m.length) :
    bit (padded x (str m ++ suffix)) q = ofBool (bitAt m q) := by
  have hlen : q < (str m ++ suffix).length := by
    rw [List.length_append, length_str]
    omega
  rw [bit_padded, if_pos hlen, bit_append, length_str, if_pos hq, bit_str]

/-- Behind the message there are the suffix, a one, and the one at the end. -/
theorem bit_padded_suffix (x i : ℕ) : bit (padded x (str m ++ suffix)) (8 * m.length + i) =
    if suffix.length < i ∧ 8 * m.length + i + 1 = (padded x (str m ++ suffix)).length then 1
    else bit (suffix ++ [1]) i := by
  have hlen : (str m ++ suffix).length = 8 * m.length + suffix.length := by
    rw [List.length_append, length_str]
  rw [bit_padded, hlen, bit_append, bit_append, length_str]
  rcases Nat.lt_trichotomy i suffix.length with hlt | heq | hgt
  · rw [if_pos (by omega), if_neg (by omega), if_neg (by omega), if_pos hlt, Nat.add_sub_cancel_left]
  · rw [if_neg (by omega), if_pos (.inl (by omega)), if_neg (by omega), if_neg (by omega), heq,
      Nat.sub_self]
    rfl
  · have hne : ¬ 8 * m.length + i = 8 * m.length + suffix.length := by omega
    have hend : bit [1] (i - suffix.length) = 0 := List.getD_eq_default _ _ (by simp; omega)
    rw [if_neg (by omega), if_neg (show ¬ i < suffix.length by omega), hend]
    simp only [hne, hgt, false_or, true_and]

/-- The last block of bytes is the last block of the padded bits. -/
theorem bit_lastBlock (hr : r ≤ 200) (hm : m.length = r * n + rest.length) (hdrop : rest = m.drop (r * n))
    (hrest : rest.length < r) (hsuffix : suffix.length ≤ 6) {p : Byte}
    (hp : ∀ i < 8, ofBool (p.getLsbD i) = bit (suffix ++ [1]) i) {q : ℕ} (hq : q < 8 * r) :
    ofBool (bitAt (lastBlock r rest p) q) =
      bit (padded (8 * r) (str m ++ suffix)) (8 * r * n + q) := by
  have hmul : 8 * r * n = 8 * (r * n) := Nat.mul_assoc 8 r n
  rw [bitAt_lastBlock hr hrest]
  by_cases hin : q < 8 * rest.length
  · have hne : ¬ q + 1 = 8 * r := by omega
    rw [if_pos hin, decide_eq_false hne, Bool.or_false, bit_padded_message _ (by omega), hdrop,
      bitAt_drop, hmul]
  · obtain ⟨i, rfl⟩ := Nat.exists_eq_add_of_le (not_lt.mp hin)
    have hplace : 8 * r * n + (8 * rest.length + i) = 8 * m.length + i := by omega
    have hbyte : ofBool (if i < 8 then p.getLsbD i else false) = bit (suffix ++ [1]) i := by
      split_ifs with hi
      · exact hp i hi
      · exact (List.getD_eq_default _ _ (by simp; omega)).symm
    have hi8 : 8 * rest.length + i < 8 * rest.length + 8 ↔ i < 8 := by omega
    have hend : 8 * m.length + i + 1 = (padded (8 * r) (str m ++ suffix)).length ↔
        8 * rest.length + i + 1 = 8 * r := by
      rw [length_padded_str hm hrest hsuffix, Nat.mul_succ]
      omega
    rw [if_neg hin, hplace, bit_padded_suffix, Nat.add_sub_cancel_left]
    simp only [hi8, hend]
    by_cases hlast : suffix.length < i ∧ 8 * rest.length + i + 1 = 8 * r
    · rw [if_pos hlast, decide_eq_true hlast.2, Bool.or_true]
      rfl
    · have hne : ¬ 8 * rest.length + i + 1 = 8 * r := fun h => hlast ⟨by omega, h⟩
      rw [if_neg hlast, decide_eq_false hne, Bool.or_false, hbyte]

end Padding

section Refinement

/-- `k` computes the sponge of Keccak-p[1600, 24], for every rate of whole lanes, every suffix
that leaves room for the padding, every message and every length of the output. -/
theorem str_k {r : Byte} (hpos : 0 < r.toNat) (h8 : r.toNat % 8 = 0) (hle : r.toNat ≤ 200)
    {suffix : Str} (hsuffix : suffix.length ≤ 6) {p : Byte}
    (hp : ∀ i < 8, ofBool (p.getLsbD i) = bit (suffix ++ [1]) i) (m : List Byte) (d : ℕ) :
    str (k r m p d).toList = keccakParts.sponge (8 * r.toNat) (str m ++ suffix) (8 * d) := by
  generalize hR : r.toNat = R at hpos h8 hle
  obtain ⟨n, hn⟩ : ∃ n, n = m.length / R := ⟨_, rfl⟩
  obtain ⟨rest, hdrop⟩ : ∃ rest, rest = m.drop (R * n) := ⟨_, rfl⟩
  have hdiv : R * n + m.length % R = m.length := hn ▸ Nat.div_add_mod m.length R
  have hmod := Nat.mod_lt m.length hpos
  have hm : m.length = R * n + rest.length := by
    rw [hdrop, List.length_drop]
    omega
  have hrest : rest.length < R := by omega
  -- the lanes after each full block, and after the last one
  let s (i : ℕ) : State := (List.range i).foldl (fun s i => F (S R s (m.drop (R * i))))
    (Vector.replicate 25 0)
  let last : State := S R (s n) (lastBlock R rest p)
  have hk : k r m p d = ((List.range d).foldl (squeezeStep R) (last, Vector.replicate d 0)).2 := by
    rw [k, hR]
    simp only
    rw [absorb_eq hpos, ← hn, ← hdrop]
  have hfull : ∀ i < n, bits (s (i + 1)) = KeccakP.perm 0 24
      (bits (s i) + keccakParts.embed (block (8 * R) (padded (8 * R) (str m ++ suffix)) i)) := by
    intro i hi
    have hstep : s (i + 1) = F (S R (s i) (m.drop (R * i))) := by
      simp only [s, List.range_succ, List.foldl_append, List.foldl_cons, List.foldl_nil]
    have hturn : R * i + R ≤ R * n := Nat.mul_le_mul_left R hi
    rw [hstep, bits_F, bits_S (s i) (m.drop (R * i)) hle]
    intro q hq
    rw [Nat.mul_assoc, bit_padded_message _ (by omega), bitAt_drop]
  have hsponge := keccakParts.sponge_eq bits_F (length_padded_str hm hrest hsuffix) (by omega)
    (s := s) bits_zero hfull
    (bits_S _ _ hle fun q hq => bit_lastBlock hle hm hdrop hrest hsuffix hp hq) (8 * d)
  obtain ⟨-, hbytes⟩ := squeezeStep_turns hpos last (Vector.replicate d 0) le_rfl
  rw [hsponge]
  apply List.ext_getElem (by simp)
  intro i _ hi
  rw [List.length_map, List.length_range] at hi
  have hbyte : (k r m p d).toList.getD (i / 8) 0 = outByte R last (i / 8) := by
    rw [← hbytes (i / 8) (by omega), hk, vector_getD _ (by omega),
      List.getD_eq_getElem _ _ (by rw [Vector.length_toList]; omega), Vector.getElem_toList]
  simp only [str, List.getElem_map, getElem_bitsOf, List.getElem_range]
  rw [bitAt, hbyte, ofBool_outByte hpos h8 hle]

/-- The byte 6 is the suffix `01` and a one. -/
theorem sha3Suffix : ∀ i < 8, ofBool ((6 : Byte).getLsbD i) = bit ([0, 1] ++ [1]) i := by decide

/-- The byte 31 is the suffix `1111` and a one. -/
theorem shakeSuffix : ∀ i < 8, ofBool ((31 : Byte).getLsbD i) = bit ([1, 1, 1, 1] ++ [1]) i := by
  decide

theorem str_shake (m : List Byte) (d : ℕ) :
    str (cryptoHashShake256 d m).1.toList = shake256 (str m) (8 * d) :=
  str_k (r := 17 * 8) (by decide) (by decide) (by decide) (by decide) shakeSuffix m d

end Refinement

section Results

/-- The permutation of the compact implementation is that of KeccakTools, whose inverse undoes it,
and computes Keccak-p[1600, 24] on the bits of the lanes. -/
theorem F_eq_keccakTools (s : State) : ∃ f, Keccak.keccakFNominal 1600 = .ok f ∧
    toTools (F s) = f.forward (toTools s) ∧ f.inverse (toTools (F s)) = toTools s ∧
    bits (F s) = KeccakP.perm 0 24 (bits s) := by
  refine ⟨tools, keccakFNominal_eq, toTools_F s, ?_, bits_F s⟩
  have hfit : tools.RoundsFit := by decide
  have hforward := KeccakF.refines_forward hfit _ (masked_toTools s)
  have hinverse := KeccakF.refines_inverse hfit _ hforward.1
  rw [toTools_F]
  apply tools.bits_injective hinverse.1 (masked_toTools s)
  rw [hinverse.2, hforward.2]
  exact KeccakP.unperm_perm tools.kernel_undoes 0 24 _

/-- The six functions that the macros define are those of FIPS 202 on the bits of the message, for
every message and every length of an extendable output, and none of them fails. -/
theorem hashes_eq_fips202 (m : List Byte) (d : ℕ) :
    (str (cryptoHashSha3224 m).1.toList = sha3 224 (str m) ∧
      str (cryptoHashSha3256 m).1.toList = sha3 256 (str m) ∧
      str (cryptoHashSha3384 m).1.toList = sha3 384 (str m) ∧
      str (cryptoHashSha3512 m).1.toList = sha3 512 (str m)) ∧
    (str (cryptoHashShake128 d m).1.toList = shake128 (str m) (8 * d) ∧
      str (cryptoHashShake256 d m).1.toList = shake256 (str m) (8 * d)) ∧
    (cryptoHashSha3224 m).2 = 0 ∧ (cryptoHashSha3256 m).2 = 0 ∧ (cryptoHashSha3384 m).2 = 0 ∧
      (cryptoHashSha3512 m).2 = 0 ∧ (cryptoHashShake128 d m).2 = 0 ∧
      (cryptoHashShake256 d m).2 = 0 := by
  refine ⟨⟨?_, ?_, ?_, ?_⟩, ⟨?_, str_shake m d⟩, rfl, rfl, rfl, rfl, rfl, rfl⟩
  · exact str_k (r := 18 * 8) (by decide) (by decide) (by decide) (by decide) sha3Suffix m 28
  · exact str_k (r := 17 * 8) (by decide) (by decide) (by decide) (by decide) sha3Suffix m 32
  · exact str_k (r := 13 * 8) (by decide) (by decide) (by decide) (by decide) sha3Suffix m 48
  · exact str_k (r := 9 * 8) (by decide) (by decide) (by decide) (by decide) sha3Suffix m 64
  · exact str_k (r := 21 * 8) (by decide) (by decide) (by decide) (by decide) shakeSuffix m d

/-- With this sponge the permutation of a row is the Feistel network of SHAKE256: from the two
halves on, each round swaps them and adds to the old first one the hash of the label, the party,
the number of the round and the old second one. -/
theorem encryptBytes_network (f : Feistel) {x : List Byte} (hx : x.length = 800) :
    ∃ h : ℕ → Feistel.Halves, h 0 = (x.take 400, x.drop 400) ∧
      (∀ i < f.rounds, (h (i + 1)).1 = (h i).2 ∧ str (h (i + 1)).2 =
        List.zipWith (· + ·) (shake256 (str (Feistel.maskInput f (h i).2 i)) (8 * 400)) (str (h i).1)) ∧
      Feistel.encryptBytes k f x = .ok ((h f.rounds).1 ++ (h f.rounds).2) := by
  obtain ⟨h, hh⟩ : ∃ h : ℕ → Feistel.Halves, ∀ n, h n = (List.range n).foldl (Feistel.round k f)
      (x.take Feistel.halfBytes, x.drop Feistel.halfBytes) := ⟨_, fun _ => rfl⟩
  refine ⟨h, hh 0, fun i _ => ?_, ?_⟩
  · have hfull : Feistel.Full (h i) := by
      rw [hh]
      exact Inverses.foldl_induction (P := Feistel.Full)
        (fun r c hc => Feistel.round_full k f hc r) _ (Feistel.full_of_length hx)
    have hstep : h (i + 1) = Feistel.round k f (h i) i := by
      rw [hh, hh, List.range_succ, List.foldl_append, List.foldl_cons, List.foldl_nil]
    have hmask : str (Feistel.mask k f (h i).2 i) =
        shake256 (str (Feistel.maskInput f (h i).2 i)) (8 * 400) := str_shake _ 400
    have hsum : str (h (i + 1)).2 =
        List.zipWith (· + ·) (str (Feistel.mask k f (h i).2 i)) (str (h i).1) := by
      have hlen := (Feistel.length_mask k f (h i).2 i).trans hfull.1.symm
      rw [hstep, Feistel.round, Feistel.xorInto, str_zipWith_xor hlen]
    rw [hmask] at hsum
    exact ⟨congrArg Prod.fst hstep, hsum⟩
  · rw [hh]
    exact Feistel.encryptBytes_eq k f hx

/-- The network of a party with the default number of rounds. -/
def networkCfg : Feistel := ⟨8, 1, by decide⟩

theorem encryptBytes_network_zeros : ∃ h : ℕ → Feistel.Halves,
    h 0 = ((List.replicate 800 0).take 400, (List.replicate 800 0).drop 400) ∧
    (∀ i < 8, (h (i + 1)).1 = (h i).2 ∧ str (h (i + 1)).2 =
      List.zipWith (· + ·) (shake256 (str (Feistel.maskInput networkCfg (h i).2 i)) (8 * 400))
        (str (h i).1)) ∧
    Feistel.encryptBytes k networkCfg (List.replicate 800 0) = .ok ((h 8).1 ++ (h 8).2) :=
  encryptBytes_network networkCfg List.length_replicate

end Results

end PqPsi.Permutation.Fips202
