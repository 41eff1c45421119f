import Mathlib.Tactic
import Mathlib.Data.List.GetD
import Mathlib.Data.Nat.Digits.Lemmas

/-!
# Byte lists as bit streams

Bit `pos` of a byte list is bit `pos % 8` of byte `pos / 8`. Two byte lists of
one length with the same bits are equal, and a loop that sets bits one by one
has set exactly the bits it visited.
-/
namespace PqPsi.Lib.BitStream

def bitAt (bs : List (BitVec 8)) (pos : ℕ) : Bool := (bs.getD (pos / 8) 0).getLsbD (pos % 8)

def setBit (bs : List (BitVec 8)) (pos : ℕ) : List (BitVec 8) :=
  bs.modify (pos / 8) (· ||| 1#8 <<< (pos % 8))

theorem ext_bitAt {bs bs' : List (BitVec 8)} (hlen : bs.length = bs'.length)
    (h : ∀ pos < 8 * bs.length, bitAt bs pos = bitAt bs' pos) : bs = bs' := by
  apply List.ext_getElem hlen
  intro i hi hi'
  apply BitVec.eq_of_getLsbD_eq
  intro j hj
  have hpos := h (8 * i + j) (by omega)
  have hdiv : (8 * i + j) / 8 = i := by omega
  have hmod : (8 * i + j) % 8 = j := by omega
  rwa [bitAt, bitAt, hdiv, hmod, List.getD_eq_getElem _ _ hi, List.getD_eq_getElem _ _ hi'] at hpos

@[simp] theorem bitAt_replicate_zero (n pos : ℕ) : bitAt (List.replicate n 0#8) pos = false := by
  have hz : (List.replicate n 0#8).getD (pos / 8) 0 = 0#8 := by
    by_cases h : pos / 8 < n
    · rw [List.getD_eq_getElem _ _ (by simpa using h), List.getElem_replicate]
    · rw [List.getD_eq_default _ _ (by simpa using h)]
      rfl
  rw [bitAt, hz, BitVec.getLsbD_zero]

theorem bitAt_of_ge {bs : List (BitVec 8)} {p : ℕ} (h : 8 * bs.length ≤ p) : bitAt bs p = false := by
  rw [bitAt, List.getD_eq_default _ _ (by omega), BitVec.ofNat_eq_ofNat, BitVec.getLsbD_zero]

theorem bitAt_append (bs bs' : List (BitVec 8)) (p : ℕ) :
    bitAt (bs ++ bs') p =
      if p < 8 * bs.length then bitAt bs p else bitAt bs' (p - 8 * bs.length) := by
  unfold bitAt
  split_ifs with h
  · rw [List.getD_append _ _ _ _ (by omega)]
  · have hdiv : p / 8 - bs.length = (p - 8 * bs.length) / 8 := by omega
    have hmod : p % 8 = (p - 8 * bs.length) % 8 := by omega
    rw [List.getD_append_right _ _ _ _ (by omega), hdiv, hmod]

/-- The bits after one byte was rewritten. -/
theorem bitAt_modify {bs : List (BitVec 8)} {i : ℕ} (hi : i < bs.length)
    (f : BitVec 8 → BitVec 8) (p : ℕ) :
    bitAt (bs.modify i f) p =
      if p / 8 = i then (f (bs.getD i 0)).getLsbD (p % 8) else bitAt bs p := by
  have hget : (bs.modify i f).getD (p / 8) 0 =
      if p / 8 = i then f (bs.getD i 0) else bs.getD (p / 8) 0 := by
    simp only [List.getD_eq_getElem?_getD, List.getElem?_modify]
    by_cases he : i = p / 8
    · rw [if_pos he.symm, ← he, List.getElem?_eq_getElem hi]
      simp
    · simp [he, Ne.symm he]
  rw [bitAt, hget, bitAt]
  split_ifs <;> rfl

theorem getLsbD_one_shiftLeft {i j : ℕ} (hj : j < 8) :
    (1#8 <<< i).getLsbD j = decide (j = i) := by
  rw [BitVec.getLsbD_shiftLeft, BitVec.getLsbD_one]
  by_cases hji : j = i
  · simp [hji, hji ▸ hj]
  · rw [decide_eq_false hji]
    by_cases hlt : j < i
    · simp [hlt]
    · have hne : j - i ≠ 0 := by omega
      simp [hne]

/-- A bitwise operation of a byte with a unit byte meets one bit. -/
theorem bitAt_modify_unit {op : BitVec 8 → BitVec 8 → BitVec 8} {f : Bool → Bool → Bool}
    {bs : List (BitVec 8)} {pos : ℕ} (h : pos / 8 < bs.length)
    (hop : ∀ x y i, (op x y).getLsbD i = f (x.getLsbD i) (y.getLsbD i)) (hf : ∀ b, f b false = b)
    (p : ℕ) : bitAt (bs.modify (pos / 8) (op · (1#8 <<< (pos % 8)))) p =
      f (bitAt bs p) (decide (p = pos)) := by
  rw [bitAt_modify h]
  split_ifs with he
  · have hpos : (p % 8 = pos % 8) = (p = pos) := propext (by omega)
    simp only [hop, getLsbD_one_shiftLeft (Nat.mod_lt p (by norm_num : 8 > 0)), hpos, ← he]
    rfl
  · have hne : p ≠ pos := fun hp => he (by rw [hp])
    rw [decide_eq_false hne, hf]

@[simp] theorem length_setBit (bs : List (BitVec 8)) (pos : ℕ) :
    (setBit bs pos).length = bs.length := by
  simp [setBit]

theorem bitAt_setBit {bs : List (BitVec 8)} {pos : ℕ} (h : pos / 8 < bs.length) (p : ℕ) :
    bitAt (setBit bs pos) p = (bitAt bs p || decide (p = pos)) :=
  bitAt_modify_unit h (fun _ _ _ => BitVec.getLsbD_or) Bool.or_false p

/-- `data[pos / 8] ^= 1 << (pos % 8)`. -/
def flipBit (bs : List (BitVec 8)) (pos : ℕ) : List (BitVec 8) :=
  bs.modify (pos / 8) (· ^^^ 1#8 <<< (pos % 8))

@[simp] theorem length_flipBit (bs : List (BitVec 8)) (pos : ℕ) :
    (flipBit bs pos).length = bs.length := by
  simp [flipBit]

theorem bitAt_flipBit {bs : List (BitVec 8)} {pos : ℕ} (h : pos / 8 < bs.length) (p : ℕ) :
    bitAt (flipBit bs pos) p = (bitAt bs p ^^ decide (p = pos)) :=
  bitAt_modify_unit h (fun _ _ _ => BitVec.getLsbD_xor) Bool.xor_false p

/-- Bit `pos` becomes `bit`, by a mask that sets or one that clears. -/
def writeBit (bs : List (BitVec 8)) (pos : ℕ) (bit : Bool) : List (BitVec 8) :=
  let mask : BitVec 8 := 1#8 <<< (pos % 8)
  bs.modify (pos / 8) fun b => if bit then b ||| mask else b &&& ~~~mask

@[simp] theorem length_writeBit (bs : List (BitVec 8)) (pos : ℕ) (bit : Bool) :
    (writeBit bs pos bit).length = bs.length := by
  simp [writeBit]

theorem bitAt_writeBit {bs : List (BitVec 8)} {pos : ℕ} (h : pos / 8 < bs.length) (bit : Bool)
    (p : ℕ) : bitAt (writeBit bs pos bit) p = if p = pos then bit else bitAt bs p := by
  have hmod := Nat.mod_lt p (show 0 < 8 by norm_num)
  simp only [writeBit]
  rw [bitAt_modify h]
  by_cases hp : p = pos
  · subst hp
    cases bit <;> simp [hmod]
  · rw [if_neg hp]
    split_ifs with he hb
    · have hne : p % 8 ≠ pos % 8 := by omega
      rw [BitVec.getLsbD_or, getLsbD_one_shiftLeft hmod, ← he, bitAt]
      simp [hne]
    · have hne : p % 8 ≠ pos % 8 := by omega
      rw [BitVec.getLsbD_and, BitVec.getLsbD_not, getLsbD_one_shiftLeft hmod, ← he, bitAt]
      simp [hne, hmod]
    · rfl

section LastByte

/-- `bs.back() &= m`. -/
def andLast (bs : List (BitVec 8)) (m : BitVec 8) : List (BitVec 8) :=
  bs.modify (bs.length - 1) (· &&& m)

/-- The mask of the low `k` bits of a byte. -/
def lowMask (k : ℕ) : BitVec 8 := BitVec.ofNat 8 (1 <<< k - 1)

@[simp] theorem length_andLast (bs : List (BitVec 8)) (m : BitVec 8) :
    (andLast bs m).length = bs.length := by
  simp [andLast]

theorem getLsbD_lowMask {k j : ℕ} (hj : j < 8) : (lowMask k).getLsbD j = decide (j < k) := by
  rw [lowMask, BitVec.getLsbD_ofNat, Nat.shiftLeft_eq, one_mul, Nat.testBit_two_pow_sub_one]
  simp [hj]

theorem bitAt_andLast (bs : List (BitVec 8)) (m : BitVec 8) (p : ℕ) :
    bitAt (andLast bs m) p =
      (bitAt bs p && (decide (p / 8 ≠ bs.length - 1) || m.getLsbD (p % 8))) := by
  cases bs with
  | nil => simp [andLast, bitAt]
  | cons b bs =>
    rw [andLast, bitAt_modify (by simp)]
    split_ifs with he
    · simp [bitAt, he]
    · rw [decide_eq_true he]
      simp

theorem bitAt_orAt {bs : List (BitVec 8)} {i : ℕ} (hi : i < bs.length) (m : BitVec 8) (p : ℕ) :
    bitAt (bs.modify i (· ||| m)) p = (bitAt bs p || (decide (p / 8 = i) && m.getLsbD (p % 8))) := by
  rw [bitAt_modify hi]
  split_ifs with he
  · simp [bitAt, he]
  · simp [he]

/-- Clearing the spare bits of the last byte clears the bits from `bits` on. -/
theorem bitAt_andLast_lowMask {bs : List (BitVec 8)} {bits : ℕ}
    (hlen : bs.length = (bits + 7) / 8) (hrem : bits % 8 ≠ 0) (p : ℕ) :
    bitAt (andLast bs (lowMask (bits % 8))) p = (bitAt bs p && decide (p < bits)) := by
  rw [bitAt_andLast, getLsbD_lowMask (Nat.mod_lt p (by norm_num)), hlen]
  by_cases hp : p / 8 < bs.length
  · congr 1
    apply Bool.eq_iff_iff.mpr
    simp only [Bool.or_eq_true, decide_eq_true_eq]
    omega
  · rw [bitAt_of_ge (by omega), Bool.false_and, Bool.false_and]

/-- The spare bits of the last byte are clear exactly when all bits from `bits` on are. -/
theorem and_highMask_eq_zero {bs : List (BitVec 8)} {bits : ℕ}
    (hlen : bs.length = (bits + 7) / 8) (hrem : bits % 8 ≠ 0) :
    bs.getD (bs.length - 1) 0 &&& ~~~(lowMask (bits % 8)) = 0#8 ↔
      ∀ p ≥ bits, bitAt bs p = false := by
  constructor
  · intro h p hp
    by_cases hlast : p / 8 = bs.length - 1
    · have hbit := congrArg (fun b : BitVec 8 => b.getLsbD (p % 8)) h
      have hmod := Nat.mod_lt p (show 0 < 8 by norm_num)
      simp only [BitVec.getLsbD_and, BitVec.getLsbD_not, getLsbD_lowMask hmod,
        BitVec.getLsbD_zero, hmod, decide_true, Bool.true_and] at hbit
      rw [decide_eq_false (by omega), Bool.not_false, Bool.and_true, ← hlast] at hbit
      exact hbit
    · exact bitAt_of_ge (by omega)
  · intro h
    apply BitVec.eq_of_getLsbD_eq
    intro j hj
    rw [BitVec.getLsbD_and, BitVec.getLsbD_not, getLsbD_lowMask hj, BitVec.getLsbD_zero]
    by_cases hjr : j < bits % 8
    · simp [hjr]
    · have hbit := h (8 * (bs.length - 1) + j) (by omega)
      have hdiv : (8 * (bs.length - 1) + j) / 8 = bs.length - 1 := by omega
      have hmod : (8 * (bs.length - 1) + j) % 8 = j := by omega
      rw [bitAt, hdiv, hmod] at hbit
      rw [hbit, Bool.false_and]

end LastByte

section Loops
variable {ι : Type*}

/-- A loop that sets a bit at every element with a property. -/
theorem length_foldl_setBit (l : List ι) (c : ι → Bool) (pos : ι → ℕ) (bs : List (BitVec 8)) :
    (l.foldl (fun bs a => if c a then setBit bs (pos a) else bs) bs).length = bs.length := by
  induction l generalizing bs with
  | nil => rfl
  | cons a l ih =>
    rw [List.foldl_cons, ih]
    split_ifs
    · exact length_setBit _ _
    · rfl

theorem bitAt_foldl_setBit (l : List ι) (c : ι → Bool) (pos : ι → ℕ) {bs : List (BitVec 8)}
    (h : ∀ a ∈ l, pos a / 8 < bs.length) (p : ℕ) :
    bitAt (l.foldl (fun bs a => if c a then setBit bs (pos a) else bs) bs) p =
      (bitAt bs p || l.any fun a => c a && decide (p = pos a)) := by
  induction l generalizing bs with
  | nil => simp
  | cons a l ih =>
    have hl : ∀ b ∈ l, pos b / 8 < bs.length := fun b hb => h b (by simp [hb])
    rw [List.foldl_cons, List.any_cons]
    cases hc : c a with
    | false =>
      rw [if_neg (by simp), ih hl]
      simp
    | true =>
      rw [if_pos rfl, ih (by simpa using hl), bitAt_setBit (h a (by simp)), Bool.true_and,
        Bool.or_assoc]

@[simp] theorem length_foldl_writeBit (l : List ι) (pos : ι → ℕ) (val : ι → Bool)
    (bs : List (BitVec 8)) :
    (l.foldl (fun bs a => writeBit bs (pos a) (val a)) bs).length = bs.length := by
  induction l generalizing bs with
  | nil => rfl
  | cons a l ih => rw [List.foldl_cons, ih, length_writeBit]

/-- A loop of writes leaves the bits that it does not visit. -/
theorem bitAt_foldl_writeBit_of_ne {l : List ι} {pos : ι → ℕ} {val : ι → Bool}
    {bs : List (BitVec 8)} (h : ∀ a ∈ l, pos a / 8 < bs.length) {p : ℕ}
    (hp : ∀ a ∈ l, p ≠ pos a) :
    bitAt (l.foldl (fun bs a => writeBit bs (pos a) (val a)) bs) p = bitAt bs p := by
  induction l generalizing bs with
  | nil => rfl
  | cons a l ih =>
    have hl : ∀ b ∈ l, pos b / 8 < bs.length := fun b hb => h b (by simp [hb])
    rw [List.foldl_cons, ih (by simpa using hl) (fun b hb => hp b (by simp [hb])),
      bitAt_writeBit (h a (by simp)), if_neg (hp a (by simp))]

/-- A loop of writes at distinct positions. -/
theorem bitAt_foldl_writeBit {l : List ι} {pos : ι → ℕ} {val : ι → Bool} {bs : List (BitVec 8)}
    (h : ∀ a ∈ l, pos a / 8 < bs.length) (hnd : (l.map pos).Nodup) {a : ι} (ha : a ∈ l) :
    bitAt (l.foldl (fun bs a => writeBit bs (pos a) (val a)) bs) (pos a) = val a := by
  induction l generalizing bs with
  | nil => simp at ha
  | cons b l ih =>
    have hl : ∀ c ∈ l, pos c / 8 < bs.length := fun c hc => h c (by simp [hc])
    rw [List.map_cons, List.nodup_cons] at hnd
    rw [List.foldl_cons]
    rcases List.mem_cons.mp ha with rfl | ha
    · have hne : ∀ c ∈ l, pos a ≠ pos c := by
        intro c hc he
        exact hnd.1 (he ▸ List.mem_map_of_mem hc)
      rw [bitAt_foldl_writeBit_of_ne (by simpa using hl) hne, bitAt_writeBit (h a (by simp)),
        if_pos rfl]
    · exact ih (by simpa using hl) hnd.2 ha

/-- A number put together bit by bit. -/
theorem testBit_foldl_or (bit : ℕ → Bool) (n k : ℕ) :
    ((List.range n).foldl (fun x j => x ||| (bit j).toNat <<< j) 0).testBit k =
      (decide (k < n) && bit k) := by
  induction n with
  | zero => simp
  | succ n ih =>
    rw [List.range_succ, List.foldl_append, List.foldl_cons, List.foldl_nil, Nat.testBit_or, ih,
      Nat.testBit_shiftLeft]
    by_cases hk : k = n
    · subst hk
      cases bit k <;> simp
    · have hlt : decide (k < n + 1) = decide (k < n) := by
        congr 1
        apply propext
        omega
      have hz : (bit n).toNat.testBit (k - n) = true → ¬ n ≤ k := by
        intro hb hle
        cases hbn : bit n with
        | false => simp [hbn] at hb
        | true =>
          rw [hbn, Bool.toNat_true, Nat.testBit_one_eq_true_iff_self_eq_zero] at hb
          omega
      rw [hlt]
      cases hb : (bit n).toNat.testBit (k - n) with
      | false => simp
      | true => simp [hz hb]

end Loops

section Integers

/-- Bytes as an integer, least significant byte first. -/
def ofBytes (bs : List (BitVec 8)) : ℕ := Nat.ofDigits 256 (bs.map BitVec.toNat)

/-- The low `len` bytes of an integer, least significant byte first. -/
def toBytes (len x : ℕ) : List (BitVec 8) :=
  (Nat.digitsAppend 256 len x).map (BitVec.ofNat 8)

theorem testBit_ofBytes (bs : List (BitVec 8)) (pos : ℕ) : (ofBytes bs).testBit pos = bitAt bs pos := by
  induction bs generalizing pos with
  | nil => simp [ofBytes, bitAt]
  | cons b bs ih =>
    have hsplit : ofBytes (b :: bs) = 2 ^ 8 * ofBytes bs + b.toNat := by
      simp only [ofBytes, List.map_cons, Nat.ofDigits_cons]
      ring
    rw [hsplit, Nat.testBit_two_pow_mul_add _ b.isLt]
    split_ifs with hpos
    · have hdiv : pos / 8 = 0 := by omega
      have hmod : pos % 8 = pos := by omega
      rw [bitAt, hdiv, hmod, List.getD_cons_zero]
      rfl
    · have hdiv : pos / 8 = (pos - 8) / 8 + 1 := by omega
      have hmod : pos % 8 = (pos - 8) % 8 := by omega
      rw [ih, bitAt, bitAt, hdiv, hmod, List.getD_cons_succ]

theorem map_toNat_lt (bs : List (BitVec 8)) : ∀ x ∈ bs.map BitVec.toNat, x < 256 := by
  intro x hx
  obtain ⟨b, -, rfl⟩ := List.mem_map.mp hx
  exact b.isLt

theorem map_toNat_toBytes (len x : ℕ) :
    (toBytes len x).map BitVec.toNat = Nat.digitsAppend 256 len x := by
  rw [toBytes, List.map_map]
  conv_rhs => rw [← List.map_id (Nat.digitsAppend 256 len x)]
  apply List.map_congr_left
  intro d hd
  have hlt := Nat.lt_of_mem_digitsAppend (by norm_num) len d hd
  exact (BitVec.toNat_ofNat d 8).trans (Nat.mod_eq_of_lt hlt)

theorem length_toBytes {len x : ℕ} (h : x < 256 ^ len) : (toBytes len x).length = len := by
  rw [toBytes, List.length_map, Nat.length_digitsAppend (by norm_num) len h]

theorem ofBytes_toBytes {len x : ℕ} (h : x < 256 ^ len) : ofBytes (toBytes len x) = x := by
  rw [ofBytes, map_toNat_toBytes]
  exact (Nat.setInvOn_digitsAppend_ofDigits (by norm_num) len).2 h

theorem toBytes_ofBytes (bs : List (BitVec 8)) : toBytes bs.length (ofBytes bs) = bs := by
  have hinv := (Nat.setInvOn_digitsAppend_ofDigits (b := 256) (by norm_num) bs.length).1
    (show bs.map BitVec.toNat ∈ _ from ⟨by simp, map_toNat_lt bs⟩)
  rw [toBytes, ofBytes, hinv, List.map_map]
  conv_rhs => rw [← List.map_id bs]
  apply List.map_congr_left
  intro b _
  simp

theorem ofBytes_lt_iff {bs : List (BitVec 8)} {bits : ℕ} :
    ofBytes bs < 2 ^ bits ↔ ∀ p ≥ bits, bitAt bs p = false := by
  constructor
  · intro h p hp
    rw [← testBit_ofBytes]
    exact Nat.testBit_lt_two_pow (lt_of_lt_of_le h (Nat.pow_le_pow_right two_pos hp))
  · intro h
    apply Nat.lt_pow_two_of_testBit
    intro p hp
    rw [testBit_ofBytes]
    exact h p hp

end Integers

end PqPsi.Lib.BitStream
