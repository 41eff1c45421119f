import PqPsi.Kemeleon.Packing
import PqPsi.Kemeleon.Vector
import PqPsi.Lib.Buffers

/-!
# Key encoding

The code of a public key is its seed, then the vector code of its coefficients,
with the spare bits of the last byte taken from a hash of the key. Decoding
drops these bits, so that every string of the right length is the code of a
key.
-/
namespace PqPsi.Kemeleon
open Lib.BitStream Lib.Buffers Lib.Exceptions

variable (hashByte : List Byte → Byte)

/-- The mask of the bits of the last byte above `vecBits`. -/
def keyHighMask (mode : Mode) : Byte :=
  let rem := (makeInfo mode).vecBits % 8
  if rem = 0 then 0 else ~~~(lowMask rem)

def fillKeyHighBits (mode : Mode) (key out : List Byte) : List Byte :=
  let mask := keyHighMask mode
  if mask = 0 then out
  else out.modify (rhoBytes + (makeInfo mode).vecBytes - 1) (· ||| hashByte key &&& mask)

def clearKeyHighBits (mode : Mode) (r : List Byte) : List Byte :=
  let mask := keyHighMask mode
  if mask = 0 ∨ r.isEmpty then r else andLast r (~~~mask)

/-- `encodeKey`; `none` is a returned `false` with `out` cleared. -/
def encodeKey (mode : Mode) (key : List Byte) : Except Err (Option (List Byte)) := do
  let info := makeInfo mode
  throwIf (key.length ≠ rawKeyBytes mode) "Kemeleon key has unexpected size"
  let t ← unpackPolyBytes (key.take info.polyBytes)
  match encodeVec t info.vecBits with
  | none => return none
  | some r =>
    let out := List.replicate (codeKeyBytes mode) 0
    let out := splice out 0 (key.drop info.polyBytes)
    let out := splice out rhoBytes r
    return some (fillKeyHighBits hashByte mode key out)

/-- `decodeKey` into a caller's buffer; `none` is a returned `false`. -/
def decodeKeyInto (mode : Mode) (data key : List Byte) : Except Err (Option (List Byte)) := do
  let info := makeInfo mode
  if data.length ≠ codeKeyBytes mode ∨ key.length ≠ rawKeyBytes mode then return none
  let r := clearKeyHighBits mode (slice data rhoBytes info.vecBytes)
  match decodeVec r info.vecBits info.vecSize with
  | none => return none
  | some t =>
    let packedT ← packPolyBytes t
    return some (splice (splice key 0 packedT) info.polyBytes (data.take rhoBytes))

/-- `decodeKey` into a fresh buffer. -/
def decodeKey (mode : Mode) (data : List Byte) : Except Err (Option (List Byte)) :=
  decodeKeyInto mode data (List.replicate (rawKeyBytes mode) 0)

section Sizes
variable (mode : Mode)

theorem rawKeyBytes_eq : rawKeyBytes mode = (makeInfo mode).polyBytes + rhoBytes := by
  cases mode <;> rfl

theorem polyBytes_eq : (makeInfo mode).polyBytes = (makeInfo mode).vecSize / 2 * 3 := by
  cases mode <;> rfl

theorem vecSize_even : (makeInfo mode).vecSize % 2 = 0 := by
  cases mode <;> rfl

end Sizes

theorem keyHighMask_of_zero {mode : Mode} (h : (makeInfo mode).vecBits % 8 = 0) :
    keyHighMask mode = 0 := if_pos h

theorem keyHighMask_of_ne {mode : Mode} (h : (makeInfo mode).vecBits % 8 ≠ 0) :
    keyHighMask mode = ~~~(lowMask ((makeInfo mode).vecBits % 8)) ∧ keyHighMask mode ≠ 0 := by
  have hmask : ∀ k < 8, ~~~(lowMask k) ≠ 0 := by decide
  have hif : keyHighMask mode = ~~~(lowMask ((makeInfo mode).vecBits % 8)) := if_neg h
  exact ⟨hif, hif ▸ hmask _ (Nat.mod_lt _ (by norm_num))⟩

/-- Clearing the high bits keeps exactly the bits below `vecBits`. -/
theorem bitAt_clearKeyHighBits {mode : Mode} {r : List Byte}
    (hlen : r.length = (makeInfo mode).vecBytes) (p : ℕ) :
    bitAt (clearKeyHighBits mode r) p = (bitAt r p && decide (p < (makeInfo mode).vecBits)) := by
  have hpos := vecBits_pos mode
  rw [makeInfo_vecBytes] at hlen
  unfold clearKeyHighBits
  by_cases hrem : (makeInfo mode).vecBits % 8 = 0
  · rw [keyHighMask_of_zero hrem, if_pos (.inl rfl)]
    by_cases hp : p < (makeInfo mode).vecBits
    · simp [hp]
    · rw [bitAt_of_ge (by omega), Bool.false_and]
  · have hne : r.isEmpty = false := by
      rw [List.isEmpty_eq_false_iff, ← List.length_pos_iff, hlen]
      omega
    obtain ⟨hmask, hzero⟩ := keyHighMask_of_ne hrem
    rw [if_neg (by simp only [hzero, hne, false_or, Bool.false_eq_true, not_false_eq_true]), hmask,
      BitVec.not_not]
    exact bitAt_andLast_lowMask hlen hrem p

@[simp] theorem length_clearKeyHighBits (mode : Mode) (r : List Byte) :
    (clearKeyHighBits mode r).length = r.length := by
  unfold clearKeyHighBits
  dsimp only
  split_ifs
  · rfl
  · exact length_andLast _ _

@[simp] theorem length_fillKeyHighBits (mode : Mode) (key out : List Byte) :
    (fillKeyHighBits hashByte mode key out).length = out.length := by
  unfold fillKeyHighBits
  dsimp only
  split_ifs <;> simp

/-- Filling the high bits keeps the bits below `vecBits` and sets the others to the hash. -/
theorem bitAt_fillKeyHighBits {mode : Mode} {key rho r : List Byte}
    (hrho : rho.length = rhoBytes) (hlen : r.length = (makeInfo mode).vecBytes)
    (hclear : ofBytes r < 2 ^ (makeInfo mode).vecBits) {p : ℕ} (hp : p < 8 * codeKeyBytes mode) :
    bitAt (fillKeyHighBits hashByte mode key (rho ++ r)) p =
      if p < 8 * rhoBytes + (makeInfo mode).vecBits then bitAt (rho ++ r) p
      else (hashByte key).getLsbD (p % 8) := by
  have hvec := makeInfo_vecBytes mode
  have hpos := vecBits_pos mode
  have hcode : codeKeyBytes mode = rhoBytes + (makeInfo mode).vecBytes := rfl
  have htail : 8 * rhoBytes + (makeInfo mode).vecBits ≤ p → bitAt (rho ++ r) p = false := by
    intro hge
    rw [bitAt_append, if_neg (by omega)]
    exact ofBytes_lt_iff.mp hclear _ (by omega)
  unfold fillKeyHighBits
  by_cases hrem : (makeInfo mode).vecBits % 8 = 0
  · rw [keyHighMask_of_zero hrem, if_pos rfl, if_pos (by omega)]
  · obtain ⟨hmask, hzero⟩ := keyHighMask_of_ne hrem
    have hmod := Nat.mod_lt p (show 0 < 8 by norm_num)
    have hlast : rhoBytes + (makeInfo mode).vecBytes - 1 < (rho ++ r).length := by
      rw [List.length_append]
      omega
    dsimp only
    rw [if_neg hzero, hmask, bitAt_orAt hlast, BitVec.getLsbD_and, BitVec.getLsbD_not, getLsbD_lowMask hmod]
    split_ifs with hlow
    · have hno : ¬ (p / 8 = rhoBytes + (makeInfo mode).vecBytes - 1 ∧
          ¬ p % 8 < (makeInfo mode).vecBits % 8) := by
        have hr : rhoBytes = 32 := rfl
        omega
      by_cases hdiv : p / 8 = rhoBytes + (makeInfo mode).vecBytes - 1
      · have hlt : p % 8 < (makeInfo mode).vecBits % 8 := by
          by_contra hge
          exact hno ⟨hdiv, hge⟩
        simp [hlt]
      · simp [hdiv]
    · have hr : rhoBytes = 32 := rfl
      have hdiv : p / 8 = rhoBytes + (makeInfo mode).vecBytes - 1 := by omega
      have hge : ¬ p % 8 < (makeInfo mode).vecBits % 8 := by omega
      rw [htail (by omega), decide_eq_true hdiv, decide_eq_false hge]
      simp [hmod]

/-- `encodeKey` on a key of the right length, taken apart. -/
theorem encodeKey_eq {mode : Mode} {poly rho : List Byte}
    (hpoly : poly.length = (makeInfo mode).polyBytes) (hrho : rho.length = rhoBytes) :
    encodeKey hashByte mode (poly ++ rho) =
      .ok ((encodeVec (unpackTriples poly) (makeInfo mode).vecBits).map fun r =>
        fillKeyHighBits hashByte mode (poly ++ rho) (rho ++ r)) := by
  have hlen : (poly ++ rho).length = rawKeyBytes mode := by
    rw [List.length_append, hpoly, hrho, rawKeyBytes_eq]
  have hmod : poly.length % 3 = 0 := by rw [hpoly, polyBytes_eq, Nat.mul_mod_left]
  have htake : (poly ++ rho).take (makeInfo mode).polyBytes = poly := by rw [← hpoly, List.take_left]
  have hdrop : (poly ++ rho).drop (makeInfo mode).polyBytes = rho := by rw [← hpoly, List.drop_left]
  unfold encodeKey
  simp only [hlen, htake, hdrop, unpackPolyBytes, hmod, ne_eq, not_true_eq_false, throwIf_false,
    ok_bind, pure_eq_ok]
  cases hvec : encodeVec (unpackTriples poly) (makeInfo mode).vecBits with
  | none => rfl
  | some r =>
    have hr : r.length = (makeInfo mode).vecBytes := by
      rw [encodeVec, exportVec_eq_some] at hvec
      exact hvec.1
    have hout : splice (splice (List.replicate (codeKeyBytes mode) 0) 0 rho) rhoBytes r =
        rho ++ r := by
      simp [splice, hrho, hr, codeKeyBytes]
    simp only [hout, Option.map_some]

/-- `decodeKey` on data of the right length, taken apart. -/
theorem decodeKeyInto_eq {mode : Mode} {rho r key : List Byte} (hrho : rho.length = rhoBytes)
    (hr : r.length = (makeInfo mode).vecBytes) (hkey : key.length = rawKeyBytes mode) :
    decodeKeyInto mode (rho ++ r) key =
      .ok ((decodeVec (clearKeyHighBits mode r) (makeInfo mode).vecBits
        (makeInfo mode).vecSize).map fun t => packPairs t ++ rho) := by
  have hlen : (rho ++ r).length = codeKeyBytes mode := by
    rw [List.length_append, hrho, hr, codeKeyBytes]
  have hslice : slice (rho ++ r) rhoBytes (makeInfo mode).vecBytes = r := by
    rw [slice, ← hrho, List.drop_left, ← hr, List.take_length]
  have htake : (rho ++ r).take rhoBytes = rho := by rw [← hrho, List.take_left]
  unfold decodeKeyInto
  simp only [hlen, hkey, hslice, htake, ne_eq, not_true_eq_false, or_self, if_false]
  cases hvec : decodeVec (clearKeyHighBits mode r) (makeInfo mode).vecBits
      (makeInfo mode).vecSize with
  | none => rfl
  | some t =>
    have ht : t.length = (makeInfo mode).vecSize :=
      ((decodeVec_eq_some (two_pow_vecBits_le mode)).mp hvec).2.2.1
    have hpack : (packPairs t).length = (makeInfo mode).polyBytes := by
      rw [length_packPairs, ht, polyBytes_eq]
    have hout : splice (splice key 0 (packPairs t)) (makeInfo mode).polyBytes rho =
        packPairs t ++ rho := by
      rw [rawKeyBytes_eq] at hkey
      simp [splice, hpack, hrho, hkey]
    have heven := vecSize_even mode
    simp only [packPolyBytes, ht, heven, ne_eq, not_true_eq_false, throwIf_false, ok_bind,
      pure_eq_ok, hout, Option.map_some]

theorem decodeVec_clear {mode : Mode} {r : List Byte} (hr : r.length = (makeInfo mode).vecBytes) :
    ∃ t, decodeVec (clearKeyHighBits mode r) (makeInfo mode).vecBits (makeInfo mode).vecSize =
      some t := by
  apply exists_decodeVec (two_pow_vecBits_le mode)
  · rw [length_clearKeyHighBits, hr, makeInfo_vecBytes]
  · rw [ofBytes_lt_iff]
    intro p hp
    rw [bitAt_clearKeyHighBits hr, decide_eq_false (by omega), Bool.and_false]

/-- The coefficients of a raw key, as `encodeKey` unpacks them. -/
def keyCoeffs (mode : Mode) (key : List Byte) : List ℕ :=
  unpackTriples (key.take (makeInfo mode).polyBytes)

theorem unpackTriples_packPairs_of_lt {mode : Mode} {t : List ℕ}
    (hlen : t.length = (makeInfo mode).vecSize) (hlt : ∀ x ∈ t, x < q) :
    unpackTriples (packPairs t) = t := by
  apply unpackTriples_packPairs t
  · rw [hlen, vecSize_even]
  · intro x hx
    exact lt_trans (hlt x hx) (by decide)

/-- A code string is a seed and a vector code. -/
theorem exists_rho_append {mode : Mode} {d : List Byte} (hd : d.length = codeKeyBytes mode) :
    ∃ rho r, d = rho ++ r ∧ rho.length = rhoBytes ∧ r.length = (makeInfo mode).vecBytes := by
  rw [codeKeyBytes] at hd
  exact exists_append_of_length hd

/-- The decoder reads the bits below `vecBits` only. -/
theorem decodeKeyInto_congr {mode : Mode} {d d' key : List Byte}
    (hd : d.length = codeKeyBytes mode) (hd' : d'.length = codeKeyBytes mode)
    (hkey : key.length = rawKeyBytes mode)
    (h : ∀ p < 8 * rhoBytes + (makeInfo mode).vecBits, bitAt d' p = bitAt d p) :
    decodeKeyInto mode d' key = decodeKeyInto mode d key := by
  obtain ⟨rho, r, rfl, hrho, hr⟩ := exists_rho_append hd
  obtain ⟨rho', r', rfl, hrho', hr'⟩ := exists_rho_append hd'
  have hseed : rho' = rho := by
    apply ext_bitAt (hrho'.trans hrho.symm)
    intro p hp
    have hbit := h p (by omega)
    rwa [bitAt_append, bitAt_append, if_pos hp, if_pos (by omega)] at hbit
  have hclear : clearKeyHighBits mode r' = clearKeyHighBits mode r := by
    apply ext_bitAt (by rw [length_clearKeyHighBits, length_clearKeyHighBits, hr', hr])
    intro p _
    rw [bitAt_clearKeyHighBits hr', bitAt_clearKeyHighBits hr]
    by_cases hp : p < (makeInfo mode).vecBits
    · have hbit := h (8 * rhoBytes + p) (by omega)
      rw [bitAt_append, bitAt_append, if_neg (by omega), if_neg (by omega), hrho', hrho,
        Nat.add_sub_cancel_left] at hbit
      rw [hbit]
    · simp [hp]
  rw [decodeKeyInto_eq hrho' hr' hkey, decodeKeyInto_eq hrho hr hkey, hseed, hclear]

/-- Every string of the right length is the code of a key with coefficients below `q`. The
spare bits do not matter to the decoder, and encoding the key again gives the string with
bits of the hash in their place. -/
theorem decodeKey_total (mode : Mode) {d : List Byte} (hd : d.length = codeKeyBytes mode) :
    ∃ key, decodeKey mode d = .ok (some key) ∧
      (∀ buf, buf.length = rawKeyBytes mode → decodeKeyInto mode d buf = .ok (some key)) ∧
      key.length = rawKeyBytes mode ∧
      (keyCoeffs mode key).length = (makeInfo mode).vecSize ∧
      (∀ t ∈ keyCoeffs mode key, t < q) ∧
      (∀ d', d'.length = codeKeyBytes mode →
        (∀ p < 8 * rhoBytes + (makeInfo mode).vecBits, bitAt d' p = bitAt d p) →
        decodeKey mode d' = .ok (some key)) ∧
      ∃ e, encodeKey hashByte mode key = .ok (some e) ∧ e.length = codeKeyBytes mode ∧
        ∀ p < 8 * codeKeyBytes mode, bitAt e p =
          if p < 8 * rhoBytes + (makeInfo mode).vecBits then bitAt d p
          else (hashByte key).getLsbD (p % 8) := by
  have hcode : codeKeyBytes mode = rhoBytes + (makeInfo mode).vecBytes := rfl
  have hzero : (List.replicate (rawKeyBytes mode) (0 : Byte)).length = rawKeyBytes mode := by simp
  obtain ⟨rho, r, rfl, hrho, hr⟩ := exists_rho_append hd
  obtain ⟨t, ht⟩ := decodeVec_clear hr
  have hdec := decodeKeyInto_eq hrho hr hzero
  obtain ⟨hrlen, hrlt, htlen, htq, hval⟩ := (decodeVec_eq_some (two_pow_vecBits_le mode)).mp ht
  have hpack : (packPairs t).length = (makeInfo mode).polyBytes := by
    rw [length_packPairs, htlen, polyBytes_eq]
  have hcoeffs : keyCoeffs mode (packPairs t ++ rho) = t := by
    rw [keyCoeffs, ← hpack, List.take_left, unpackTriples_packPairs_of_lt htlen htq]
  have henc := encodeKey_eq hashByte hpack hrho
  rw [unpackTriples_packPairs_of_lt htlen htq, encodeVec, horner_eq,
    exportVec_eq_some.mpr ⟨hrlen, hval.symm, hval ▸ hrlt⟩] at henc
  rw [ht] at hdec
  refine ⟨packPairs t ++ rho, hdec, ?_, ?_, ?_, ?_, ?_, _, henc, ?_, ?_⟩
  · intro buf hbuf
    rw [decodeKeyInto_eq hrho hr hbuf, ht]
    rfl
  · rw [List.length_append, hpack, hrho, rawKeyBytes_eq]
  · rw [hcoeffs, htlen]
  · rw [hcoeffs]
    exact htq
  · intro d' hd' hagree
    exact (decodeKeyInto_congr hd hd' hzero hagree).trans hdec
  · rw [length_fillKeyHighBits, List.length_append, hrho, length_clearKeyHighBits, hr, hcode]
  · intro p hp
    rw [bitAt_fillKeyHighBits hashByte hrho (by rw [length_clearKeyHighBits, hr]) hrlt hp]
    split_ifs with hlow
    · rw [bitAt_append, bitAt_append]
      split_ifs
      · rfl
      · rw [bitAt_clearKeyHighBits hr, decide_eq_true (by omega), Bool.and_true]
    · rfl

theorem decodeKey_total_zeros : ∃ key,
    decodeKey .mlKem512 (List.replicate (codeKeyBytes .mlKem512) 0) = .ok (some key) := by
  obtain ⟨key, hkey, -⟩ := decodeKey_total (fun _ => 0) .mlKem512 List.length_replicate
  exact ⟨key, hkey⟩

/-- A raw key is packed coefficients and a seed. -/
theorem exists_poly_append {mode : Mode} {key : List Byte} (hkey : key.length = rawKeyBytes mode) :
    ∃ poly rho, key = poly ++ rho ∧ poly.length = (makeInfo mode).polyBytes ∧
      rho.length = rhoBytes := by
  rw [rawKeyBytes_eq] at hkey
  exact exists_append_of_length hkey

/-- `encodeKey` accepts exactly the keys whose integer has `vecBits` bits. -/
theorem encodeKey_isSome_iff {mode : Mode} {key : List Byte} (hkey : key.length = rawKeyBytes mode) :
    (∃ e, encodeKey hashByte mode key = .ok (some e)) ↔
      Nat.ofDigits q (keyCoeffs mode key) < 2 ^ (makeInfo mode).vecBits := by
  obtain ⟨poly, rho, rfl, hpoly, hrho⟩ := exists_poly_append hkey
  have hcoeffs : keyCoeffs mode (poly ++ rho) = unpackTriples poly := by
    rw [keyCoeffs, ← hpoly, List.take_left]
  rw [encodeKey_eq hashByte hpoly hrho, encodeVec, horner_eq, hcoeffs]
  constructor
  · rintro ⟨e, he⟩
    obtain ⟨r, hr, -⟩ := Option.map_eq_some_iff.mp (Except.ok.inj he)
    exact (exportVec_eq_some.mp hr).2.2
  · intro hlt
    obtain ⟨r, hr⟩ := exists_exportVec hlt
    rw [hr]
    exact ⟨_, rfl⟩

/-- The code of a canonical key has the fixed length and decodes to the key. -/
theorem decodeKeyInto_encodeKey {mode : Mode} {key e buf : List Byte}
    (hkey : key.length = rawKeyBytes mode) (hq : ∀ t ∈ keyCoeffs mode key, t < q)
    (henc : encodeKey hashByte mode key = .ok (some e)) (hbuf : buf.length = rawKeyBytes mode) :
    e.length = codeKeyBytes mode ∧ decodeKeyInto mode e buf = .ok (some key) := by
  obtain ⟨poly, rho, rfl, hpoly, hrho⟩ := exists_poly_append hkey
  have hcoeffs : keyCoeffs mode (poly ++ rho) = unpackTriples poly := by
    rw [keyCoeffs, ← hpoly, List.take_left]
  rw [hcoeffs] at hq
  rw [encodeKey_eq hashByte hpoly hrho, encodeVec, horner_eq] at henc
  obtain ⟨r, hr, rfl⟩ := Option.map_eq_some_iff.mp (Except.ok.inj henc)
  obtain ⟨hrlen, hval, hlt⟩ := exportVec_eq_some.mp hr
  rw [← makeInfo_vecBytes] at hrlen
  have hcode : (rho ++ r).length = codeKeyBytes mode := by
    rw [List.length_append, hrho, hrlen, codeKeyBytes]
  have hfill : (fillKeyHighBits hashByte mode (poly ++ rho) (rho ++ r)).length =
      codeKeyBytes mode := by
    rw [length_fillKeyHighBits, hcode]
  refine ⟨hfill, ?_⟩
  have hagree : ∀ p < 8 * rhoBytes + (makeInfo mode).vecBits,
      bitAt (fillKeyHighBits hashByte mode (poly ++ rho) (rho ++ r)) p = bitAt (rho ++ r) p := by
    intro p hp
    have hvec := makeInfo_vecBytes mode
    have hp' : p < 8 * codeKeyBytes mode := by
      rw [codeKeyBytes]
      omega
    rw [bitAt_fillKeyHighBits hashByte hrho hrlen (hval ▸ hlt) hp', if_pos hp]
  have hclear : clearKeyHighBits mode r = r := by
    apply ext_bitAt (length_clearKeyHighBits mode r)
    intro p _
    rw [bitAt_clearKeyHighBits hrlen]
    by_cases hp : p < (makeInfo mode).vecBits
    · simp [hp]
    · rw [ofBytes_lt_iff.mp (hval ▸ hlt) p (by omega), Bool.false_and]
  have hlen : (unpackTriples poly).length = (makeInfo mode).vecSize := by
    have heven := vecSize_even mode
    rw [length_unpackTriples, hpoly, polyBytes_eq]
    omega
  have hdec := (decodeVec_eq_some (two_pow_vecBits_le mode)).mpr
    ⟨hrlen.trans (makeInfo_vecBytes mode), hval ▸ hlt, hlen, hq, hval.symm⟩
  have hmod : poly.length % 3 = 0 := by rw [hpoly, polyBytes_eq, Nat.mul_mod_left]
  rw [decodeKeyInto_congr hcode hfill hbuf hagree, decodeKeyInto_eq hrho hrlen hbuf, hclear, hdec,
    Option.map_some, packPairs_unpackTriples poly hmod]

/-- Round trip and exact acceptance of canonical keys. -/
theorem encodeKey_decodeKey (mode : Mode) {key : List Byte}
    (hkey : key.length = rawKeyBytes mode) (hq : ∀ t ∈ keyCoeffs mode key, t < q) :
    ((∃ e, encodeKey hashByte mode key = .ok (some e)) ↔
      ((keyCoeffs mode key).mapIdx fun i t => t * q ^ i).sum < 2 ^ (makeInfo mode).vecBits) ∧
    (encodeKey hashByte mode key = .ok none ∨ ∃ e, encodeKey hashByte mode key = .ok (some e)) ∧
    ∀ e, encodeKey hashByte mode key = .ok (some e) →
      e.length = codeKeyBytes mode ∧ decodeKey mode e = .ok (some key) := by
  refine ⟨?_, ?_, fun e henc => ?_⟩
  · rw [encodeKey_isSome_iff hashByte hkey, Nat.ofDigits_eq_sum_mapIdx]
  · obtain ⟨poly, rho, rfl, hpoly, hrho⟩ := exists_poly_append hkey
    rw [encodeKey_eq hashByte hpoly hrho]
    cases encodeVec (unpackTriples poly) (makeInfo mode).vecBits with
    | none => exact .inl rfl
    | some r => exact .inr ⟨_, rfl⟩
  · exact decodeKeyInto_encodeKey hashByte hkey hq henc List.length_replicate

theorem unpackTriples_zeros (m : ℕ) :
    ∀ t ∈ unpackTriples (List.replicate (3 * m) 0), t = 0 := by
  induction m with
  | zero => simp [unpackTriples]
  | succ m ih =>
    have hrep : List.replicate (3 * (m + 1)) (0 : Byte) = 0 :: 0 :: 0 :: List.replicate (3 * m) 0 :=
      rfl
    rw [hrep, unpackTriples]
    simpa using ih

theorem encodeKey_decodeKey_zeros : ∃ e,
    encodeKey (fun _ => 0) .mlKem512 (List.replicate 800 0) = .ok (some e) ∧
      decodeKey .mlKem512 e = .ok (some (List.replicate 800 0)) := by
  have hcoeffs : ∀ t ∈ keyCoeffs .mlKem512 (List.replicate 800 0), t = 0 := by
    have htake : (List.replicate 800 (0 : Byte)).take (makeInfo .mlKem512).polyBytes =
        List.replicate (3 * 256) 0 := List.take_replicate
    rw [keyCoeffs, htake]
    exact unpackTriples_zeros 256
  have hlen : (List.replicate 800 (0 : Byte)).length = rawKeyBytes .mlKem512 := List.length_replicate
  have hsum : ((keyCoeffs .mlKem512 (List.replicate 800 0)).mapIdx fun i t => t * q ^ i).sum = 0 := by
    apply List.sum_eq_zero
    intro x hx
    obtain ⟨i, hi, rfl⟩ := List.mem_mapIdx.mp hx
    rw [hcoeffs _ (List.getElem_mem hi), Nat.zero_mul]
  obtain ⟨hiff, -, hround⟩ := encodeKey_decodeKey (fun _ => 0) .mlKem512 hlen
    (fun t ht => by rw [hcoeffs t ht]; decide)
  obtain ⟨e, he⟩ := hiff.mpr (by rw [hsum]; positivity)
  exact ⟨e, he, (hround e he).2⟩

end PqPsi.Kemeleon
