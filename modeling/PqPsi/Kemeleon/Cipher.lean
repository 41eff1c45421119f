import PqPsi.Kemeleon.Packing
import PqPsi.Kemeleon.Preimages
import PqPsi.Kemeleon.Vector
import PqPsi.Lib.Buffers
import PqPsi.Lib.Draws

/-!
# Ciphertext encoding

The encoder replaces every compressed coefficient of the first part of a
ciphertext by a random preimage, writes the preimages as one vector, and
rejects at random when the second part has zero entries. The decoder
compresses again. `encodeCipherProfiled` runs a copy of the picking loop and
counts tries and failures; the times it also measures are left out.
-/
namespace PqPsi.Kemeleon
open Lib Lib.BitStream Lib.Buffers

/-- `WordSampler::next`: its rejection loop makes the draw uniform. -/
def next (bound : ℕ) : Draws Err ℕ := Draws.uniform "Kemeleon sampler got zero bound" bound

/-- `randombytes_uniform` of libsodium, which draws nothing for a bound below two. -/
def randombytesUniform (bound : ℕ) : Draws Err ℕ :=
  if bound < 2 then pure 0 else Draws.uniform "unreachable" bound

/-- `vals[i]`; an index outside the table is made visible as an exception. -/
def readVal (table : PreimageTable) (i : ℕ) : Draws Err ℕ :=
  match table.vals[i]? with
  | some val => pure val
  | none => Draws.raise "index outside the preimage table"

def encodePickedVec (mPreimages : PreimageTable) (src : List ℕ) (bits : ℕ) :
    Draws Err (Option (List Byte)) := do
  let x ← src.reverse.foldlM (fun x want => do
    if want ≥ mPreimages.counts.length then Draws.raise "Kemeleon preimage set is empty"
    else
      let count := mPreimages.counts.getD want 0
      if count = 0 then Draws.raise "Kemeleon preimage set is empty"
      else
        let offset := mPreimages.offsets.getD want 0
        let pick ← next count
        let val ← readVal mPreimages (offset + pick)
        return x * q + val) 0
  return exportVec x bits

/-- One round of the loop of `encodePickedVecProfiled` up to its first time stamp. -/
def pickProfiled (mPreimages : PreimageTable) (want : ℕ) : Draws Err ℕ :=
  if want ≥ mPreimages.counts.length then Draws.raise "Kemeleon preimage set is empty"
  else if mPreimages.counts.getD want 0 = 0 then Draws.raise "Kemeleon preimage set is empty"
  else do
    let pick ← next (mPreimages.counts.getD want 0)
    readVal mPreimages (mPreimages.offsets.getD want 0 + pick)

def encodePickedVecProfiled (mPreimages : PreimageTable) (src : List ℕ) (bits : ℕ) :
    Draws Err (Option (List Byte)) := do
  let x ← src.reverse.foldlM (fun x want => do
    let val ← pickProfiled mPreimages want
    return x * q + val) 0
  return exportVec x bits

def shouldRejectZero (bitsPerValue : ℕ) : Draws Err Bool := do
  let scale := 2 ^ bitsPerValue
  let p := (q + scale - 1) / scale
  return (← randombytesUniform p) == 0

/-- The loop of `rejectZeroEntries` over the remaining entries. -/
def rejectLoop (src : List Byte) (bitsPerValue : ℕ) : List ℕ → Draws Err Bool
  | [] => pure false
  | i :: rest => do
    let x := readBits src bitsPerValue (i * bitsPerValue)
    let reject ← (if x = 0 then shouldRejectZero bitsPerValue else pure false)
    if reject then return true else rejectLoop src bitsPerValue rest

def rejectZeroEntries (src : List Byte) (bitsPerValue count : ℕ) : Draws Err Bool :=
  rejectLoop src bitsPerValue (List.range count)

/-- The counters of `Kemeleon::EncodeCipherStats`. -/
structure EncodeCipherStats where
  tries : ℕ
  overflowFails : ℕ
  zeroFails : ℕ

/-- `encodeCipherImpl`; a missing output is a returned `false` with `out` cleared. -/
def encodeCipherImpl (mode : Mode) (cipher : List Byte) (stats : Option EncodeCipherStats) :
    Draws Err (Option (List Byte) × Option EncodeCipherStats) := do
  let info := makeInfo mode
  let mPreimages := makePreimageTable info.du
  if cipher.length ≠ rawCipherBytes mode then
    Draws.raise "Kemeleon cipher has unexpected size"
  else
    let stats := stats.map fun s => { s with tries := s.tries + 1 }
    let uComp := unpackBits (cipher.take info.c1Bytes) info.du info.vecSize
    let picked ← (if stats.isSome then encodePickedVecProfiled mPreimages uComp info.vecBits
      else encodePickedVec mPreimages uComp info.vecBits)
    match picked with
    | none => return (none, stats.map fun s => { s with overflowFails := s.overflowFails + 1 })
    | some r =>
      let reject ← rejectZeroEntries (slice cipher info.c1Bytes info.c2Bytes) info.dv n
      if reject then
        return (none, stats.map fun s => { s with zeroFails := s.zeroFails + 1 })
      else
        let out := List.replicate (codeCipherBytes mode) 0
        let out := splice out 0 r
        let out := splice out info.vecBytes (cipher.drop info.c1Bytes)
        return (some out, stats)

def encodeCipher (mode : Mode) (cipher : List Byte) : Draws Err (Option (List Byte)) := do
  let (out, _) ← encodeCipherImpl mode cipher none
  return out

def encodeCipherProfiled (mode : Mode) (cipher : List Byte) (stats : EncodeCipherStats) :
    Draws Err (Option (List Byte) × EncodeCipherStats) := do
  let (out, stats') ← encodeCipherImpl mode cipher (some stats)
  return (out, stats'.getD stats)

/-- `decodeCipher`; `none` is a returned `false` with `cipher` cleared. -/
def decodeCipher (mode : Mode) (data : List Byte) : Option (List Byte) := do
  let info := makeInfo mode
  if data.length ≠ codeCipherBytes mode then none
  else
    let u ← decodeVec (data.take info.vecBytes) info.vecBits info.vecSize
    let c1 := packBits (u.map (compressValue · info.du)) info.du
    let cipher := List.replicate (rawCipherBytes mode) 0
    let cipher := splice cipher 0 c1
    return splice cipher info.c1Bytes (data.drop info.vecBytes)

section Sizes
variable (mode : Mode)

theorem rawCipherBytes_eq :
    rawCipherBytes mode = (makeInfo mode).c1Bytes + (makeInfo mode).c2Bytes := by
  cases mode <;> rfl

theorem eight_mul_c1Bytes :
    8 * (makeInfo mode).c1Bytes = (makeInfo mode).vecSize * (makeInfo mode).du := by
  cases mode <;> rfl

theorem eight_mul_c2Bytes : 8 * (makeInfo mode).c2Bytes = n * (makeInfo mode).dv := by
  cases mode <;> rfl

theorem du_bounds : 0 < (makeInfo mode).du ∧ (makeInfo mode).du ≤ 11 := by
  cases mode <;> decide

theorem dv_pos : 0 < (makeInfo mode).dv := by
  cases mode <;> decide

end Sizes

section Picks
variable {bitsPerValue : ℕ}

/-- A pick is a uniform choice among the preimages, and stays inside the table. -/
theorem next_bind_readVal {want : ℕ} (hwant : want < 2 ^ bitsPerValue) :
    (next (preimages bitsPerValue want).length >>= fun pick =>
      readVal (makePreimageTable bitsPerValue)
        ((makePreimageTable bitsPerValue).offsets.getD want 0 + pick)) =
      Draws.choice "Kemeleon sampler got zero bound" (preimages bitsPerValue want) := by
  apply Draws.uniform_bind_congr
  intro i hi
  rw [readVal, getElem?_vals bitsPerValue hwant hi]

theorem pickProfiled_eq {want : ℕ} (hpos : 0 < bitsPerValue) (hbits : bitsPerValue ≤ 11)
    (hwant : want < 2 ^ bitsPerValue) :
    pickProfiled (makePreimageTable bitsPerValue) want =
      Draws.choice "Kemeleon sampler got zero bound" (preimages bitsPerValue want) := by
  have hclass := length_preimages_pos hpos hbits hwant
  rw [pickProfiled, length_counts, getD_counts, if_neg (by omega), if_neg (by omega)]
  exact next_bind_readVal hwant

/-- The copied loop makes the same draws in the same order and computes the same vector. -/
theorem encodePickedVecProfiled_eq (table : PreimageTable) (src : List ℕ) (bits : ℕ) :
    encodePickedVecProfiled table src bits = encodePickedVec table src bits := by
  have hround : (fun (x want : ℕ) => do
      let val ← pickProfiled table want
      return x * q + val) = fun x want => do
        if want ≥ table.counts.length then Draws.raise "Kemeleon preimage set is empty"
        else
          let count := table.counts.getD want 0
          if count = 0 then Draws.raise "Kemeleon preimage set is empty"
          else
            let offset := table.offsets.getD want 0
            let pick ← next count
            let val ← readVal table (offset + pick)
            return x * q + val := by
    funext x want
    by_cases hout : want ≥ table.counts.length
    · simp only [pickProfiled, if_pos hout, Draws.raise_bind]
    by_cases hempty : table.counts.getD want 0 = 0
    · simp only [pickProfiled, if_neg hout, if_pos hempty, Draws.raise_bind]
    · simp only [pickProfiled, if_neg hout, if_neg hempty, bind_assoc]
  rw [encodePickedVecProfiled, encodePickedVec, hround]

/-- Both loops draw all preimages and encode the vector of them. -/
theorem encodePickedVec_eq {src : List ℕ} (hpos : 0 < bitsPerValue) (hbits : bitsPerValue ≤ 11)
    (hsrc : ∀ want ∈ src, want < 2 ^ bitsPerValue) (bits : ℕ) :
    encodePickedVec (makePreimageTable bitsPerValue) src bits =
      src.reverse.mapM (fun want => Draws.choice "Kemeleon sampler got zero bound"
        (preimages bitsPerValue want)) >>= fun vs =>
          pure (exportVec (Nat.ofDigits q vs.reverse) bits) := by
  have hpick : ∀ ws : List ℕ, (∀ want ∈ ws, want < 2 ^ bitsPerValue) →
      ws.mapM (pickProfiled (makePreimageTable bitsPerValue)) =
        ws.mapM fun want => Draws.choice "Kemeleon sampler got zero bound"
          (preimages bitsPerValue want) := by
    intro ws hws
    induction ws with
    | nil => rw [List.mapM_nil, List.mapM_nil]
    | cons w ws ih =>
      rw [List.mapM_cons, List.mapM_cons, pickProfiled_eq hpos hbits (hws w (by simp)),
        ih fun want hw => hws want (by simp [hw])]
  rw [← encodePickedVecProfiled_eq, encodePickedVecProfiled, Draws.foldlM_eq_mapM_bind,
    hpick _ fun want hw => hsrc want (List.mem_reverse.mp hw), bind_assoc]
  simp only [pure_bind, ← horner_eq, List.reverse_reverse]

end Picks

section Rejection

theorem shouldRejectZero_eq {bitsPerValue : ℕ} (hbits : bitsPerValue ≤ 11) :
    ∃ p, p = (q + 2 ^ bitsPerValue - 1) / 2 ^ bitsPerValue ∧ 2 ≤ p ∧
      shouldRejectZero bitsPerValue = Draws.uniform "unreachable" p >>= fun i => pure (i == 0) := by
  have hscale : 2 ^ bitsPerValue ≤ 2 ^ 11 := Nat.pow_le_pow_right two_pos hbits
  have hp : 2 ≤ (q + 2 ^ bitsPerValue - 1) / 2 ^ bitsPerValue := by
    rw [Nat.le_div_iff_mul_le (by positivity)]
    simp only [q]
    omega
  refine ⟨_, rfl, hp, ?_⟩
  rw [shouldRejectZero, randombytesUniform, if_neg (by omega)]

theorem not_error_rejectLoop {bitsPerValue : ℕ} (hbits : bitsPerValue ≤ 11) (src : List Byte)
    (is : List ℕ) : ∀ e, ¬ (rejectLoop src bitsPerValue is).Outcome (.error e) := by
  obtain ⟨p, -, hp, hreject⟩ := shouldRejectZero_eq hbits
  induction is with
  | nil => simp [rejectLoop]
  | cons i is ih =>
    intro e
    rw [rejectLoop]
    apply Draws.not_outcome_error_bind
    · intro e'
      split_ifs
      · rw [hreject]
        apply Draws.not_outcome_error_bind
        · intro e''
          rw [Draws.outcome_uniform (by omega)]
          simp
        · simp
      · simp
    · intro b _
      cases b with
      | true => simp
      | false => simpa using ih e

/-- Some draws keep every ciphertext. -/
theorem outcome_rejectLoop_false {bitsPerValue : ℕ} (hbits : bitsPerValue ≤ 11) (src : List Byte)
    (is : List ℕ) : (rejectLoop src bitsPerValue is).Outcome (.ok false) := by
  obtain ⟨p, -, hp, hreject⟩ := shouldRejectZero_eq hbits
  induction is with
  | nil => simp [rejectLoop]
  | cons i is ih =>
    rw [rejectLoop, Draws.outcome_ok_bind]
    refine ⟨false, ?_, by simpa using ih⟩
    split_ifs
    · rw [hreject, Draws.outcome_ok_bind]
      exact ⟨1, (Draws.outcome_uniform (by omega)).mpr ⟨1, by omega, rfl⟩, by simp⟩
    · simp

end Rejection

section Encoding
variable {mode : Mode} {c1 c2 : List Byte}

/-- What the encoder does after the picks. -/
def finishCipher (mode : Mode) (c2 : List Byte) : Option (List Byte) → Draws Err (Option (List Byte))
  | none => pure none
  | some r => do
    let reject ← rejectZeroEntries c2 (makeInfo mode).dv n
    return if reject then none else some (r ++ c2)

/-- The encoder on a ciphertext of the right length, with or without counters. -/
theorem fst_encodeCipherImpl (hc1 : c1.length = (makeInfo mode).c1Bytes)
    (hc2 : c2.length = (makeInfo mode).c2Bytes) (stats : Option EncodeCipherStats) :
    (encodeCipherImpl mode (c1 ++ c2) stats >>= fun res => pure res.1) =
      (unpackBits c1 (makeInfo mode).du (makeInfo mode).vecSize).reverse.mapM
        (fun want => Draws.choice "Kemeleon sampler got zero bound"
          (preimages (makeInfo mode).du want)) >>= fun vs =>
        finishCipher mode c2 (exportVec (Nat.ofDigits q vs.reverse) (makeInfo mode).vecBits) := by
  obtain ⟨hpos, hbits⟩ := du_bounds mode
  have hlen : (c1 ++ c2).length = rawCipherBytes mode := by
    rw [List.length_append, hc1, hc2, rawCipherBytes_eq]
  have htake : (c1 ++ c2).take (makeInfo mode).c1Bytes = c1 := by rw [← hc1, List.take_left]
  have hdrop : (c1 ++ c2).drop (makeInfo mode).c1Bytes = c2 := by rw [← hc1, List.drop_left]
  have hslice : slice (c1 ++ c2) (makeInfo mode).c1Bytes (makeInfo mode).c2Bytes = c2 := by
    rw [slice, hdrop, ← hc2, List.take_length]
  have hpicked : ∀ b : Bool, (if b = true then
      encodePickedVecProfiled (makePreimageTable (makeInfo mode).du)
        (unpackBits c1 (makeInfo mode).du (makeInfo mode).vecSize) (makeInfo mode).vecBits
      else encodePickedVec (makePreimageTable (makeInfo mode).du)
        (unpackBits c1 (makeInfo mode).du (makeInfo mode).vecSize) (makeInfo mode).vecBits) =
      encodePickedVec (makePreimageTable (makeInfo mode).du)
        (unpackBits c1 (makeInfo mode).du (makeInfo mode).vecSize) (makeInfo mode).vecBits := by
    intro b
    rw [encodePickedVecProfiled_eq, ite_self]
  unfold encodeCipherImpl
  simp only [hlen, htake, hdrop, hslice, hpicked, ne_eq, not_true_eq_false, if_false]
  rw [encodePickedVec_eq hpos hbits unpackBits_lt, bind_assoc, bind_assoc]
  congr 1
  funext vs
  rw [pure_bind]
  cases hvec : exportVec (Nat.ofDigits q vs.reverse) (makeInfo mode).vecBits with
  | none => rfl
  | some r =>
    have hr : r.length = (makeInfo mode).vecBytes := (exportVec_eq_some.mp hvec).1
    have hout : splice (splice (List.replicate (codeCipherBytes mode) 0) 0 r)
        (makeInfo mode).vecBytes c2 = r ++ c2 := by
      simp [splice, hr, hc2, codeCipherBytes]
    simp only [finishCipher, hout, bind_assoc]
    congr 1
    funext reject
    cases reject <;> rfl

theorem encodeCipher_eq (hc1 : c1.length = (makeInfo mode).c1Bytes)
    (hc2 : c2.length = (makeInfo mode).c2Bytes) :
    encodeCipher mode (c1 ++ c2) =
      (unpackBits c1 (makeInfo mode).du (makeInfo mode).vecSize).reverse.mapM
        (fun want => Draws.choice "Kemeleon sampler got zero bound"
          (preimages (makeInfo mode).du want)) >>= fun vs =>
        finishCipher mode c2 (exportVec (Nat.ofDigits q vs.reverse) (makeInfo mode).vecBits) :=
  fst_encodeCipherImpl hc1 hc2 none

end Encoding

-- on concrete bytes the tree of draws is not to be unfolded
attribute [irreducible] encodeCipherImpl encodeCipher encodeCipherProfiled

end PqPsi.Kemeleon
