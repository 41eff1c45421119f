import PqPsi.Permutation.ConsPlain
import PqPsi.Permutation.Sneik

/-!
# `ConsPi` is the plain construction, and a permutation

A round of `encryptBytes` or `decryptBytes` moves the offset where the plain
round rotates the state. The plain rounds undo each other, so the two
functions do.
-/
namespace PqPsi.Permutation
open Lib.BitStream Lib.BitLists Lib.Exceptions Lib.Inverses Protocol

namespace ConsPi
variable {c : ConsPi} {data buf : List Byte} {off : ℕ}

section Simulation

/-- A state with its offset and buffer stands for the bits seen from the offset. -/
structure Stands (c : ConsPi) (st : List Byte × ℕ × List Byte) (x : List Bool) : Prop where
  fits : c.Fits st.1 st.2.1
  length_buf : st.2.2.length = c.small.bytes
  bits_eq : (bitsOf st.1).rotate st.2.1 = x

theorem length_packShifted (h : c.Fits data off) (hbuf : buf.length = c.small.bytes) :
    (c.packShifted data off buf).length = c.small.bytes := by
  have hlen := congrArg List.length (bitsOf_packShifted h hbuf)
  have hN := h.length_eq
  have hn := c.n_eq
  have hlt := c.n_lt
  simp only [length_bitsOf, List.length_take, List.length_rotate] at hlen
  omega

theorem shiftWith_stands {perm : List Byte → List Byte}
    (hperm : ∀ buf, (perm buf).length = buf.length) {x : List Bool}
    (h : c.Stands (data, off, buf) x) :
    c.Stands ((c.shiftWith perm data off buf).1, off, (c.shiftWith perm data off buf).2)
      (applyFront perm c.params.n x) := by
  have hlen : (perm (c.packShifted data off buf)).length = c.small.bytes := by
    rw [hperm, length_packShifted h.fits h.length_buf]
  have hpack : c.packShifted data off buf = ofBits (x.take c.params.n) := by
    rw [← ofBits_bitsOf (c.packShifted data off buf), bitsOf_packShifted h.fits h.length_buf,
      h.bits_eq]
  refine ⟨h.fits.unpackShifted hlen, hlen, ?_⟩
  simp only [shiftWith]
  rw [rotate_bitsOf_unpackShifted h.fits hlen, h.bits_eq, applyFront, hpack]

theorem xorRound_stands {x : List Bool} (h : c.Stands (data, off, buf) x) (round : ℕ) :
    c.Stands (c.xorRound data off round, off, buf) (c.addRound round x) where
  fits := h.fits.congr_length (length_xorRound _ _ _)
  length_buf := h.length_buf
  bits_eq := by rw [rotate_bitsOf_xorRound h.fits, h.bits_eq]

/-- Moving the offset rotates the bits that the state stands for. -/
theorem move_stands {x : List Bool} (h : c.Stands (data, off, buf) x) (k : ℕ) :
    c.Stands (data, (off + k) % c.params.N, buf) (x.rotate k) where
  fits := ⟨h.fits.length_eq, Nat.mod_lt _ (Nat.zero_lt_of_lt h.fits.off_lt)⟩
  length_buf := h.length_buf
  bits_eq := by
    have hlen : c.params.N = (bitsOf data).length := by rw [length_bitsOf, h.fits.length_eq]
    rw [hlen, List.rotate_mod, ← List.rotate_rotate, h.bits_eq]

theorem encryptRound_stands {st : List Byte × ℕ × List Byte} {x : List Bool} (h : c.Stands st x)
    (round : ℕ) : c.Stands (c.encryptRound st round) (c.plainRound x round) := by
  obtain ⟨data, off, buf⟩ := st
  exact move_stands (xorRound_stands (shiftWith_stands c.small.length_apply h) round) c.params.s

theorem encryptRounds_stands (rounds : List ℕ) {st : List Byte × ℕ × List Byte} {x : List Bool}
    (h : c.Stands st x) :
    c.Stands (rounds.foldl c.encryptRound st) (rounds.foldl c.plainRound x) := by
  induction rounds generalizing st x with
  | nil => exact h
  | cons round rounds ih => exact ih (encryptRound_stands h round)

theorem decryptRounds_stands (rounds : ℕ) {st : List Byte × ℕ × List Byte} {x : List Bool}
    (h : c.Stands st x) :
    c.Stands (c.decryptRounds rounds st) ((List.range' 1 rounds).foldr c.plainUnround x) := by
  induction rounds generalizing st x with
  | zero => exact h
  | succ round ih =>
    obtain ⟨data, off, buf⟩ := st
    have hs := c.s_le
    have hn := c.n_lt
    have hoff : off + c.params.N - c.params.s = off + (c.params.N - c.params.s) := by omega
    have hmove := move_stands h (c.params.N - c.params.s)
    have hstep := shiftWith_stands c.small.length_invert (xorRound_stands hmove (round + 1))
    have hround : 1 + 1 * round = round + 1 := by omega
    rw [List.range'_concat, List.foldr_append, List.foldr_cons, List.foldr_nil, hround,
      decryptRounds, hoff]
    exact ih hstep

/-- A state at offset zero with a cleared buffer. -/
theorem start_stands (hlen : c.params.N = 8 * data.length) :
    c.Stands (data, 0, List.replicate c.small.bytes 0#8) (bitsOf data) where
  fits := ⟨hlen, Nat.zero_lt_of_lt c.n_lt⟩
  length_buf := List.length_replicate
  bits_eq := List.rotate_zero _

theorem materialize_stands {x : List Bool} (h : c.Stands (data, off, buf) x) :
    bitsOf (c.materialize data off) = x ∧ c.params.N = 8 * (c.materialize data off).length := by
  have hbits := bitsOf_materialize h.fits
  refine ⟨hbits.trans h.bits_eq, ?_⟩
  rw [← length_bitsOf, hbits, List.length_rotate, length_bitsOf]
  exact h.fits.length_eq

theorem encryptBytes_spec (hlen : c.params.N = 8 * data.length) :
    ∃ out, c.encryptBytes data = .ok out ∧ c.params.N = 8 * out.length ∧
      bitsOf out = c.plainEncrypt (bitsOf data) := by
  have hrounds := encryptRounds_stands (List.range' 1 (c.r - 1)) (start_stands hlen)
  have hlast := materialize_stands (shiftWith_stands c.small.length_apply hrounds)
  have hsize : ¬ data.length * 8 ≠ c.params.N := by omega
  refine ⟨_, ?_, hlast.2, hlast.1⟩
  rw [encryptBytes, throwIf, if_neg hsize]
  rfl

theorem decryptBytes_spec (hlen : c.params.N = 8 * data.length) :
    ∃ out, c.decryptBytes data = .ok out ∧ c.params.N = 8 * out.length ∧
      bitsOf out = c.plainDecrypt (bitsOf data) := by
  have hfirst := shiftWith_stands c.small.length_invert (start_stands hlen)
  have hlast := materialize_stands (decryptRounds_stands (c.r - 1) hfirst)
  have hsize : ¬ data.length * 8 ≠ c.params.N := by omega
  refine ⟨_, ?_, hlast.2, hlast.1⟩
  rw [decryptBytes, throwIf, if_neg hsize]
  rfl

end Simulation

section Plain
variable {x : List Bool}

theorem length_applyFront {perm : List Byte → List Byte}
    (hperm : ∀ buf, (perm buf).length = buf.length) (hx : x.length = c.params.N) :
    (applyFront perm c.params.n x).length = c.params.N := by
  have hn := c.n_eq
  have hlt := c.n_lt
  simp only [applyFront, List.length_append, length_bitsOf, hperm, length_ofBits, List.length_take,
    List.length_drop]
  omega

theorem applyFront_cancel {f g : List Byte → List Byte}
    (hf : ∀ buf, (f buf).length = buf.length)
    (hgf : ∀ buf, buf.length = c.small.bytes → g (f buf) = buf) (hx : x.length = c.params.N) :
    applyFront g c.params.n (applyFront f c.params.n x) = x := by
  have hn := c.n_eq
  have hlt := c.n_lt
  have htake : (x.take c.params.n).length = c.params.n := by
    rw [List.length_take]
    omega
  have hbuf : (ofBits (x.take c.params.n)).length = c.small.bytes := by
    rw [length_ofBits, htake]
    omega
  have hfront : (bitsOf (f (ofBits (x.take c.params.n)))).length = c.params.n := by
    rw [length_bitsOf, hf, hbuf, hn]
  rw [applyFront, applyFront, List.take_left' hfront, List.drop_left' hfront, ofBits_bitsOf,
    hgf _ hbuf, bitsOf_ofBits (by omega), List.take_append_drop]

@[simp] theorem length_addRound (round : ℕ) (x : List Bool) :
    (c.addRound round x).length = x.length := by
  simp [addRound]

theorem addRound_addRound (round : ℕ) (x : List Bool) :
    c.addRound round (c.addRound round x) = x := by
  apply List.ext_getElem (by simp)
  intro i hi hi'
  simp only [addRound, List.getElem_mapIdx]
  split_ifs <;> simp

/-- A step of the window and the way back to where it was. -/
theorem rotate_cancel {k l : ℕ} (hx : x.length = k + l) : (x.rotate k).rotate l = x := by
  rw [List.rotate_rotate, ← hx, List.rotate_length]

theorem length_plainRound (round : ℕ) (hx : x.length = c.params.N) :
    (c.plainRound x round).length = c.params.N := by
  rw [plainRound, List.length_rotate, length_addRound, length_applyFront c.small.length_apply hx]

theorem length_plainUnround (round : ℕ) (hx : x.length = c.params.N) :
    (c.plainUnround round x).length = c.params.N := by
  apply length_applyFront c.small.length_invert
  rw [length_addRound, List.length_rotate, hx]

theorem plainUnround_plainRound (hinv : c.small.Inverts) (round : ℕ) (hx : x.length = c.params.N) :
    c.plainUnround round (c.plainRound x round) = x := by
  have hs := c.s_le
  have hn := c.n_lt
  have hfront := length_applyFront c.small.length_apply hx
  have hlen : (c.addRound round (applyFront c.small.apply c.params.n x)).length =
      c.params.s + (c.params.N - c.params.s) := by
    rw [length_addRound, hfront]
    omega
  rw [plainUnround, plainRound, rotate_cancel hlen, addRound_addRound,
    applyFront_cancel c.small.length_apply (fun buf hbuf => (hinv buf hbuf).1) hx]

theorem plainRound_plainUnround (hinv : c.small.Inverts) (round : ℕ) (hx : x.length = c.params.N) :
    c.plainRound (c.plainUnround round x) round = x := by
  have hs := c.s_le
  have hn := c.n_lt
  have hrot : (c.addRound round (x.rotate (c.params.N - c.params.s))).length = c.params.N := by
    rw [length_addRound, List.length_rotate, hx]
  rw [plainRound, plainUnround, applyFront_cancel c.small.length_invert
    (fun buf hbuf => (hinv buf hbuf).2) hrot, addRound_addRound, rotate_cancel (by omega)]

theorem plainDecrypt_plainEncrypt (hinv : c.small.Inverts) (hx : x.length = c.params.N) :
    c.plainDecrypt (c.plainEncrypt x) = x := by
  have hrounds : ((List.range' 1 (c.r - 1)).foldl c.plainRound x).length = c.params.N :=
    foldl_induction (P := fun x : List Bool => x.length = c.params.N)
      (fun round _ => length_plainRound round) _ hx
  rw [plainDecrypt, plainEncrypt, applyFront_cancel c.small.length_apply
    (fun buf hbuf => (hinv buf hbuf).1) hrounds]
  exact foldr_foldl_cancel (fun round _ => length_plainRound round)
    (fun round _ => plainUnround_plainRound hinv round) _ hx

theorem plainEncrypt_plainDecrypt (hinv : c.small.Inverts) (hx : x.length = c.params.N) :
    c.plainEncrypt (c.plainDecrypt x) = x := by
  have hfront := length_applyFront c.small.length_invert hx
  have hrounds := foldl_foldr_cancel (P := fun x : List Bool => x.length = c.params.N)
    (fun round _ => length_plainUnround round) (fun round _ => plainRound_plainUnround hinv round)
    (List.range' 1 (c.r - 1)) hfront
  rw [plainEncrypt, plainDecrypt, hrounds, applyFront_cancel c.small.length_invert (fun buf hbuf => (hinv buf hbuf).2) hx]

end Plain

section Bits

/-- The bit that a byte of `Bits` stands for. -/
theorem bitsOf_bitsToBytes {x : BitBytes} (h8 : x.length % 8 = 0) :
    bitsOf (bitsToBytes x) = x.map fun bit => decide (bit &&& 1 ≠ 0) := by
  have hpos : ∀ i ∈ List.range x.length,
      i / 8 < (List.replicate ((x.length + 7) / 8) 0#8).length := by
    intro i hi
    rw [List.mem_range] at hi
    rw [List.length_replicate]
    omega
  have hfold : bitsToBytes x = (List.range x.length).foldl
      (fun bytes i => if decide (x.getD i 0 &&& 1 ≠ 0) then setBit bytes i else bytes)
      (List.replicate ((x.length + 7) / 8) 0#8) := by
    simp [bitsToBytes]
  have hlen : (bitsToBytes x).length = x.length / 8 := by
    rw [hfold, length_foldl_setBit _ (fun i => decide (x.getD i 0 &&& 1 ≠ 0)) (fun i => i),
      List.length_replicate]
    omega
  apply List.ext_getElem
  · rw [length_bitsOf, hlen, List.length_map]
    omega
  · intro i hi hi'
    rw [List.length_map] at hi'
    rw [getElem_bitsOf, hfold,
      bitAt_foldl_setBit _ (fun i => decide (x.getD i 0 &&& 1 ≠ 0)) (fun i => i) hpos,
      bitAt_replicate_zero, Bool.false_or, List.getElem_map, Bool.eq_iff_iff, List.any_eq_true]
    simp [hi']

theorem bytesToBits_eq {bytes : List Byte} {size : ℕ} (h : size = 8 * bytes.length) :
    bytesToBits bytes size = (bitsOf bytes).map fun bit => if bit then 1 else 0 := by
  rw [bytesToBits, bitsOf, List.map_map, h]
  rfl

theorem bitsToBytes_bytesToBits {bytes : List Byte} {size : ℕ} (h : size = 8 * bytes.length) :
    bitsToBytes (bytesToBits bytes size) = bytes := by
  apply bitsOf_injective
  rw [bytesToBits_eq h, bitsOf_bitsToBytes (by simp), List.map_map]
  conv_rhs => rw [← List.map_id (bitsOf bytes)]
  apply List.map_congr_left
  intro bit _
  cases bit <;> rfl

theorem encrypt_spec {x : BitBytes} (h8 : c.params.N % 8 = 0) (hx : x.length = c.params.N)
    (hbin : ∀ bit ∈ x, bit = 0 ∨ bit = 1) :
    ∃ y, c.encrypt x = .ok y ∧ c.encryptBytes (bitsToBytes x) = .ok (bitsToBytes y) ∧
      y.map (· == 1) = c.plainEncrypt (x.map (· == 1)) := by
  have hbits : bitsOf (bitsToBytes x) = x.map (· == 1) := by
    rw [bitsOf_bitsToBytes (by omega)]
    apply List.map_congr_left
    intro bit hbit
    rcases hbin bit hbit with rfl | rfl <;> rfl
  have hlen : c.params.N = 8 * (bitsToBytes x).length := by
    rw [← length_bitsOf, hbits, List.length_map, hx]
  obtain ⟨out, henc, hout, hplain⟩ := encryptBytes_spec hlen
  have hstate : c.checkState x = .ok () := by
    have hbin' : ¬ ∃ bit ∈ x, bit ≠ 0 ∧ bit ≠ 1 := by
      rintro ⟨bit, hbit, h0, h1⟩
      rcases hbin bit hbit with rfl | rfl
      · exact h0 rfl
      · exact h1 rfl
    rw [checkState, throwIf, if_neg (not_not.mpr hx), ok_bind, throwIf, if_neg hbin']
  refine ⟨bytesToBits out x.length, ?_, ?_, ?_⟩
  · rw [encrypt, hstate, ok_bind, henc, ok_bind, pure_eq_ok]
  · rw [henc, bitsToBytes_bytesToBits (by omega)]
  · rw [bytesToBits_eq (by omega), ← hbits, ← hplain, List.map_map]
    conv_rhs => rw [← List.map_id (bitsOf out)]
    apply List.map_congr_left
    intro bit _
    cases bit <;> rfl

end Bits

end ConsPi

theorem consPi_eq_ok {smalls : Smalls} {params : Params} {party : ℕ} {c : ConsPi}
    (h : consPi smalls params party = .ok c) :
    c.params = params ∧ c.small = makePerm smalls params.kind := by
  unfold consPi at h
  split at h
  · cases h
    exact ⟨rfl, rfl⟩
  · cases h

/-- The constructor accepts what its checks accept. -/
theorem exists_consPi {smalls : Smalls} {params : Params} (party : ℕ)
    (h : checkParams (makePerm smalls params.kind) params = .ok ()) :
    ∃ c, consPi smalls params party = .ok c := by
  unfold consPi
  split
  next => exact ⟨_, rfl⟩
  next e he => exact nomatch he.symm.trans h

section Sample

/-- SNEIK f512 on its 64 bytes; the sample uses no other kind. -/
def sneikSmalls : Smalls where
  apply _ buf := if buf.length = 64 then Sneik.sneikF512 buf 0 8 else buf
  invert _ buf :=
    if buf.length = 64 then Sneik.invertWith (Sneik.unlin 25 24) (Sneik.unlin 17 9) buf 0 8
    else buf
  length_apply _ buf := by
    split_ifs with h
    · exact (Sneik.length_store _).trans h.symm
    · rfl
  length_invert _ buf := by
    split_ifs with h
    · exact (Sneik.length_store _).trans h.symm
    · rfl

/-- Rows of 800 bytes, with a step that is no multiple of eight. -/
def sneikParams : Params := ⟨.sneikF512, 512, 6400, 92, 40⟩

theorem sneikSmalls_inverts : (makePerm sneikSmalls sneikParams.kind).Inverts := by
  intro buf hlen
  have h64 : buf.length = 64 := hlen
  have hA := Sneik.unlin_linA
  have hB := Sneik.unlin_linB
  constructor
  · have hout : (Sneik.sneikF512 buf 0 8).length = 64 := Sneik.length_store _
    simp only [makePerm, sneikSmalls, h64, if_true, hout]
    exact Sneik.invertWith_sneikF512 (fun x => (hA x).1) (fun x => (hB x).1) h64 0 8
  · have hout : (Sneik.invertWith (Sneik.unlin 25 24) (Sneik.unlin 17 9) buf 0 8).length = 64 :=
      Sneik.length_store _
    simp only [makePerm, sneikSmalls, h64, if_true, hout]
    exact Sneik.sneikF512_invertWith (fun x => (hA x).2) (fun x => (hB x).2) h64 0 8

theorem exists_consPi_sneik (party : ℕ) : ∃ c, consPi sneikSmalls sneikParams party = .ok c :=
  exists_consPi party (by rfl)

end Sample

/-- The state that stays in place and the state that is rotated in every round give one result,
for states of bytes and for states of bits. -/
theorem encryptBytes_eq_plainEncrypt {smalls : Smalls} {params : Params} {party : ℕ} {c : ConsPi}
    (hc : consPi smalls params party = .ok c) (h8 : params.N % 8 = 0) :
    (∀ data : List Byte, data.length = params.N / 8 →
      ∃ out, c.encryptBytes data = .ok out ∧ bitsOf out = c.plainEncrypt (bitsOf data)) ∧
    (∀ x : ConsPi.BitBytes, x.length = params.N → (∀ bit ∈ x, bit = 0 ∨ bit = 1) →
      ∃ y, c.encrypt x = .ok y ∧
        c.encryptBytes (ConsPi.bitsToBytes x) = .ok (ConsPi.bitsToBytes y) ∧
        y.map (· == 1) = c.plainEncrypt (x.map (· == 1))) := by
  have hparams := (consPi_eq_ok hc).1
  rw [← hparams] at h8 ⊢
  constructor
  · intro data hlen
    obtain ⟨out, henc, -, hplain⟩ := ConsPi.encryptBytes_spec (c := c)
      (show c.params.N = 8 * data.length by omega)
    exact ⟨out, henc, hplain⟩
  · intro x hx hbin
    exact ConsPi.encrypt_spec h8 hx hbin

theorem encryptBytes_eq_plainEncrypt_sneik :
    ∃ c, consPi sneikSmalls sneikParams 1 = .ok c ∧
      (∃ out, c.encryptBytes (List.replicate 800 0) = .ok out ∧
        bitsOf out = c.plainEncrypt (bitsOf (List.replicate 800 0))) ∧
      ∃ y, c.encrypt (List.replicate 6400 1) = .ok y ∧
        c.encryptBytes (ConsPi.bitsToBytes (List.replicate 6400 1)) = .ok (ConsPi.bitsToBytes y) ∧
        y.map (· == 1) = c.plainEncrypt ((List.replicate 6400 (1 : Byte)).map (· == 1)) := by
  obtain ⟨c, hc⟩ := exists_consPi_sneik 1
  obtain ⟨hbytes, hbits⟩ := encryptBytes_eq_plainEncrypt hc (by decide)
  refine ⟨c, hc, hbytes (List.replicate 800 0) List.length_replicate,
    hbits (List.replicate 6400 1) List.length_replicate fun bit hbit => ?_⟩
  exact .inr (List.eq_of_mem_replicate hbit)

/-- `decryptBytes` is the two-sided inverse of `encryptBytes`. -/
theorem decryptBytes_inverts_encryptBytes {smalls : Smalls} {params : Params} {party : ℕ}
    {c : ConsPi} (hc : consPi smalls params party = .ok c)
    (hinv : (makePerm smalls params.kind).Inverts) (h8 : params.N % 8 = 0) (x : List Byte)
    (hx : x.length = params.N / 8) :
    (c.encryptBytes x >>= c.decryptBytes) = .ok x ∧
      (c.decryptBytes x >>= c.encryptBytes) = .ok x := by
  obtain ⟨hparams, hsmall⟩ := consPi_eq_ok hc
  rw [← hparams] at h8 hx
  rw [← hsmall] at hinv
  have hlen : c.params.N = 8 * x.length := by omega
  have hbits : (bitsOf x).length = c.params.N := by rw [length_bitsOf, hlen]
  constructor
  · obtain ⟨y, henc, hy, hybits⟩ := ConsPi.encryptBytes_spec hlen
    obtain ⟨z, hdec, -, hzbits⟩ := ConsPi.decryptBytes_spec hy
    have hzx : z = x := by
      apply bitsOf_injective
      rw [hzbits, hybits, ConsPi.plainDecrypt_plainEncrypt hinv hbits]
    rw [henc, ok_bind, hdec, hzx]
  · obtain ⟨y, hdec, hy, hybits⟩ := ConsPi.decryptBytes_spec hlen
    obtain ⟨z, henc, -, hzbits⟩ := ConsPi.encryptBytes_spec hy
    have hzx : z = x := by
      apply bitsOf_injective
      rw [hzbits, hybits, ConsPi.plainEncrypt_plainDecrypt hinv hbits]
    rw [hdec, ok_bind, henc, hzx]

theorem decryptBytes_inverts_encryptBytes_sneik :
    ∃ c, consPi sneikSmalls sneikParams 1 = .ok c ∧
      (c.encryptBytes (List.replicate 800 7) >>= c.decryptBytes) = .ok (List.replicate 800 7) ∧
      (c.decryptBytes (List.replicate 800 7) >>= c.encryptBytes) = .ok (List.replicate 800 7) := by
  obtain ⟨c, hc⟩ := exists_consPi_sneik 1
  exact ⟨c, hc, decryptBytes_inverts_encryptBytes hc sneikSmalls_inverts (by decide) _
    List.length_replicate⟩

end PqPsi.Permutation
