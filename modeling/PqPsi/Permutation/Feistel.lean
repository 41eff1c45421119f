import PqPsi.Common.Bytes
import PqPsi.Lib.Buffers
import PqPsi.Lib.Exceptions
import PqPsi.Lib.Inverses

/-!
# The Feistel permutation of a row

Two halves of 400 bytes, and a round function from SHAKE256 that is keyed by
the party and the round number only. The sponge behind SHAKE256 is a
parameter: nothing here depends on what it computes.
-/
namespace PqPsi.Permutation

/-- An object of the class; the constructor admits no other ones. -/
structure Feistel where
  rounds : ℕ
  party : Byte
  rounds_pos : 0 < rounds

namespace Feistel
open Lib.Exceptions Lib.Inverses

section Shake

/-- The sponge `k(r, m, n, p, h, d)` of TweetableFIPS202: rate, message, suffix and the number of
output bytes. -/
abbrev Sponge := (r : Byte) → (m : List Byte) → (p : Byte) → (d : ℕ) → Vector Byte d

/-- `crypto_hash_shake256`: the bytes it writes and its return code. -/
def cryptoHashShake256 (k : Sponge) (d : ℕ) (m : List Byte) : Vector Byte d × ℤ :=
  (k (17 * 8) m 31 d, 0)

end Shake

section Object

/-- `Bytes`: one row of the protocol. -/
def rowBytes : ℕ := 800

def halfBytes : ℕ := rowBytes / 2

/-- The constructor: a party is one bit, and there is at least one round. -/
def makeFeistel (rounds : ℕ) (party : Byte) : Except Err Feistel :=
  if h : rounds = 0 then .error "feistel needs at least one round"
  else .ok ⟨rounds, party &&& 1, Nat.pos_of_ne_zero h⟩

def store64 (x : U64) : List Byte := (List.range 8).map fun i => (x >>> (8 * i)).setWidth 8

/-- `out[i] ^= in[i]` over one half. -/
def xorInto (input out : List Byte) : List Byte := List.zipWith (· ^^^ ·) out input

/-- The bytes `P Q F S T L 1` with a terminating zero. -/
def label : List Byte := [0x50, 0x51, 0x46, 0x53, 0x54, 0x4c, 0x31, 0]

variable (k : Sponge) (f : Feistel)

/-- What a round hashes: label, party, round, current half. -/
def maskInput (curr : List Byte) (r : ℕ) : List Byte :=
  label ++ f.party :: store64 (BitVec.ofNat 64 r) ++ curr

def roundMask (curr : List Byte) (r : ℕ) : Except Err (List Byte) := do
  let (out, code) := cryptoHashShake256 k halfBytes (maskInput f curr r)
  throwIf (code ≠ 0) "SHAKE256 failed"
  return out.toList

def check (bytes : ℕ) : Except Err Unit :=
  throwIf (bytes ≠ rowBytes) "feistel expects one full PQ row"

/-- The two halves of the row, in memory order. -/
abbrev Halves := List Byte × List Byte

/-- One turn of `encryptBytes` on `prev` and `curr`, with `next` as the scratch buffer. -/
def encryptRound (h : Halves) (r : ℕ) : Except Err Halves := do
  let (prev, curr) := h
  let next ← roundMask k f curr r
  let next := xorInto prev next
  return (curr, next)

/-- One turn of `decryptBytes` on `curr` and `next`, with `prev` as the scratch buffer. -/
def decryptRound (h : Halves) (r : ℕ) : Except Err Halves := do
  let (curr, next) := h
  let prev ← roundMask k f curr r
  let prev := xorInto next prev
  return (prev, curr)

def encryptBytes (data : List Byte) : Except Err (List Byte) := do
  check data.length
  let h ← (List.range f.rounds).foldlM (encryptRound k f)
    (data.take halfBytes, data.drop halfBytes)
  return h.1 ++ h.2

/-- The rounds of `encryptBytes`, counted down. -/
def decryptBytes (data : List Byte) : Except Err (List Byte) := do
  check data.length
  let h ← (List.range f.rounds).reverse.foldlM (decryptRound k f)
    (data.take halfBytes, data.drop halfBytes)
  return h.1 ++ h.2

end Object

section Inverse
variable (k : Sponge) (f : Feistel)

/-- The output of the round function, which never fails. -/
def mask (curr : List Byte) (r : ℕ) : List Byte :=
  (k (17 * 8) (maskInput f curr r) 31 halfBytes).toList

@[simp] theorem roundMask_eq (curr : List Byte) (r : ℕ) : roundMask k f curr r = .ok (mask k f curr r) :=
  rfl

@[simp] theorem length_mask (curr : List Byte) (r : ℕ) : (mask k f curr r).length = halfBytes :=
  Vector.length_toList

/-- Both halves have their full length. -/
def Full (h : Halves) : Prop := h.1.length = halfBytes ∧ h.2.length = halfBytes

def round (h : Halves) (r : ℕ) : Halves := (h.2, xorInto h.1 (mask k f h.2 r))

def unround (r : ℕ) (h : Halves) : Halves := (xorInto h.2 (mask k f h.1 r), h.1)

/-- The mask of the same half, added again, leaves what was added to it. -/
theorem xorInto_xorInto {a m : List Byte} (h : a.length = m.length) :
    xorInto (xorInto a m) m = a := by
  have hcomm : ∀ x y : List Byte, List.zipWith (· ^^^ ·) x y = List.zipWith (· ^^^ ·) y x :=
    fun x y => List.zipWith_comm_of_comm fun a b => BitVec.xor_comm a b
  rw [xorInto, xorInto, hcomm m, hcomm m, zipWith_xor_cancel h.le]

variable {h : Halves} (hf : Full h)
include hf

theorem round_full (r : ℕ) : Full (round k f h r) :=
  ⟨hf.2, by simp [round, xorInto, hf.1]⟩

theorem unround_full (r : ℕ) : Full (unround k f r h) :=
  ⟨by simp [unround, xorInto, hf.2], hf.1⟩

theorem unround_round (r : ℕ) : unround k f r (round k f h r) = h := by
  simp only [unround, round]
  rw [xorInto_xorInto (by rw [hf.1, length_mask])]

theorem round_unround (r : ℕ) : round k f (unround k f r h) r = h := by
  simp only [unround, round]
  rw [xorInto_xorInto (by rw [hf.2, length_mask])]

omit hf

theorem full_of_length {data : List Byte} (hlen : data.length = rowBytes) :
    Full (data.take halfBytes, data.drop halfBytes) := by
  simp [Full, hlen, rowBytes, halfBytes]

theorem encryptBytes_eq {data : List Byte} (hlen : data.length = rowBytes) :
    encryptBytes k f data =
      let h := (List.range f.rounds).foldl (round k f) (data.take halfBytes, data.drop halfBytes)
      .ok (h.1 ++ h.2) := by
  have hpure : encryptRound k f = fun h r => pure (round k f h r) := rfl
  rw [encryptBytes, check, throwIf, if_neg (not_not.mpr hlen), ok_bind, hpure, List.foldlM_pure]
  rfl

theorem decryptBytes_eq {data : List Byte} (hlen : data.length = rowBytes) :
    decryptBytes k f data =
      let h := (List.range f.rounds).foldr (unround k f) (data.take halfBytes, data.drop halfBytes)
      .ok (h.1 ++ h.2) := by
  have hpure : decryptRound k f = fun h r => pure (unround k f r h) := rfl
  rw [decryptBytes, check, throwIf, if_neg (not_not.mpr hlen), ok_bind, hpure, List.foldlM_pure,
    List.foldl_reverse]
  rfl

/-- The halves are found again in the row that they are written to. -/
theorem halves_append (hf : Full h) :
    (h.1 ++ h.2).length = rowBytes ∧
      ((h.1 ++ h.2).take halfBytes, (h.1 ++ h.2).drop halfBytes) = h := by
  refine ⟨?_, ?_⟩
  · rw [List.length_append, hf.1, hf.2]
    rfl
  · rw [List.take_left' hf.1, List.drop_left' hf.1]

theorem decryptBytes_cancel {x : List Byte} (hx : x.length = rowBytes) :
    (encryptBytes k f x >>= decryptBytes k f) = .ok x := by
  have hfull := full_of_length hx
  have hout : Full ((List.range f.rounds).foldl (round k f) (x.take halfBytes, x.drop halfBytes)) :=
    foldl_induction (P := Full) (fun r h hf => round_full k f hf r) _ hfull
  obtain ⟨hlen, hsplit⟩ := halves_append hout
  rw [encryptBytes_eq k f hx, ok_bind, decryptBytes_eq k f hlen, hsplit,
    foldr_foldl_cancel (P := Full) (fun r h hf => round_full k f hf r)
      (fun r h hf => unround_round k f hf r) _ hfull]
  simp

theorem encryptBytes_cancel {x : List Byte} (hx : x.length = rowBytes) :
    (decryptBytes k f x >>= encryptBytes k f) = .ok x := by
  have hfull := full_of_length hx
  have hout : Full ((List.range f.rounds).foldr (unround k f) (x.take halfBytes, x.drop halfBytes)) :=
    foldr_induction (P := Full) (fun r h hf => unround_full k f hf r) _ hfull
  obtain ⟨hlen, hsplit⟩ := halves_append hout
  rw [decryptBytes_eq k f hx, ok_bind, encryptBytes_eq k f hlen, hsplit,
    foldl_foldr_cancel (P := Full) (fun r h hf => unround_full k f hf r)
      (fun r h hf => round_unround k f hf r) _ hfull]
  simp

/-- Each direction undoes the other on every row, for every round count, party and sponge. -/
theorem feistel_inverts (rounds : ℕ) (party : Byte) (x : List Byte) (hrounds : 1 ≤ rounds)
    (hx : x.length = 800) :
    ∃ f, makeFeistel rounds party = .ok f ∧ f.rounds = rounds ∧ f.party = party &&& 1 ∧
      (encryptBytes k f x >>= decryptBytes k f) = .ok x ∧
      (decryptBytes k f x >>= encryptBytes k f) = .ok x := by
  have hne : ¬ rounds = 0 := by omega
  exact ⟨⟨rounds, party &&& 1, Nat.pos_of_ne_zero hne⟩, dif_neg hne, rfl, rfl,
    decryptBytes_cancel k _ hx, encryptBytes_cancel k _ hx⟩

/-- SHAKE256 on the one message that a single round of party 1 hashes for the zero row, in
64-bit words. -/
def sampleShake : List U64 :=
  [0xcb5d0bffe3c082db, 0x1dbfc876b330bdfa, 0x41c9bf568b0265f9, 0xcea897748079c0a2,
    0x9d2e0e3e7bf13a12, 0xf7fabc6ec38b6b1d, 0xe5ce81d826c36dd7, 0x6c384e2f7a9dfe5d,
    0xd5f406e100311c99, 0x8482d0614c4fba7c, 0xfa803928fc150172, 0xcaea1807d5fcbc8f,
    0x01598c830d543406, 0x2b9ed3566245c2c9, 0xdd984e56727bfcae, 0x2176f7104aba05d2,
    0x5e4a8d2331ebdd48, 0xbb5cf4b6f62f540b, 0xe004a95f2934b109, 0x1e3c2f9492dd0c89,
    0x8d73b60bb8c76189, 0x5a43bf6b0a188895, 0xe56a5daef151f25c, 0x090358cfd5155281,
    0xb2c490a616c9d28c, 0x7ff187545b9c6066, 0xf349c6d1f216a208, 0x3bbe649e9c4e1199,
    0xa13bcda4d9914d65, 0x4dc0cd612b85cbf0, 0x4f74255d81507799, 0x1ce62a86e29abb7e,
    0x3a83ef24ae04145e, 0xb06f555917b63bdd, 0xc8d89fe27dc2573d, 0x67e71b03737a39d0,
    0x0045afcd0ac3e941, 0x20e4e31f61607a11, 0xd163cf058bc5a9a5, 0xd4437c3d5c6761f4,
    0xb3955f09280efddd, 0x0bce051c4a8a5c10, 0x9acd9b85ef41736d, 0x9a0936160febf43c,
    0xbe2903e092e0e61a, 0xe50782dffd7137e1, 0x2dc2215e3c6e587a, 0x151eb1c9c099eacb,
    0x45ed3f408036e0d9, 0xb0b3c2023c71e93c]

/-- The sponge at that message. -/
def sampleSponge : Sponge := fun _ _ _ d =>
  Vector.ofFn fun i : Fin d => (sampleShake.getD (i.val / 8) 0 >>> (8 * (i.val % 8))).setWidth 8

theorem feistel_inverts_zeros :
    ∃ f, makeFeistel 1 1 = .ok f ∧ f.rounds = 1 ∧ f.party = 1 &&& 1 ∧
      (encryptBytes sampleSponge f (List.replicate 800 0) >>= decryptBytes sampleSponge f) =
        .ok (List.replicate 800 0) ∧
      (decryptBytes sampleSponge f (List.replicate 800 0) >>= encryptBytes sampleSponge f) =
        .ok (List.replicate 800 0) :=
  feistel_inverts sampleSponge 1 1 _ (by decide) List.length_replicate

end Inverse

end Feistel

end PqPsi.Permutation
