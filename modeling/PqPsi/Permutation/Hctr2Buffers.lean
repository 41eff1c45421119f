import PqPsi.Permutation.Hctr2Inverse

/-!
# The counter buffers of HCTR2

`xctr` keeps its counters and its stream in arrays of 50 blocks, while `crypt`
checks its length from below only. The indices that `xctr` uses are listed in
the order of the code, and the row permutation `Hctr` is the caller that
keeps them in range.
-/
namespace PqPsi.Permutation.Hctr2
open Lib.Buffers Lib.Exceptions

section Indices

/-- The two arrays of `xctr`. -/
inductive Buffer where
  | counters
  | stream
deriving DecidableEq

/-- Every index into the two arrays over `bytes` bytes: the loop that writes the counters, the
call that reads them and writes the stream, and the loop that reads the stream by bytes. -/
def xctrIndices (bytes : ℕ) : List (Buffer × ℕ) :=
  let full := bytes / 16
  (List.range full).map (Buffer.counters, ·) ++
    if full ≠ 0 then
      (List.range full).map (Buffer.counters, ·) ++ (List.range full).map (Buffer.stream, ·) ++
        (List.range (full * 16)).map fun i => (Buffer.stream, i / 16)
    else []

theorem mem_xctrIndices {bytes : ℕ} {b : Buffer} {i : ℕ} :
    (b, i) ∈ xctrIndices bytes ↔ i < bytes / 16 := by
  by_cases hfull : bytes / 16 = 0
  · simp [xctrIndices, hfull]
  · cases b with
    | counters => simp [xctrIndices, hfull]
    | stream =>
      simp only [xctrIndices, ne_eq, hfull, not_false_eq_true, if_true, List.mem_append,
        List.mem_map, List.mem_range, Prod.mk.injEq, reduceCtorEq, false_and, and_false,
        exists_false, false_or, true_and, exists_eq_right]
      constructor
      · rintro (hi | ⟨k, hk, rfl⟩)
        · exact hi
        · omega
      · exact Or.inl

theorem xctrIndices_lt_iff {bytes size : ℕ} :
    (∀ a ∈ xctrIndices bytes, a.2 < size) ↔ bytes / 16 ≤ size := by
  constructor
  · intro h
    by_contra hlt
    have hmem : (Buffer.counters, size) ∈ xctrIndices bytes := mem_xctrIndices.mpr (by omega)
    exact absurd (h _ hmem) (lt_irrefl size)
  · rintro h ⟨b, i⟩ hmem
    have hi := mem_xctrIndices.mp hmem
    simp only
    omega

end Indices

section Faults

/-- The loop that fills the counters runs into the end of a buffer that is too small. -/
theorem foldlM_writeBlock_outOfBounds (f : ℕ → Block) {size n : ℕ} (h : size < n) :
    (List.range n).foldlM (fun buf i => writeBlock buf i (f i)) (List.replicate size 0) =
      .error .outOfBounds := by
  have hsplit : List.range n = List.range size ++ size :: List.range' (size + 1) (n - size - 1) := by
    rw [← List.range'_succ, List.range_eq_range', List.range_eq_range']
    have happ := List.range'_append_1 (s := 0) (m := size) (n := n - size - 1 + 1)
    rw [Nat.zero_add] at happ
    rw [happ]
    congr 1
    omega
  have hlen : ¬ size < ((List.range size).map f ++ List.replicate (size - size) (0 : Block)).length := by
    simp
  rw [hsplit, List.foldlM_append, foldlM_writeBlock f le_rfl, ok_bind, List.foldlM_cons,
    writeBlock, if_neg hlen, error_bind]

/-- `xctr` faults exactly when one of its indices is outside the arrays. -/
theorem xctr_outOfBounds_iff (aes : Aes) (input : List Byte) (nonce : Block) :
    xctr aes input nonce = .error .outOfBounds ↔
      ¬ ∀ a ∈ xctrIndices input.length, a.2 < bufferBlocks := by
  rw [xctrIndices_lt_iff, not_le]
  constructor
  · intro hx
    by_contra hle
    rw [xctr, foldlM_writeBlock _ (not_lt.mp hle)] at hx
    simp only [ok_bind] at hx
    split at hx <;> simp at hx
  · intro hlt
    rw [xctr, foldlM_writeBlock_outOfBounds _ hlt, error_bind]

theorem crypt_outOfBounds_iff (key : Key) {data : List Byte} (hlen : 16 ≤ data.length)
    (encrypt : Bool) :
    crypt data key encrypt = .error .outOfBounds ↔ bufferBlocks < (data.length - 16) / 16 := by
  have hshort : ¬ data.length < 16 := by omega
  have hx : ∀ nonce, xctr key.aes (data.drop 16) nonce = .error .outOfBounds ↔
      bufferBlocks < (data.length - 16) / 16 := by
    intro nonce
    rw [xctr_outOfBounds_iff, xctrIndices_lt_iff, not_le, List.length_drop]
  rw [crypt, throwIf, if_neg hshort, ok_bind]
  cases encrypt with
  | true => exact bind_ok_eq_error.trans (hx _)
  | false => exact bind_ok_eq_error.trans (hx _)

/-- No index of the call leaves the arrays of `xctr`, and so the call does not fault. -/
def InBuffers (key : Key) (data : List Byte) (encrypt : Bool) : Prop :=
  (∀ a ∈ xctrIndices (data.length - 16), a.2 < bufferBlocks) ∧
    crypt data key encrypt ≠ .error .outOfBounds

/-- A call that `crypt` admits stays in the arrays exactly below 52 blocks. -/
theorem inBuffers_iff (key : Key) (data : List Byte) (encrypt : Bool) (hlen : 16 ≤ data.length) :
    InBuffers key data encrypt ↔ data.length < 832 := by
  rw [InBuffers, ne_eq, crypt_outOfBounds_iff key hlen, xctrIndices_lt_iff, not_lt, and_self]
  simp only [bufferBlocks]
  omega

/-- One row of the protocol. -/
theorem inBuffers_iff_row :
    InBuffers (makeKey sampleLib sampleKey []) (List.replicate 800 0) true ↔
      (List.replicate 800 (0 : Byte)).length < 832 :=
  inBuffers_iff _ _ _ (by rw [List.length_replicate]; decide)

/-- At 52 blocks the loop writes `counters[50]`. -/
theorem not_inBuffers_832 :
    16 ≤ (List.replicate 832 (0 : Byte)).length ∧
      ¬ InBuffers (makeKey sampleLib sampleKey []) (List.replicate 832 0) true := by
  rw [List.length_replicate]
  refine ⟨by decide, fun h => ?_⟩
  have hmem : (Buffer.counters, 50) ∈ xctrIndices ((List.replicate 832 (0 : Byte)).length - 16) := by
    rw [mem_xctrIndices, List.length_replicate]
    decide
  exact absurd (h.1 _ hmem) (by decide)

end Faults

section Rows

/-- `Hctr::crypt`: one row of the protocol, under the key of the party. -/
def hctrCrypt (key : Key) (data : List Byte) (encrypt : Bool) : Except Fault (List Byte) := do
  throwIf (data.length ≠ bufferBlocks * 16) (.thrown "HCTR state size mismatch")
  crypt data key encrypt

/-- The row permutation is the caller that keeps every index in range. -/
theorem hctrCrypt_ne_outOfBounds (key : Key) (data : List Byte) (encrypt : Bool) :
    hctrCrypt key data encrypt ≠ .error .outOfBounds := by
  by_cases hlen : data.length = bufferBlocks * 16
  · rw [hctrCrypt, throwIf, if_neg (not_not.mpr hlen), ok_bind, ne_eq,
      crypt_outOfBounds_iff key (by rw [hlen]; decide), hlen]
    decide
  · rw [hctrCrypt, throwIf, if_pos hlen, error_bind]
    simp

end Rows

end PqPsi.Permutation.Hctr2
