import PqPsi.Lib.BitLists
import PqPsi.Permutation.Cons

/-!
# The window of `ConsPi`

The state at offset `off` stands for its bits rotated by `off`. Each operation
on the window is described on the rotated bits, for offsets at a byte boundary
and for the others.
-/
namespace PqPsi.Permutation
open Lib.BitStream Lib.BitLists Lib.Buffers Lib.Exceptions Protocol

/-- The facts about sizes that the constructor checks. -/
theorem checkParams_eq_ok {small : Small} {params : Params} (h : checkParams small params = .ok ()) :
    0 < params.s ∧ params.n = small.bits ∧ params.n < params.N ∧
      (params.N - params.n) % params.s = 0 ∧ params.s ≤ params.n := by
  simp only [checkParams, bind_eq_ok, throwIf_eq_ok, exists_and_left, exists_const] at h
  omega

theorem wrap_eq_mod {N pos : ℕ} (h : pos < 2 * N) : wrap N pos = pos % N := by
  unfold wrap
  split_ifs with hlt
  · exact (Nat.mod_eq_of_lt hlt).symm
  · rw [Nat.mod_eq_sub_mod (by omega), Nat.mod_eq_of_lt (by omega)]

namespace ConsPi
variable {c : ConsPi}

theorem n_eq (c : ConsPi) : c.params.n = 8 * c.small.bytes := by
  have hbits := (checkParams_eq_ok c.accepted).2.1
  have hmod := c.small.bits_mod
  rw [Small.bytes]
  omega

theorem n_lt (c : ConsPi) : c.params.n < c.params.N := (checkParams_eq_ok c.accepted).2.2.1

theorem s_le (c : ConsPi) : c.params.s ≤ c.params.n := (checkParams_eq_ok c.accepted).2.2.2.2

/-- A state of the size that the parameters name, and an offset into it. -/
structure Fits (c : ConsPi) (data : List Byte) (off : ℕ) : Prop where
  length_eq : c.params.N = 8 * data.length
  off_lt : off < c.params.N

section Aligned
variable {data buf : List Byte} {off : ℕ}

theorem Fits.start_lt (h : c.Fits data off) : off / 8 < data.length := by
  have hN := h.length_eq
  have hoff := h.off_lt
  omega

theorem Fits.bytes_lt (h : c.Fits data off) : c.small.bytes < data.length := by
  have hN := h.length_eq
  have hn := c.n_eq
  have hlt := c.n_lt
  omega

theorem packShifted_of_aligned (h : c.Fits data off) (hbuf : buf.length = c.small.bytes)
    (hal : off % 8 = 0) :
    c.packShifted data off buf = (data.rotate (off / 8)).take c.small.bytes := by
  have hn : c.params.n / 8 = buf.length := by rw [c.n_eq]; omega
  have hN : c.params.N / 8 = data.length := by rw [h.length_eq]; omega
  have hstart := h.start_lt
  have hlt := h.bytes_lt
  simp only [packShifted, if_pos hal, hn, hN]
  rw [List.rotate_eq_drop_append_take hstart.le, ← hbuf, List.take_append, List.length_drop]
  by_cases hw : buf.length ≤ data.length - off / 8
  · rw [min_eq_left hw, if_neg (lt_irrefl _), Nat.sub_eq_zero_of_le hw]
    rw [splice_zero (length_slice (by omega)), slice]
    simp
  · have hw' : data.length - off / 8 ≤ buf.length := by omega
    rw [min_eq_right hw', if_pos (by omega)]
    generalize hf : data.length - off / 8 = first at *
    have hfirst : (slice data (off / 8) first).length = first := length_slice (by omega)
    have hrest : (slice data 0 (buf.length - first)).length = buf.length - first :=
      length_slice (by omega)
    have hfill : splice (splice buf 0 (slice data (off / 8) first))
        (slice data (off / 8) first).length (slice data 0 (buf.length - first)) =
          slice data (off / 8) first ++ slice data 0 (buf.length - first) :=
      splice_splice_zero (by omega)
    rw [hfirst] at hfill
    have hlen : (data.drop (off / 8)).length = first := by rw [List.length_drop, hf]
    rw [hfill, slice, slice, List.drop_zero, List.take_take, List.take_of_length_le hlen.le,
      List.take_of_length_le (hlen.trans_le hw'), min_eq_left (by omega)]

theorem rotate_unpackShifted_of_aligned (h : c.Fits data off) (hbuf : buf.length = c.small.bytes)
    (hal : off % 8 = 0) :
    (c.unpackShifted buf data off).rotate (off / 8) =
      buf ++ (data.rotate (off / 8)).drop c.small.bytes := by
  have hn : c.params.n / 8 = buf.length := by rw [c.n_eq]; omega
  have hN : c.params.N / 8 = data.length := by rw [h.length_eq]; omega
  have hstart := h.start_lt
  have hlt := h.bytes_lt
  simp only [unpackShifted, if_pos hal, hn, hN, ← hbuf]
  by_cases hw : buf.length ≤ data.length - off / 8
  · rw [min_eq_left hw, if_neg (lt_irrefl _), slice, List.drop_zero, List.take_length,
      rotate_splice (by omega)]
  · have hw' : data.length - off / 8 ≤ buf.length := by omega
    rw [min_eq_right hw', if_pos (by omega)]
    generalize hf : data.length - off / 8 = first at *
    have hfirst : (slice buf 0 first).length = first := length_slice (by omega)
    have hrest : (slice buf first (buf.length - first)).length = buf.length - first :=
      length_slice (by omega)
    have hjoin : slice buf 0 first ++ slice buf first (buf.length - first) = buf := by
      rw [slice, slice, List.drop_zero, List.take_of_length_le (List.length_drop).le,
        List.take_append_drop]
    rw [rotate_splice_wrap (by omega) (by omega), hfirst, hrest, Nat.add_sub_cancel' hw', hjoin]

end Aligned

section Unaligned
variable {data buf : List Byte} {off : ℕ}

theorem Fits.place_lt (h : c.Fits data off) (i : ℕ) : (off + i) % c.params.N / 8 < data.length := by
  have hN := h.length_eq
  have hoff := h.off_lt
  have hlt := Nat.mod_lt (off + i) (Nat.zero_lt_of_lt hoff)
  omega

theorem Fits.wrap_eq (h : c.Fits data off) {i : ℕ} (hi : i < c.params.N) :
    wrap c.params.N (off + i) = (off + i) % c.params.N := by
  have hoff := h.off_lt
  exact wrap_eq_mod (by omega)

/-- Bit `i` of the state seen from the offset. -/
theorem Fits.getElem_rotate (h : c.Fits data off) {i : ℕ} (hi : i < ((bitsOf data).rotate off).length) :
    ((bitsOf data).rotate off)[i] = bitAt data ((off + i) % c.params.N) := by
  rw [getElem_rotate_bitsOf, h.length_eq]

theorem bitsOf_packShifted_of_unaligned (h : c.Fits data off) (hbuf : buf.length = c.small.bytes)
    (hal : off % 8 ≠ 0) :
    bitsOf (c.packShifted data off buf) = ((bitsOf data).rotate off).take c.params.n := by
  have hN := h.length_eq
  have hn := c.n_eq
  have hlt := c.n_lt
  have hpos : ∀ i ∈ List.range c.params.n, i / 8 < (List.replicate buf.length 0#8).length := by
    intro i hi
    rw [List.mem_range] at hi
    rw [List.length_replicate]
    omega
  have hlen : (c.packShifted data off buf).length = buf.length := by
    simp only [packShifted, if_neg hal, setBufBit]
    rw [length_foldl_setBit _ (fun i => getByteBit data (wrap c.params.N (off + i))) (fun i => i),
      List.length_replicate]
  apply List.ext_getElem
  · simp only [length_bitsOf, List.length_take, List.length_rotate, hlen]
    omega
  · intro i hi hi'
    have hin : i < c.params.n := by
      rw [List.length_take] at hi'
      omega
    rw [List.getElem_take, h.getElem_rotate, getElem_bitsOf, ← h.wrap_eq (by omega)]
    simp only [packShifted, if_neg hal, setBufBit]
    rw [bitAt_foldl_setBit _ (fun i => getByteBit data (wrap c.params.N (off + i))) (fun i => i) hpos,
      bitAt_replicate_zero, Bool.false_or, Bool.eq_iff_iff, List.any_eq_true]
    simp [hin, getByteBit]

theorem bitAt_unpackShifted_of_unaligned (h : c.Fits data off) (hal : off % 8 ≠ 0) {i : ℕ}
    (hi : i < c.params.N) :
    bitAt (c.unpackShifted buf data off) ((off + i) % c.params.N) =
      if i < c.params.n then bitAt buf i else bitAt data ((off + i) % c.params.N) := by
  have hlt := c.n_lt
  have hwrap : ∀ j ∈ List.range c.params.n, wrap c.params.N (off + j) = (off + j) % c.params.N := by
    intro j hj
    rw [List.mem_range] at hj
    exact h.wrap_eq (by omega)
  have hpos : ∀ j ∈ List.range c.params.n, wrap c.params.N (off + j) / 8 < data.length := by
    intro j hj
    rw [hwrap j hj]
    exact h.place_lt j
  simp only [unpackShifted, if_neg hal, setByteBit, getBufBit]
  split_ifs with hin
  · have hmem := List.mem_range.mpr hin
    have hnd : ((List.range c.params.n).map fun j => wrap c.params.N (off + j)).Nodup := by
      apply List.Nodup.map_on _ List.nodup_range
      intro a ha b hb hab
      rw [hwrap a ha, hwrap b hb] at hab
      rw [List.mem_range] at ha hb
      exact rotate_place_inj (by omega) (by omega) hab
    rw [← hwrap i hmem]
    exact bitAt_foldl_writeBit hpos hnd hmem
  · apply bitAt_foldl_writeBit_of_ne hpos
    intro j hj he
    rw [hwrap j hj] at he
    rw [List.mem_range] at hj
    have hij := rotate_place_inj hi (by omega) he
    omega

end Unaligned

section Windows
variable {data buf : List Byte} {off : ℕ}

theorem length_unpackShifted (h : c.Fits data off) (hbuf : buf.length = c.small.bytes) :
    (c.unpackShifted buf data off).length = data.length := by
  have hlt := h.bytes_lt
  by_cases hal : off % 8 = 0
  · have hlen := congrArg List.length (rotate_unpackShifted_of_aligned h hbuf hal)
    simp only [List.length_rotate, List.length_append, List.length_drop] at hlen
    omega
  · simp only [unpackShifted, if_neg hal, setByteBit]
    exact length_foldl_writeBit _ _ _ _

theorem Fits.unpackShifted (h : c.Fits data off) (hbuf : buf.length = c.small.bytes) :
    c.Fits (c.unpackShifted buf data off) off :=
  ⟨by rw [length_unpackShifted h hbuf, h.length_eq], h.off_lt⟩

theorem bitsOf_packShifted (h : c.Fits data off) (hbuf : buf.length = c.small.bytes) :
    bitsOf (c.packShifted data off buf) = ((bitsOf data).rotate off).take c.params.n := by
  have hstart := h.start_lt
  have hlt := h.bytes_lt
  by_cases hal : off % 8 = 0
  · have hoff : 8 * (off / 8) = off := by omega
    rw [packShifted_of_aligned h hbuf hal, bitsOf_take _ (by simpa using hlt.le),
      bitsOf_rotate _ hstart.le, hoff, c.n_eq]
  · exact bitsOf_packShifted_of_unaligned h hbuf hal

theorem rotate_bitsOf_unpackShifted (h : c.Fits data off) (hbuf : buf.length = c.small.bytes) :
    (bitsOf (c.unpackShifted buf data off)).rotate off =
      bitsOf buf ++ ((bitsOf data).rotate off).drop c.params.n := by
  have hstart := h.start_lt
  have hlt := h.bytes_lt
  have hlen := length_unpackShifted h hbuf
  by_cases hal : off % 8 = 0
  · have hoff : 8 * (off / 8) = off := by omega
    have hbytes := congrArg bitsOf (rotate_unpackShifted_of_aligned h hbuf hal)
    rwa [bitsOf_rotate _ (by omega), bitsOf_append, bitsOf_drop _ (by simpa using hlt.le),
      bitsOf_rotate _ hstart.le, hoff, ← c.n_eq] at hbytes
  · have hN := h.length_eq
    have hn := c.n_eq
    apply List.ext_getElem
    · simp only [List.length_rotate, length_bitsOf, List.length_append, List.length_drop]
      omega
    · intro i hi hi'
      have hiN : i < c.params.N := by
        rw [List.length_rotate, length_bitsOf] at hi
        omega
      have hbl : (bitsOf buf).length = c.params.n := by
        rw [length_bitsOf, hbuf, hn]
      rw [(h.unpackShifted hbuf).getElem_rotate, bitAt_unpackShifted_of_unaligned h hal hiN,
        List.getElem_append]
      by_cases hin : i < c.params.n
      · simp [hbl, hin]
      · have hsum : c.params.n + (i - c.params.n) = i := by omega
        simp only [hbl, hin, if_false, dite_false, List.getElem_drop, hsum, h.getElem_rotate]

theorem bitsOf_materialize (h : c.Fits data off) :
    bitsOf (c.materialize data off) = (bitsOf data).rotate off := by
  have hstart := h.start_lt
  have hN := h.length_eq
  unfold materialize
  split_ifs with hz hal
  · rw [hz, List.rotate_zero]
  · have hoff : 8 * (off / 8) = off := by omega
    rw [bitsOf_rotate _ hstart.le, hoff]
  · simp only [setByteBit]
    apply List.ext_getElem
    · simp
    · intro i hi hi'
      have hiN : i < c.params.N := by
        rw [List.length_rotate, length_bitsOf] at hi'
        omega
      have hpos : ∀ j ∈ List.range c.params.N, j / 8 < (List.replicate data.length 0#8).length := by
        intro j hj
        rw [List.mem_range] at hj
        rw [List.length_replicate]
        omega
      have hnd : ((List.range c.params.N).map fun j => j).Nodup := by
        rw [List.map_id']
        exact List.nodup_range
      rw [h.getElem_rotate, getElem_bitsOf,
        bitAt_foldl_writeBit hpos hnd (List.mem_range.mpr hiN), Nat.add_comm, h.wrap_eq hiN]
      rfl

end Windows

end ConsPi

end PqPsi.Permutation
