import PqPsi.Kemeleon.Key

/-!
# Key encoding with work buffers

The loop over key attempts hands the same vectors to `encodeKey` again and
again. What an earlier attempt left in them does not show: the coefficients,
the vector code and the code of the key are overwritten from end to end.
-/
namespace PqPsi.Kemeleon
open Lib.BitStream Lib.Buffers Lib.Exceptions

/-- The two coefficients of byte triple `i`. -/
def triple (src : List Byte) (i : ℕ) : List ℕ :=
  let b₀ := (src.getD (3 * i) 0).toNat
  let b₁ := (src.getD (3 * i + 1) 0).toNat
  let b₂ := (src.getD (3 * i + 2) 0).toNat
  [b₀ ||| (b₁ &&& 0x0F) <<< 8, b₁ >>> 4 ||| b₂ <<< 4]

/-- `unpackPolyBytes` into a vector that is in use. -/
def unpackPolyBytesInto (src : List Byte) (out : List ℕ) : Except Err (List ℕ) := do
  throwIf (src.length % 3 ≠ 0) "Kemeleon poly bytes have unexpected size"
  let out := resize out (src.length / 3 * 2) 0
  return (List.range (src.length / 3)).foldl (fun out i => splice out (i * 2) (triple src i)) out

theorem flatMap_triple : ∀ src : List Byte,
    (List.range (src.length / 3)).flatMap (triple src) = unpackTriples src
  | [] => rfl
  | [_] => by simp [unpackTriples]
  | [_, _] => by simp [unpackTriples]
  | b₀ :: b₁ :: b₂ :: src => by
    have hlen : (b₀ :: b₁ :: b₂ :: src).length / 3 = src.length / 3 + 1 := by
      simp only [List.length_cons]
      omega
    have hshift : ∀ i, triple (b₀ :: b₁ :: b₂ :: src) (i + 1) = triple src i := fun i => rfl
    rw [hlen, List.range_succ_eq_map, List.flatMap_cons, List.flatMap_map, unpackTriples,
      ← flatMap_triple src]
    simp only [Nat.succ_eq_add_one, hshift]
    rfl

/-- Nothing of the old coefficients is left. -/
theorem unpackPolyBytesInto_eq (src : List Byte) (out : List ℕ) :
    unpackPolyBytesInto src out = unpackPolyBytes src := by
  have hrows := length_of_mem_rowsOf (length_resize out (src.length / 3 * 2) 0)
  have hloop := foldl_splice (h := fun i _ => triple src i) hrows fun _ _ _ _ => rfl
  have hn : (rowsOf (resize out (src.length / 3 * 2) 0) 2 (src.length / 3)).length =
      src.length / 3 := by
    simp [rowsOf]
  rw [hn, flatten_rowsOf (length_resize _ _ _)] at hloop
  have hmap : (rowsOf (resize out (src.length / 3 * 2) 0) 2 (src.length / 3)).mapIdx
      (fun i _ => triple src i) = (List.range (src.length / 3)).map (triple src) := by
    apply List.ext_getElem (by simp [rowsOf])
    intro i hi hi'
    simp
  rw [hmap, ← List.flatMap_def, flatMap_triple] at hloop
  rw [unpackPolyBytesInto, unpackPolyBytes]
  dsimp only
  rw [hloop]

/-- `EncodeKeyWork`. -/
structure EncodeKeyWork where
  t : List ℕ
  r : List Byte

/-- `encodeKey` with work buffers and an output vector that are in use. -/
def encodeKeyWork (hashByte : List Byte → Byte) (mode : Mode) (key out : List Byte)
    (work : EncodeKeyWork) : Except Err (Bool × List Byte × EncodeKeyWork) := do
  let info := makeInfo mode
  throwIf (key.length ≠ rawKeyBytes mode) "Kemeleon key has unexpected size"
  let t ← unpackPolyBytesInto (key.take info.polyBytes) work.t
  match encodeVec t info.vecBits with
  | none => return (false, [], ⟨t, []⟩)
  | some r =>
    let out := resize out (codeKeyBytes mode) 0
    let out := splice out 0 (key.drop info.polyBytes)
    let out := splice out rhoBytes r
    return (true, fillKeyHighBits hashByte mode key out, ⟨t, r⟩)

/-- The flag and the code are those of `encodeKey` with fresh vectors. -/
theorem encodeKeyWork_eq (hashByte : List Byte → Byte) (mode : Mode) (key out : List Byte)
    (work : EncodeKeyWork) :
    (encodeKeyWork hashByte mode key out work).map (fun r => (r.1, r.2.1)) =
      (encodeKey hashByte mode key).map fun c => (c.isSome, c.getD []) := by
  unfold encodeKeyWork encodeKey
  by_cases hkey : key.length = rawKeyBytes mode
  swap
  · simp only [hkey, ne_eq, not_false_eq_true, throwIf_true, error_bind]
    rfl
  simp only [unpackPolyBytesInto_eq, hkey, ne_eq, not_true_eq_false, throwIf_false, ok_bind]
  cases unpackPolyBytes (key.take (makeInfo mode).polyBytes) with
  | error e => rfl
  | ok t =>
    rw [ok_bind, ok_bind]
    cases hvec : encodeVec t (makeInfo mode).vecBits with
    | none => rfl
    | some r =>
      have hr : r.length = (makeInfo mode).vecBytes := by
        rw [encodeVec, exportVec_eq_some] at hvec
        exact hvec.1
      have hrho : (key.drop (makeInfo mode).polyBytes).length = rhoBytes := by
        rw [List.length_drop, hkey, rawKeyBytes_eq, Nat.add_sub_cancel_left]
      have hout : ∀ xs : List Byte, xs.length = codeKeyBytes mode →
          splice (splice xs 0 (key.drop (makeInfo mode).polyBytes)) rhoBytes r =
            key.drop (makeInfo mode).polyBytes ++ r := by
        intro xs hxs
        have hfit : (key.drop (makeInfo mode).polyBytes).length + r.length = xs.length := by
          rw [hrho, hr, hxs, codeKeyBytes]
        have hfill := splice_splice_zero hfit
        rwa [hrho] at hfill
      simp only [hout _ (length_resize out _ 0), hout _ List.length_replicate]
      rfl

end PqPsi.Kemeleon
