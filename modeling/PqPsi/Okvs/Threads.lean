import PqPsi.Lib.Workers
import PqPsi.Okvs.Agreement

/-!
# Threads of the encoder and the decoder

`RBFor` cuts its index range with `size_t` arithmetic. Below `2 ^ 63` items
nothing wraps, and the ranges are a split of the items. Each of the five loops
over keys writes its own slot only, so that neither the number of threads nor
the order in which they run shows in the result.
-/
namespace PqPsi.Okvs
open Lib Lib.Buffers Lib.Exceptions Lib.Ranges Lib.Workers

/-- The ranges on which `RBFor` calls its body, in `size_t` arithmetic. -/
def rbForCalls (env : Env) (n : ℕ) (multiThread : Bool) (workerThreads : ℕ) : List (ℕ × ℕ) :=
  if n = 0 then []
  else if !multiThread then [(0, n)]
  else
    let thrN := min (rbWorkerThreads env multiThread workerThreads) n
    if thrN ≤ 1 ∨ n < 64 then [(0, n)]
    else
      let chunk := sizeT (n + thrN - 1) / thrN
      ((List.range thrN).map fun t =>
        let first := min n (sizeT (t * chunk))
        (first, min n (sizeT (first + chunk)))).takeWhile fun r => r.1 < r.2

theorem rbForCalls_eq {n : ℕ} (hn : n < 2 ^ 63) (env : Env) (multiThread : Bool)
    (workerThreads : ℕ) :
    rbForCalls env n multiThread workerThreads = rbRanges env n multiThread workerThreads := by
  unfold rbForCalls rbRanges
  dsimp only
  split_ifs with h₀ h₁ h₂
  · rfl
  · rfl
  · rfl
  · set thrN := min (rbWorkerThreads env multiThread workerThreads) n
    obtain ⟨hsum, hchunk, hend⟩ := chunk_bounds hn (by omega : 0 < thrN) (by omega)
    rw [sizeT_of_lt hsum, chunkRanges]
    congr 1
    refine List.map_congr_left fun t ht => ?_
    have ht' := hend t (List.mem_range.mp ht)
    generalize (n + thrN - 1) / thrN = chunk at hchunk ht' ⊢
    rw [sizeT_of_lt (by omega), sizeT_of_lt (by omega)]

theorem isSplit_rbRanges (env : Env) (n : ℕ) (multiThread : Bool) (workerThreads : ℕ) :
    IsSplit n (rbRanges env n multiThread workerThreads) := by
  unfold rbRanges
  dsimp only
  split_ifs with h₀ h₁ h₂
  · exact isSplit_of_flatMap (by simp) (by simp [h₀])
  · exact isSplit_one (Nat.pos_of_ne_zero h₀)
  · exact isSplit_one (Nat.pos_of_ne_zero h₀)
  · exact isSplit_chunkRanges (le_count_mul_chunk (by omega))

section Loops
variable {F : Type} (env : Env) (params : RBParams F) (columns bandWidth : ℕ)
variable (setKeys : List Block)

instance : Inhabited RBRow := ⟨⟨0, 0, []⟩⟩

instance : Inhabited RBFlatRow := ⟨⟨0, 0, 0⟩⟩

/-- One turn of the loop of `RBRows`. -/
def rowSlot (setValues : List (List Block)) (i : ℕ) (_ : RBRow) : Except Err RBRow := do
  throwIf ((setValues.getD i []).length ≠ (setValues.getD 0 []).length) "RBRows row width mismatch"
  let (start, bits) ← rbBand env params columns bandWidth (setKeys.getD i 0)
  return ⟨start, bits, setValues.getD i []⟩

/-- One turn of the loop of `RBRowsFlat`. -/
def flatRowSlot (setValues : List Block) (rowSize i : ℕ) (_ : RBFlatRow × List Block) :
    Except Err (RBFlatRow × List Block) := do
  let (start, bits) ← rbBand env params columns bandWidth (setKeys.getD i 0)
  return (⟨start, bits, i * rowSize⟩, slice setValues (i * rowSize) rowSize)

/-- One turn of the loops of `RBDecode`, over the way a table row is read. -/
def decodeSlot (rowAt : ℕ → List Block) (i : ℕ) (out : List Block) : Except Err (List Block) := do
  let (start, bits) ← rbBand env params columns bandWidth (setKeys.getD i 0)
  return decodeBand columns start bits rowAt (List.range bandWidth) out

/-- One turn of the loop of `RBDecode` from a flat table to nested values. -/
def decodeSlotPtr (okvsTable : List Block) (rowSize i : ℕ) (out : List Block) :
    Except Err (List Block) := do
  let (start, bits) ← rbBand env params columns bandWidth (setKeys.getD i 0)
  decodeBandPtr columns start bits rowSize okvsTable (List.range bandWidth) out

theorem rbRows_turn (setValues : List (List Block)) :
    rbRows env params columns bandWidth setKeys setValues = (do
      throwIf (setKeys.length ≠ setValues.length) "RBRows key/value mismatch"
      if setKeys.isEmpty then return []
      throwIf ((setValues.getD 0 []).length = 0) "RBRows empty row"
      throwIf (columns < bandWidth) "RBRows columns < bandWidth"
      let rows ← forRanges (rbRanges env setKeys.length params.multiThread params.workerThreads)
        ((Slots.entries RBRow setKeys.length).turn
          (rowSlot env params columns bandWidth setKeys setValues))
        (List.replicate setKeys.length ⟨0, 0, []⟩)
      return sortRows rows) := by
  unfold rbRows Slots.turn rowSlot
  simp only [bind_assoc]
  rfl

theorem rbRowsFlat_turn (setValues : List Block) (rowSize : ℕ) :
    rbRowsFlat env params columns bandWidth setKeys setValues rowSize = (do
      throwIf (rowSize = 0) "RBRowsFlat empty row"
      throwIf (setValues.length ≠ setKeys.length * rowSize) "RBRowsFlat key/value mismatch"
      if setKeys.isEmpty then return ([], [])
      throwIf (columns < bandWidth) "RBRowsFlat columns < bandWidth"
      let (rows, rhs) ← forRanges
        (rbRanges env setKeys.length params.multiThread params.workerThreads)
        (((Slots.entries RBFlatRow setKeys.length).prod
          (Slots.rows Block rowSize setKeys.length)).turn
            (flatRowSlot env params columns bandWidth setKeys setValues rowSize))
        (List.replicate setKeys.length ⟨0, 0, 0⟩, List.replicate setValues.length 0)
      return (sortRows rows, rhs)) := by
  unfold rbRowsFlat Slots.turn flatRowSlot
  simp only [bind_assoc]
  rfl

variable [Double F]

theorem rbDecode_turn (okvsTable : List (List Block)) :
    rbDecode env okvsTable setKeys params = (do
      if okvsTable.isEmpty then return []
      let bandWidth ← rbDecodeWidth okvsTable.length setKeys.length params
      forRanges (rbRanges env setKeys.length params.multiThread params.workerThreads)
        ((Slots.entries (List Block) setKeys.length).turn
          (decodeSlot env params okvsTable.length bandWidth setKeys
            fun col => (okvsTable.getD col []).take (okvsTable.getD 0 []).length))
        (List.replicate setKeys.length
          (List.replicate (okvsTable.getD 0 []).length zeroBlock))) := by
  unfold rbDecode Slots.turn decodeSlot
  simp only [bind_assoc]
  rfl

theorem rbDecodeToNested_turn (okvsTable : List Block) (rowSize : ℕ) :
    rbDecodeToNested env okvsTable rowSize setKeys params = (do
      if okvsTable.isEmpty then return []
      throwIf (rowSize = 0 ∨ okvsTable.length % rowSize ≠ 0) "RBDecode flat table size mismatch"
      let bandWidth ← rbDecodeWidth (okvsTable.length / rowSize) setKeys.length params
      forRanges (rbRanges env setKeys.length params.multiThread params.workerThreads)
        ((Slots.entries (List Block) setKeys.length).turn
          (decodeSlotPtr env params (okvsTable.length / rowSize) bandWidth setKeys okvsTable rowSize))
        (List.replicate setKeys.length (List.replicate rowSize zeroBlock))) := by
  unfold rbDecodeToNested Slots.turn decodeSlotPtr
  simp only [bind_assoc]
  rfl

theorem rbDecodeFlat_turn (okvsTable : List Block) (rowSize : ℕ) :
    rbDecodeFlat env okvsTable rowSize setKeys params = (do
      if okvsTable.isEmpty then return []
      throwIf (rowSize = 0 ∨ okvsTable.length % rowSize ≠ 0) "RBDecode flat table size mismatch"
      let bandWidth ← rbDecodeWidth (okvsTable.length / rowSize) setKeys.length params
      forRanges (rbRanges env setKeys.length params.multiThread params.workerThreads)
        ((Slots.rows Block rowSize setKeys.length).turn
          (decodeSlot env params (okvsTable.length / rowSize) bandWidth setKeys
            fun col => slice okvsTable (col * rowSize) rowSize))
        (List.replicate (setKeys.length * rowSize) zeroBlock)) := by
  unfold rbDecodeFlat Slots.turn decodeSlot rbDecodeWidth
  simp only [bind_assoc, pure_bind]
  rfl

end Loops

section Order
variable {F : Type} (env : Env) (params : RBParams F) (columns bandWidth : ℕ)
variable (setKeys : List Block) {ranges : List (ℕ × ℕ)}

theorem orderFree_rowSlot (hsplit : IsSplit setKeys.length ranges)
    (setValues : List (List Block)) :
    Pool.OrderFree setKeys.length ranges ((Slots.entries RBRow setKeys.length).turn
        (rowSlot env params columns bandWidth setKeys setValues))
      (List.replicate setKeys.length ⟨0, 0, []⟩) :=
  Pool.orderFree_turn (Slots.extensional_entries _ _) (fun _ _ _ _ _ _ => trivial) hsplit
    List.length_replicate

theorem orderFree_flatRowSlot (hsplit : IsSplit setKeys.length ranges) {setValues : List Block}
    {rowSize : ℕ} (hlen : setValues.length = setKeys.length * rowSize) :
    Pool.OrderFree setKeys.length ranges
      (((Slots.entries RBFlatRow setKeys.length).prod
        (Slots.rows Block rowSize setKeys.length)).turn
          (flatRowSlot env params columns bandWidth setKeys setValues rowSize))
      (List.replicate setKeys.length ⟨0, 0, 0⟩, List.replicate setValues.length 0) := by
  refine Pool.orderFree_turn (Slots.extensional_prod (Slots.extensional_entries _ _)
    (Slots.extensional_rows _ _ _)) (fun i hi t t' _ ht => ⟨trivial, ?_⟩) hsplit
    ⟨List.length_replicate, ?_⟩
  · obtain ⟨band, -, hret⟩ := bind_eq_ok.mp ht
    obtain rfl := Except.ok.inj hret
    apply length_slice
    rw [hlen]
    exact Slots.mul_add_le hi
  · exact List.length_replicate.trans hlen

theorem orderFree_decodeSlot (hsplit : IsSplit setKeys.length ranges) (rowAt : ℕ → List Block)
    (rowSize : ℕ) :
    Pool.OrderFree setKeys.length ranges ((Slots.entries (List Block) setKeys.length).turn
        (decodeSlot env params columns bandWidth setKeys rowAt))
      (List.replicate setKeys.length (List.replicate rowSize zeroBlock)) :=
  Pool.orderFree_turn (Slots.extensional_entries _ _) (fun _ _ _ _ _ _ => trivial) hsplit
    List.length_replicate

theorem orderFree_decodeSlotPtr (hsplit : IsSplit setKeys.length ranges) (okvsTable : List Block)
    (rowSize : ℕ) :
    Pool.OrderFree setKeys.length ranges ((Slots.entries (List Block) setKeys.length).turn
        (decodeSlotPtr env params columns bandWidth setKeys okvsTable rowSize))
      (List.replicate setKeys.length (List.replicate rowSize zeroBlock)) :=
  Pool.orderFree_turn (Slots.extensional_entries _ _) (fun _ _ _ _ _ _ => trivial) hsplit
    List.length_replicate

theorem orderFree_decodeSlotFlat (hsplit : IsSplit setKeys.length ranges) (okvsTable : List Block)
    (rowSize : ℕ) :
    Pool.OrderFree setKeys.length ranges ((Slots.rows Block rowSize setKeys.length).turn
        (decodeSlot env params (okvsTable.length / rowSize) bandWidth setKeys
          fun col => slice okvsTable (col * rowSize) rowSize))
      (List.replicate (setKeys.length * rowSize) zeroBlock) := by
  refine Pool.orderFree_turn (Slots.extensional_rows _ _ _) (fun i _ t t' hfit ht => ?_) hsplit
    List.length_replicate
  obtain ⟨band, -, hret⟩ := bind_eq_ok.mp ht
  obtain rfl := Except.ok.inj hret
  refine length_decodeBand _ _ (fun c hc => length_slice ?_) _ hfit
  calc c * rowSize + rowSize ≤ okvsTable.length / rowSize * rowSize := Slots.mul_add_le hc
    _ ≤ okvsTable.length := Nat.div_mul_le_self _ _

end Order

section Threads
variable {F : Type} [Double F] (env : Env) (params : RBParams F)

/-- The same parameters without threads. -/
def RBParams.oneThread {F : Type} (params : RBParams F) : RBParams F :=
  { params with multiThread := false }

omit [Double F] in
theorem rbRows_oneThread (columns bandWidth : ℕ) (setKeys : List Block)
    (setValues : List (List Block)) :
    rbRows env params.oneThread columns bandWidth setKeys setValues =
      rbRows env params columns bandWidth setKeys setValues := by
  unfold rbRows
  simp only [forRanges_rbRanges]
  rfl

omit [Double F] in
theorem rbRowsFlat_oneThread (columns bandWidth : ℕ) (setKeys setValues : List Block)
    (rowSize : ℕ) :
    rbRowsFlat env params.oneThread columns bandWidth setKeys setValues rowSize =
      rbRowsFlat env params columns bandWidth setKeys setValues rowSize := by
  unfold rbRowsFlat
  simp only [forRanges_rbRanges]
  rfl

/-- The resolved shape names the number of threads and does not depend on it otherwise. -/
theorem rbInfoOf_oneThread (n : ℕ) :
    rbInfoOf env n params.oneThread =
      (rbInfoOf env n params).map fun info => { info with workerThreads := 1 } := by
  unfold rbInfoOf
  simp only [Exceptions.map_bind]
  rfl

theorem rbEncode_oneThread (setKeys : List Block) (setValues okvsTable : List (List Block)) :
    rbEncode env setKeys setValues okvsTable params.oneThread =
      rbEncode env setKeys setValues okvsTable params := by
  unfold rbEncode
  rw [rbInfoOf_oneThread]
  simp only [rbRows_oneThread]
  cases rbInfoOf env setKeys.length params <;> rfl

theorem rbEncodeToFlat_oneThread (setKeys : List Block) (setValues : List (List Block))
    (okvsTable : List Block) (rowSize : ℕ) :
    rbEncodeToFlat env setKeys setValues okvsTable rowSize params.oneThread =
      rbEncodeToFlat env setKeys setValues okvsTable rowSize params := by
  unfold rbEncodeToFlat
  rw [rbInfoOf_oneThread]
  simp only [rbRows_oneThread]
  cases rbInfoOf env setKeys.length params <;> rfl

theorem rbEncodeFlat_oneThread (setKeys setValues : List Block) (rowSize : ℕ)
    (okvsTable : List Block) :
    rbEncodeFlat env setKeys setValues rowSize okvsTable params.oneThread =
      rbEncodeFlat env setKeys setValues rowSize okvsTable params := by
  unfold rbEncodeFlat
  rw [rbInfoOf_oneThread]
  simp only [rbRowsFlat_oneThread]
  cases rbInfoOf env setKeys.length params <;> rfl

theorem rbEncodeBlocks_oneThread (setKeys setValues okvsTable : List Block) :
    rbEncodeBlocks env setKeys setValues okvsTable params.oneThread =
      rbEncodeBlocks env setKeys setValues okvsTable params := by
  unfold rbEncodeBlocks
  rw [rbEncode_oneThread]

theorem rbDecode_oneThread (okvsTable : List (List Block)) (setKeys : List Block) :
    rbDecode env okvsTable setKeys params.oneThread = rbDecode env okvsTable setKeys params := by
  unfold rbDecode
  simp only [forRanges_rbRanges]
  rfl

theorem rbDecodeToNested_oneThread (okvsTable : List Block) (rowSize : ℕ) (setKeys : List Block) :
    rbDecodeToNested env okvsTable rowSize setKeys params.oneThread =
      rbDecodeToNested env okvsTable rowSize setKeys params := by
  unfold rbDecodeToNested
  simp only [forRanges_rbRanges]
  rfl

theorem rbDecodeFlat_oneThread (okvsTable : List Block) (rowSize : ℕ) (setKeys : List Block) :
    rbDecodeFlat env okvsTable rowSize setKeys params.oneThread =
      rbDecodeFlat env okvsTable rowSize setKeys params := by
  unfold rbDecodeFlat
  simp only [forRanges_rbRanges]
  rfl

theorem rbDecodeBlocks_oneThread (okvsTable setKeys : List Block) :
    rbDecodeBlocks env okvsTable setKeys params.oneThread =
      rbDecodeBlocks env okvsTable setKeys params := by
  unfold rbDecodeBlocks
  rw [rbDecode_oneThread]

/-- Every encoder and decoder returns what it returns without threads, the loops over the keys
run on the calls of `RBFor`, and the order in which their threads run does not show. -/
structure ThreadsInvisible (setKeys : List Block) : Prop where
  encode : ∀ setValues okvsTable, rbEncode env setKeys setValues okvsTable params =
    rbEncode env setKeys setValues okvsTable params.oneThread
  encodeToFlat : ∀ setValues okvsTable rowSize,
    rbEncodeToFlat env setKeys setValues okvsTable rowSize params =
      rbEncodeToFlat env setKeys setValues okvsTable rowSize params.oneThread
  encodeFlat : ∀ setValues rowSize okvsTable,
    rbEncodeFlat env setKeys setValues rowSize okvsTable params =
      rbEncodeFlat env setKeys setValues rowSize okvsTable params.oneThread
  encodeBlocks : ∀ setValues okvsTable, rbEncodeBlocks env setKeys setValues okvsTable params =
    rbEncodeBlocks env setKeys setValues okvsTable params.oneThread
  decode : ∀ okvsTable, rbDecode env okvsTable setKeys params =
    rbDecode env okvsTable setKeys params.oneThread
  decodeToNested : ∀ okvsTable rowSize, rbDecodeToNested env okvsTable rowSize setKeys params =
    rbDecodeToNested env okvsTable rowSize setKeys params.oneThread
  decodeFlat : ∀ okvsTable rowSize, rbDecodeFlat env okvsTable rowSize setKeys params =
    rbDecodeFlat env okvsTable rowSize setKeys params.oneThread
  decodeBlocks : ∀ okvsTable, rbDecodeBlocks env okvsTable setKeys params =
    rbDecodeBlocks env okvsTable setKeys params.oneThread
  calls : rbRanges env setKeys.length params.multiThread params.workerThreads =
    rbForCalls env setKeys.length params.multiThread params.workerThreads
  rowLoop : ∀ columns bandWidth setValues, Pool.OrderFree setKeys.length
    (rbForCalls env setKeys.length params.multiThread params.workerThreads)
    ((Slots.entries RBRow setKeys.length).turn
      (rowSlot env params columns bandWidth setKeys setValues))
    (List.replicate setKeys.length ⟨0, 0, []⟩)
  flatRowLoop : ∀ columns bandWidth setValues rowSize,
    setValues.length = setKeys.length * rowSize → Pool.OrderFree setKeys.length
      (rbForCalls env setKeys.length params.multiThread params.workerThreads)
      (((Slots.entries RBFlatRow setKeys.length).prod
        (Slots.rows Block rowSize setKeys.length)).turn
          (flatRowSlot env params columns bandWidth setKeys setValues rowSize))
      (List.replicate setKeys.length ⟨0, 0, 0⟩, List.replicate setValues.length 0)
  decodeLoop : ∀ columns bandWidth rowAt rowSize, Pool.OrderFree setKeys.length
    (rbForCalls env setKeys.length params.multiThread params.workerThreads)
    ((Slots.entries (List Block) setKeys.length).turn
      (decodeSlot env params columns bandWidth setKeys rowAt))
    (List.replicate setKeys.length (List.replicate rowSize zeroBlock))
  decodePtrLoop : ∀ columns bandWidth okvsTable rowSize, Pool.OrderFree setKeys.length
    (rbForCalls env setKeys.length params.multiThread params.workerThreads)
    ((Slots.entries (List Block) setKeys.length).turn
      (decodeSlotPtr env params columns bandWidth setKeys okvsTable rowSize))
    (List.replicate setKeys.length (List.replicate rowSize zeroBlock))
  decodeFlatLoop : ∀ bandWidth okvsTable rowSize, Pool.OrderFree setKeys.length
    (rbForCalls env setKeys.length params.multiThread params.workerThreads)
    ((Slots.rows Block rowSize setKeys.length).turn
      (decodeSlot env params (okvsTable.length / rowSize) bandWidth setKeys
        fun col => slice okvsTable (col * rowSize) rowSize))
    (List.replicate (setKeys.length * rowSize) zeroBlock)

theorem threadsInvisible {setKeys : List Block} (hn : setKeys.length < 2 ^ 63) :
    ThreadsInvisible env params setKeys := by
  have hcalls := rbForCalls_eq hn env params.multiThread params.workerThreads
  have hsplit : IsSplit setKeys.length
      (rbForCalls env setKeys.length params.multiThread params.workerThreads) := by
    rw [hcalls]
    exact isSplit_rbRanges _ _ _ _
  exact {
    encode := fun _ _ => (rbEncode_oneThread ..).symm
    encodeToFlat := fun _ _ _ => (rbEncodeToFlat_oneThread ..).symm
    encodeFlat := fun _ _ _ => (rbEncodeFlat_oneThread ..).symm
    encodeBlocks := fun _ _ => (rbEncodeBlocks_oneThread ..).symm
    decode := fun _ => (rbDecode_oneThread ..).symm
    decodeToNested := fun _ _ => (rbDecodeToNested_oneThread ..).symm
    decodeFlat := fun _ _ => (rbDecodeFlat_oneThread ..).symm
    decodeBlocks := fun _ => (rbDecodeBlocks_oneThread ..).symm
    calls := hcalls.symm
    rowLoop := fun _ _ => orderFree_rowSlot env params _ _ setKeys hsplit
    flatRowLoop := fun _ _ _ _ hlen => orderFree_flatRowSlot env params _ _ setKeys hsplit hlen
    decodeLoop := fun _ _ => orderFree_decodeSlot env params _ _ setKeys hsplit
    decodePtrLoop := fun _ _ => orderFree_decodeSlotPtr env params _ _ setKeys hsplit
    decodeFlatLoop := fun _ => orderFree_decodeSlotFlat env params _ setKeys hsplit }

end Threads

end PqPsi.Okvs
