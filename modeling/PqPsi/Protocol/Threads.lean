import PqPsi.Okvs.Threads
import PqPsi.Protocol.KemRows

/-!
# Threads of the protocol

`parallelFor` cuts its range as `RBFor` does, and the counts of hits cut the
rows once more into partial sums. In `size_t` arithmetic, for fewer than
`2 ^ 63` items, all of them visit each item once, in whatever order the threads
run.
-/
namespace PqPsi.Protocol
open Lib Lib.Buffers Lib.Exceptions Lib.Ranges Lib.Workers

/-- The ranges on which `parallelFor` calls its body, in `size_t` arithmetic. -/
def parallelForCalls (w : Workers) (n minWork : ℕ) : List (ℕ × ℕ) :=
  if n = 0 then []
  else if !w.multiThread then [(0, n)]
  else
    let threadCount := workerCount w n minWork
    if threadCount ≤ 1 then [(0, n)]
    else
      let chunk := sizeT (n + threadCount - 1) / threadCount
      ((List.range threadCount).map fun t =>
        let first := sizeT (t * chunk)
        (first, min n (sizeT (first + chunk)))).takeWhile fun r => r.1 < n

theorem workerCount_le (w : Workers) (minWork : ℕ) {n : ℕ} (hn : 0 < n) :
    workerCount w n minWork ≤ n := by
  have hdiv : n / max 1 minWork ≤ n := Nat.div_le_self _ _
  unfold workerCount
  dsimp only
  split_ifs <;> omega

theorem parallelForCalls_eq {n : ℕ} (hn : n < 2 ^ 63) (w : Workers) (minWork : ℕ) :
    parallelForCalls w n minWork = parallelRanges w n minWork := by
  unfold parallelForCalls parallelRanges
  dsimp only
  split_ifs with h₀ h₁ h₂
  · rfl
  · rfl
  · rfl
  · have hcount := workerCount_le w minWork (Nat.pos_of_ne_zero h₀)
    set count := workerCount w n minWork
    obtain ⟨hsum, ⟨hpos, hchunk⟩, hend⟩ := chunk_bounds hn (by omega : 0 < count) hcount
    rw [sizeT_of_lt hsum, chunkRanges]
    generalize (n + count - 1) / count = chunk at hpos hchunk hend ⊢
    refine takeWhile_map_congr fun t ht => ?_
    have ht' := hend t (List.mem_range.mp ht)
    rw [sizeT_of_lt (by omega), sizeT_of_lt (by omega)]
    refine ⟨decide_eq_decide.mpr (by omega), fun hlt => ?_⟩
    rw [decide_eq_true_eq] at hlt
    rw [Nat.min_eq_right hlt.le]

theorem isSplit_parallelRanges (w : Workers) (n minWork : ℕ) :
    IsSplit n (parallelRanges w n minWork) := by
  unfold parallelRanges
  dsimp only
  split_ifs with h₀ h₁ h₂
  · exact isSplit_of_flatMap (by simp) (by simp [h₀])
  · exact isSplit_one (Nat.pos_of_ne_zero h₀)
  · exact isSplit_one (Nat.pos_of_ne_zero h₀)
  · exact isSplit_chunkRanges (le_count_mul_chunk (by omega))

section Count
variable {one : ℕ → Except Err Bool}

/-- The hits of the rows of a range, in a `u64`. -/
def countRangeWord (one : ℕ → Except Err Bool) (r : ℕ × ℕ) : Except Err ℕ :=
  (indices r).foldlM (fun hits i => return sizeT (hits + (← one i).toNat)) 0

/-- The rows of partial sum `t`. -/
def countChunk (n threads t : ℕ) : ℕ × ℕ :=
  let chunk := sizeT (n + threads - 1) / threads
  let first := sizeT (t * chunk)
  (first, min n (sizeT (first + chunk)))

/-- The count of `countDecapHits` and `countEcHits` in the arithmetic of `size_t` and `u64`. -/
def countRowsWord (w : Workers) (n : ℕ) (one : ℕ → Except Err Bool) : Except Err ℕ := do
  if !w.multiThread ∨ n < 64 then countRangeWord one (0, n)
  else
    let threads := min (workerLimit w.env w.multiThread w.workerThreads) n
    let partials ← forRanges (parallelForCalls ⟨w.env, true, threads⟩ threads 1)
      ((Slots.entries ℕ threads).turn fun t _ => countRangeWord one (countChunk n threads t))
      (List.replicate threads 0)
    return partials.foldl (fun hits v => sizeT (hits + v)) 0

theorem foldlM_count_word {l : List ℕ} {acc : ℕ} (h : acc + l.length < 2 ^ 64) :
    l.foldlM (fun hits i => return sizeT (hits + (← one i).toNat)) acc =
      l.foldlM (fun hits i => return hits + (← one i).toNat) acc := by
  induction l generalizing acc with
  | nil => rfl
  | cons i l ih =>
    rw [List.length_cons] at h
    rw [List.foldlM_cons, List.foldlM_cons]
    cases one i with
    | error e => rfl
    | ok b =>
      have hb : b.toNat ≤ 1 := Bool.toNat_le b
      change l.foldlM _ (sizeT (acc + b.toNat)) = l.foldlM _ (acc + b.toNat)
      rw [sizeT_of_lt (by omega)]
      exact ih (by omega)

theorem countRangeWord_eq {r : ℕ × ℕ} (h : r.2 < 2 ^ 64) :
    countRangeWord one r = countRange one r := by
  apply foldlM_count_word
  rw [indices, List.length_range']
  omega

theorem countChunk_eq {n threads t : ℕ} (hn : n < 2 ^ 63) (ht : t < threads) (hle : threads ≤ n) :
    countChunk n threads t = (t * ((n + threads - 1) / threads),
      min n (t * ((n + threads - 1) / threads) + (n + threads - 1) / threads)) := by
  obtain ⟨hsum, -, hend⟩ := chunk_bounds hn (by omega : 0 < threads) hle
  have ht' := hend t ht
  unfold countChunk
  dsimp only
  rw [sizeT_of_lt hsum]
  generalize (n + threads - 1) / threads = chunk at ht' ⊢
  rw [sizeT_of_lt (by omega), sizeT_of_lt (by omega)]

theorem foldl_sizeT {l : List ℕ} {acc : ℕ} (h : acc + l.sum < 2 ^ 64) :
    l.foldl (fun hits v => sizeT (hits + v)) acc = acc + l.sum := by
  induction l generalizing acc with
  | nil => rfl
  | cons v l ih =>
    rw [List.sum_cons] at h ⊢
    rw [List.foldl_cons, sizeT_of_lt (by omega), ih (by omega), Nat.add_assoc]

/-- Nothing wraps in a count of fewer than `2 ^ 63` rows. -/
theorem countRowsWord_eq {n : ℕ} (hn : n < 2 ^ 63) (w : Workers) :
    countRowsWord w n one = countRows w n one := by
  have hspec : ∀ hits, countRows w n one = .ok hits → hits ≤ n := by
    intro hits h
    rw [(countRows_spec h).2]
    exact List.countP_le_length.trans_eq List.length_range
  unfold countRowsWord countRows at *
  split_ifs at * with hseq
  · exact countRangeWord_eq (by dsimp only; omega)
  · dsimp only at *
    set threads := min (workerLimit w.env w.multiThread w.workerThreads) n
    have hturn : ∀ (s : List ℕ), ∀ t ∈ List.range threads,
        (Slots.entries ℕ threads).turn
          (fun t _ => countRangeWord one (countChunk n threads t)) s t =
        (Slots.entries ℕ threads).turn (fun t _ => countRange one
          (t * ((n + threads - 1) / threads),
            min n (t * ((n + threads - 1) / threads) + (n + threads - 1) / threads))) s t := by
      intro s t ht
      have hchunk := countChunk_eq hn (List.mem_range.mp ht) (Nat.min_le_right _ n)
      unfold Slots.turn
      dsimp only
      rw [hchunk, countRangeWord_eq (by dsimp only; omega)]
    have hloop : forRanges (parallelForCalls ⟨w.env, true, threads⟩ threads 1)
        ((Slots.entries ℕ threads).turn fun t _ => countRangeWord one (countChunk n threads t))
        (List.replicate threads 0) =
        parallelFor ⟨w.env, true, threads⟩ threads 1 ((Slots.entries ℕ threads).turn
          fun t _ => countRange one (t * ((n + threads - 1) / threads),
            min n (t * ((n + threads - 1) / threads) + (n + threads - 1) / threads)))
        (List.replicate threads 0) := by
      rw [parallelForCalls_eq (by omega), ← parallelFor, parallelFor_eq, parallelFor_eq]
      exact foldlM_congr hturn _
    rw [hloop]
    cases hpart : parallelFor ⟨w.env, true, threads⟩ threads 1 ((Slots.entries ℕ threads).turn
        fun t _ => countRange one (t * ((n + threads - 1) / threads),
          min n (t * ((n + threads - 1) / threads) + (n + threads - 1) / threads)))
        (List.replicate threads 0) with
    | error e => rfl
    | ok partials =>
      have hle := hspec partials.sum (by rw [hpart]; rfl)
      rw [ok_bind, ok_bind, foldl_sizeT (by omega), Nat.zero_add]

theorem foldlM_count_ok {l : List ℕ} (h : ∀ i ∈ l, ∃ b, one i = .ok b) (acc : ℕ) :
    ∃ hits, l.foldlM (fun hits i => return hits + (← one i).toNat) acc = .ok hits := by
  induction l generalizing acc with
  | nil => exact ⟨acc, rfl⟩
  | cons i l ih =>
    obtain ⟨b, hb⟩ := h i (by simp)
    obtain ⟨hits, hrest⟩ := ih (fun i hi => h i (by simp [hi])) (acc + b.toNat)
    refine ⟨hits, ?_⟩
    rw [List.foldlM_cons, hb]
    exact hrest

/-- A count returns when every check returns. -/
theorem exists_countRows (w : Workers) {n : ℕ} (h : ∀ i < n, ∃ b, one i = .ok b) :
    ∃ hits, countRows w n one = .ok hits := by
  have hrange : ∀ r : ℕ × ℕ, r.2 ≤ n → ∃ hits, countRange one r = .ok hits := fun r hr =>
    foldlM_count_ok (fun i hi => h i ((mem_indices.mp hi).2.trans_le hr)) 0
  unfold countRows
  split_ifs with hseq
  · exact hrange (0, n) le_rfl
  · dsimp only
    set threads := min (workerLimit w.env w.multiThread w.workerThreads) n
    have hloop : ∃ partials, (List.range threads).foldlM ((Slots.entries ℕ threads).turn
        fun t _ => countRange one (t * ((n + threads - 1) / threads),
          min n (t * ((n + threads - 1) / threads) + (n + threads - 1) / threads)))
        (List.replicate threads 0) = .ok partials :=
      Slots.exists_foldlM _ (fun _ _ _ _ _ _ => trivial) List.length_replicate
        fun t _ => hrange _ (Nat.min_le_left _ _)
    obtain ⟨partials, hpart⟩ := hloop
    rw [parallelFor_eq, hpart]
    exact ⟨_, rfl⟩

/-- The partial sums of any number of threads return the count of the sequential loop. -/
theorem countRows_eq_ok_iff (w w' : Workers) (n hits : ℕ) :
    countRows w n one = .ok hits ↔ countRows w' n one = .ok hits := by
  have himp : ∀ w w' : Workers, countRows w n one = .ok hits → countRows w' n one = .ok hits := by
    intro w w' hrun
    obtain ⟨hok, hcount⟩ := countRows_spec hrun
    obtain ⟨hits', hrun'⟩ := exists_countRows w' hok
    rw [hrun', hcount, (countRows_spec hrun').2]
  exact ⟨himp w w', himp w' w⟩

/-- The threads of a count that do not run in order. -/
theorem orderFree_countRange {threads : ℕ} (hn : threads < 2 ^ 63) (w : Workers)
    (chunk : ℕ → ℕ × ℕ) :
    Pool.OrderFree threads (parallelForCalls w threads 1)
      ((Slots.entries ℕ threads).turn fun t _ => countRangeWord one (chunk t))
      (List.replicate threads 0) := by
  rw [parallelForCalls_eq hn]
  exact Pool.orderFree_turn (Slots.extensional_entries _ _) (fun _ _ _ _ _ _ => trivial)
    (isSplit_parallelRanges w threads 1) List.length_replicate

end Count

/-- Results do not depend on threading. For fewer than `2 ^ 63` items, `RBFor` and `parallelFor`
call their body on a split of the items; encoding and decoding give what they give with one
thread, and the counts of hits are those of the sequential loop. -/
theorem threads_do_not_matter {n : ℕ} (hn : n < 2 ^ 63) (w : Workers) (minWork : ℕ) :
    IsSplit n (Okvs.rbForCalls w.env n w.multiThread w.workerThreads) ∧
    IsSplit n (parallelForCalls w n minWork) ∧
    (∀ (F : Type) [Okvs.Double F] (params : Okvs.RBParams F) (setKeys : List Block),
      setKeys.length = n → Okvs.ThreadsInvisible w.env params setKeys) ∧
    (∀ (prims : Primitives) (sk : List RawKey) (rows : List Block) (rowSize hits : ℕ),
      (countDecapHits prims w sk rows rowSize = .ok hits ↔
        countDecapHits prims ⟨w.env, false, 0⟩ sk rows rowSize = .ok hits) ∧
      (countEcHits prims w sk rows rowSize = .ok hits ↔
        countEcHits prims ⟨w.env, false, 0⟩ sk rows rowSize = .ok hits)) ∧
    (∀ one : ℕ → Except Err Bool, countRows w n one = countRowsWord w n one ∧
      ∀ threads ≤ n, Pool.OrderFree threads (parallelForCalls ⟨w.env, true, threads⟩ threads 1)
        ((Slots.entries ℕ threads).turn fun t _ => countRangeWord one (countChunk n threads t))
        (List.replicate threads 0)) := by
  refine ⟨?_, ?_, fun F _ params setKeys hlen => ?_, fun prims sk rows rowSize hits => ⟨?_, ?_⟩,
    fun one => ⟨(countRowsWord_eq hn w).symm, fun threads hle => ?_⟩⟩
  · rw [Okvs.rbForCalls_eq hn]
    exact Okvs.isSplit_rbRanges _ _ _ _
  · rw [parallelForCalls_eq hn]
    exact isSplit_parallelRanges _ _ _
  · exact Okvs.threadsInvisible w.env params (by rw [hlen]; exact hn)
  · simp only [countDecapHits, bind_eq_ok, countRows_eq_ok_iff w ⟨w.env, false, 0⟩]
  · simp only [countEcHits, bind_eq_ok, countRows_eq_ok_iff w ⟨w.env, false, 0⟩]
  · exact orderFree_countRange (by omega) _ _

theorem threads_do_not_matter_hundred :
    parallelForCalls ⟨Okvs.sampleEnv, true, 4⟩ 100 8 = [(0, 25), (25, 50), (50, 75), (75, 100)] ∧
      IsSplit 100 (parallelForCalls ⟨Okvs.sampleEnv, true, 4⟩ 100 8) :=
  ⟨by decide, (threads_do_not_matter (by norm_num) ⟨Okvs.sampleEnv, true, 4⟩ 8).2.1⟩

end PqPsi.Protocol
