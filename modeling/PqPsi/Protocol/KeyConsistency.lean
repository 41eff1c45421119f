import PqPsi.Protocol.KeyWorkers

/-!
# Secret keys and rows belong together

Each worker asserts that its rows so far are as one call for each row leaves
them, and what the attempts on its current row have shown. Its assertion is
about its own rows, so that no other worker breaks it.
-/
namespace PqPsi.Protocol
open Kemeleon Lib Lib.Buffers Lib.Exceptions Lib.Runs Lib.Teams Lib.Workers

section Assertions
variable (prims : Primitives) (seeds : KeySeeds) (rowSize count : ℕ)

/-- Secret key and row `i`. -/
def KeyMemory.pair (m : KeyMemory) (rowSize i : ℕ) : RawKey × List Block :=
  (m.sk.getD i default, slice m.pk (i * rowSize) rowSize)

/-- The exception of some row. -/
def KeyFails (e : Err) : Prop := ∃ i < count, genMlKemKey prims seeds rowSize i = .error e

structure KeyMemory.Shaped (m : KeyMemory) : Prop where
  length_sk : m.sk.length = count
  length_pk : m.pk.length = count * rowSize
  size : ∀ i < count, (m.pair rowSize i).1.length = (getSizes .mlKem512).secretKeyBytes
  thrown : ∀ e, m.firstErr = some e → KeyFails prims seeds rowSize count e

/-- The rows of a worker before row `i` are as one call for each row leaves them. -/
def KeyWorker.Reached (m : KeyMemory) (w : KeyWorker) (i : ℕ) : Prop :=
  w.first ≤ i ∧
    ∀ j, w.first ≤ j → j < i → genMlKemKey prims seeds rowSize j = .ok (m.pair rowSize j)

/-- The attempts from `t` on decide row `i`. -/
def KeyTrying (i t : ℕ) : Prop :=
  tryKeys prims (keySeed seeds i) kMaxKeyTries 0 =
    tryKeys prims (keySeed seeds i) (kMaxKeyTries - t) t

/-- Row `i` is one of the rows of the worker, is still zero, and those before it are filled. -/
structure KeyWorker.Filling (m : KeyMemory) (w : KeyWorker) (i : ℕ) : Prop where
  reached : w.Reached prims seeds rowSize m i
  lt : i < w.last
  zero : (m.pair rowSize i).2 = List.replicate rowSize 0

/-- The assertion of a worker, by its place in the loops. -/
def KeyPhase.Holds (m : KeyMemory) (w : KeyWorker) : KeyPhase → Prop
  | .row i => w.Reached prims seeds rowSize m i ∧ i ≤ w.last
  | .clear i => w.Reached prims seeds rowSize m i ∧ i < w.last
  | .attempt i t => w.Filling prims seeds rowSize m i ∧ KeyTrying prims seeds i t
  | .encode i t => w.Filling prims seeds rowSize m i ∧ KeyTrying prims seeds i t ∧
      t < kMaxKeyTries ∧
      prims.mlKem.keyGen (keySeed seeds i t) = .ok (w.rawPk, (m.pair rowSize i).1)
  | .store i => w.Filling prims seeds rowSize m i ∧
      tryKeys prims (keySeed seeds i) kMaxKeyTries 0 =
        .ok (some ((m.pair rowSize i).1, w.code))
  | .caught e => KeyFails prims seeds rowSize count e
  | .record e => KeyFails prims seeds rowSize count e ∧ m.failed = true
  | .done => w.Reached prims seeds rowSize m w.last ∨ m.failed = true

structure KeyWorker.Holds (m : KeyMemory) (w : KeyWorker) : Prop where
  last_le : w.last ≤ count
  length_rawPk : w.rawPk.length = (getSizes .mlKem512).publicKeyBytes
  phase : w.phase.Holds prims seeds rowSize count m w

end Assertions

section Frame
variable {prims : Primitives} {seeds : KeySeeds} {rowSize count : ℕ} {m m' : KeyMemory}
  {w w' : KeyWorker}

/-- The assertion of a worker is about its own rows and the flag, once it is raised. -/
theorem KeyWorker.Holds.congr (h : w.Holds prims seeds rowSize count m)
    (hpair : ∀ j, w.first ≤ j → j < w.last → m'.pair rowSize j = m.pair rowSize j)
    (hfailed : m.failed = true → m'.failed = true) : w.Holds prims seeds rowSize count m' := by
  have hreached : ∀ i ≤ w.last, w.Reached prims seeds rowSize m i →
      w.Reached prims seeds rowSize m' i := by
    intro i hi hr
    refine ⟨hr.1, fun j hj hji => ?_⟩
    rw [hpair j hj (by omega)]
    exact hr.2 j hj hji
  have hfilling : ∀ i, w.Filling prims seeds rowSize m i →
      w.Filling prims seeds rowSize m' i ∧ m'.pair rowSize i = m.pair rowSize i := by
    intro i hf
    have hi := hpair i hf.reached.1 hf.lt
    exact ⟨⟨hreached i hf.lt.le hf.reached, hf.lt, hi ▸ hf.zero⟩, hi⟩
  obtain ⟨hlast, hraw, hphase⟩ := h
  refine ⟨hlast, hraw, ?_⟩
  generalize w.phase = phase at hphase ⊢
  cases phase with
  | row i => exact ⟨hreached i hphase.2 hphase.1, hphase.2⟩
  | clear i => exact ⟨hreached i hphase.2.le hphase.1, hphase.2⟩
  | attempt i t => exact ⟨(hfilling i hphase.1).1, hphase.2⟩
  | encode i t =>
    obtain ⟨hf, htry, ht, hgen⟩ := hphase
    obtain ⟨hf', hi⟩ := hfilling i hf
    exact ⟨hf', htry, ht, hi ▸ hgen⟩
  | store i =>
    obtain ⟨hf, hfound⟩ := hphase
    obtain ⟨hf', hi⟩ := hfilling i hf
    exact ⟨hf', hi ▸ hfound⟩
  | caught e => exact hphase
  | record e => exact ⟨hphase.1, hfailed hphase.2⟩
  | done => exact hphase.imp (hreached _ le_rfl) hfailed

section Pairs
variable (hm : m.Shaped prims seeds rowSize count) {i j : ℕ} (hi : i < count) (hj : j < count)
include hm hi

theorem pair_setKey (sk : RawKey) :
    KeyMemory.pair { m with sk := m.sk.set i sk } rowSize i = (sk, (m.pair rowSize i).2) := by
  have hget := (Slots.entries RawKey count).get_put (t := sk) hm.length_sk hi trivial
  exact Prod.ext hget rfl

theorem pair_setRow {row : List Block} (hrow : row.length = rowSize) :
    KeyMemory.pair { m with pk := splice m.pk (i * rowSize) row } rowSize i =
      ((m.pair rowSize i).1, row) := by
  have hget := (Slots.rows Block rowSize count).get_put hm.length_pk hi hrow
  exact Prod.ext rfl hget

include hj

theorem pair_setKey_ne (sk : RawKey) (hne : j ≠ i) :
    KeyMemory.pair { m with sk := m.sk.set i sk } rowSize j = m.pair rowSize j := by
  have hget := (Slots.entries RawKey count).get_put_ne (t := sk) hm.length_sk hi hj trivial hne
  exact Prod.ext hget rfl

theorem pair_setRow_ne {row : List Block} (hrow : row.length = rowSize) (hne : j ≠ i) :
    KeyMemory.pair { m with pk := splice m.pk (i * rowSize) row } rowSize j =
      m.pair rowSize j := by
  have hget := (Slots.rows Block rowSize count).get_put_ne hm.length_pk hi hj hrow hne
  exact Prod.ext rfl hget

end Pairs

/-- A move writes to the rows of its worker only, and never lowers the flag. -/
theorem KeyMove.frame (h : KeyMove prims seeds rowSize m w m' w')
    (hm : m.Shaped prims seeds rowSize count) (hw : w.Holds prims seeds rowSize count m) :
    (∀ j < count, j < w.first ∨ w.last ≤ j → m'.pair rowSize j = m.pair rowSize j) ∧
      (m.failed = true → m'.failed = true) := by
  have hlast := hw.last_le
  have hphase := hw.phase
  cases h with
  | stop | finish | enter | noKey | exhausted | found | again | noCode | tooLarge =>
    exact ⟨fun _ _ _ => rfl, id⟩
  | raise => exact ⟨fun _ _ _ => rfl, fun _ => rfl⟩
  | record => exact ⟨fun _ _ _ => rfl, id⟩
  | clear i hp =>
    rw [hp] at hphase
    have hfirst := hphase.1.1
    have hi := hphase.2
    exact ⟨fun j hj hout => pair_setRow_ne hm (by omega) hj List.length_replicate (by omega), id⟩
  | generate i t rawPk sk hp ht hgen =>
    rw [hp] at hphase
    have hfirst := hphase.1.reached.1
    have hi := hphase.1.lt
    exact ⟨fun j hj hout => pair_setKey_ne hm (by omega) hj sk (by omega), id⟩
  | store i hp hlen =>
    rw [hp] at hphase
    have hfirst := hphase.1.reached.1
    have hi := hphase.1.lt
    exact ⟨fun j hj hout => pair_setRow_ne hm (by omega) hj (length_blocksOf _ _) (by omega), id⟩

end Frame

section Step
variable {prims : Primitives} {seeds : KeySeeds} {rowSize count : ℕ} {m m' : KeyMemory}
  {w w' : KeyWorker}

/-- The buffers of a worker have the sizes that `keyGen` asks for. -/
theorem keyGenInto_eq (hm : m.Shaped prims seeds rowSize count)
    (hraw : w.rawPk.length = (getSizes .mlKem512).publicKeyBytes) {i : ℕ} (hi : i < count)
    (seed : List Byte) :
    prims.mlKem.keyGenInto seed w.rawPk (m.sk.getD i default) = prims.mlKem.keyGen seed := by
  have hsk : (m.sk.getD i default).length = (getSizes .mlKem512).secretKeyBytes := hm.size i hi
  simp only [MlKem.keyGenInto, hraw, hsk, ne_eq, not_true_eq_false, throwIf_false, ok_bind]

/-- With fresh or used buffers, `encodeKey` gives the same flag and code. -/
theorem encodeKeyWork_cases {hashByte : List Byte → Byte} {key out : List Byte}
    {work : EncodeKeyWork} {r : Except Err (Bool × List Byte × EncodeKeyWork)}
    (h : encodeKeyWork hashByte .mlKem512 key out work = r) :
    encodeKey hashByte .mlKem512 key =
      r.map fun x => if x.1 then some x.2.1 else none := by
  have heq := encodeKeyWork_eq hashByte .mlKem512 key out work
  rw [h] at heq
  cases hkey : encodeKey hashByte .mlKem512 key with
  | error e =>
    rw [hkey] at heq
    cases r with
    | error e' =>
      obtain rfl : e' = e := by simpa [Except.map] using heq
      rfl
    | ok x => simp [Except.map] at heq
  | ok c =>
    rw [hkey] at heq
    cases r with
    | error e' => simp [Except.map] at heq
    | ok x =>
      obtain ⟨flag, code, work'⟩ := x
      obtain ⟨rfl, rfl⟩ : flag = c.isSome ∧ code = c.getD [] := by simpa [Except.map] using heq
      cases c <;> rfl

/-- One attempt. -/
theorem tryKeys_of_lt (seed : ℕ → List Byte) {t : ℕ} (ht : t < kMaxKeyTries) :
    tryKeys prims seed (kMaxKeyTries - t) t = (do
      let (rawPk, sk) ← prims.mlKem.keyGen (seed t)
      match ← encodeKey prims.hashByte .mlKem512 rawPk with
      | some code => return some (sk, code)
      | none => tryKeys prims seed (kMaxKeyTries - (t + 1)) (t + 1)) := by
  have hsub : kMaxKeyTries - t = kMaxKeyTries - (t + 1) + 1 := by omega
  exact congrArg (fun tries => tryKeys prims seed tries t) hsub

/-- An attempt that has its key is decided by the code of that key. -/
theorem KeyTrying.of_keyGen {i t : ℕ} {rawPk sk : List Byte} {r : Except Err (Option (List Byte))}
    (htry : KeyTrying prims seeds i t) (ht : t < kMaxKeyTries)
    (hgen : prims.mlKem.keyGen (keySeed seeds i t) = .ok (rawPk, sk))
    (hcode : encodeKey prims.hashByte .mlKem512 rawPk = r) :
    tryKeys prims (keySeed seeds i) kMaxKeyTries 0 = (r >>= fun code =>
      code.elim (tryKeys prims (keySeed seeds i) (kMaxKeyTries - (t + 1)) (t + 1))
        fun code => .ok (some (sk, code))) := by
  rw [htry, tryKeys_of_lt _ ht, hgen, ok_bind]
  dsimp only
  rw [hcode]
  congr 1
  funext code
  cases code <;> rfl

theorem bytesOf_replicate (n : ℕ) :
    bytesOf (List.replicate n 0) = List.replicate (blockBytes * n) 0 := by
  have hzero : bytesOfBlock 0 = List.replicate blockBytes 0 := by decide
  rw [bytesOf, List.flatMap_replicate, hzero, List.flatten_replicate_replicate, Nat.mul_comm]

/-- A row fails with the exception of its attempts. -/
theorem genMlKemKey_of_error {i : ℕ} {e : Err}
    (h : tryKeys prims (keySeed seeds i) kMaxKeyTries 0 = .error e) :
    genMlKemKey prims seeds rowSize i = .error e := by
  change tryKeys prims (keySeed seeds i) kMaxKeyTries 0 >>= _ = _
  rw [h, error_bind]

theorem genMlKemKey_of_none {i : ℕ}
    (h : tryKeys prims (keySeed seeds i) kMaxKeyTries 0 = .ok none) :
    genMlKemKey prims seeds rowSize i = .error "genMlKemKeys: encodeKey failed" := by
  change tryKeys prims (keySeed seeds i) kMaxKeyTries 0 >>= _ = _
  rw [h, ok_bind]
  rfl

theorem genMlKemKey_of_some {i : ℕ} {sk code : List Byte}
    (h : tryKeys prims (keySeed seeds i) kMaxKeyTries 0 = .ok (some (sk, code))) :
    genMlKemKey prims seeds rowSize i = (do
      throwIf (code.length > blockBytes * rowSize) "genMlKemKeys: encoded pk too large"
      return (sk, blocksOf rowSize (splice (List.replicate (blockBytes * rowSize) 0) 0 code))) := by
  change tryKeys prims (keySeed seeds i) kMaxKeyTries 0 >>= _ = _
  rw [h, ok_bind]

/-- A move keeps the shape of the memory. -/
theorem KeyMove.shaped (h : KeyMove prims seeds rowSize m w m' w')
    (hm : m.Shaped prims seeds rowSize count) (hw : w.Holds prims seeds rowSize count m) :
    m'.Shaped prims seeds rowSize count := by
  have hlast := hw.last_le
  have hphase := hw.phase
  cases h with
  | stop | finish | enter | noKey | exhausted | found | again | noCode | tooLarge => exact hm
  | raise => exact ⟨hm.length_sk, hm.length_pk, hm.size, hm.thrown⟩
  | record e hp =>
    rw [hp] at hphase
    refine ⟨hm.length_sk, hm.length_pk, hm.size, fun e' he' => ?_⟩
    cases hfirst : m.firstErr with
    | none =>
      obtain rfl : e = e' := by simpa [hfirst] using he'
      exact hphase.1
    | some e₀ =>
      obtain rfl : e₀ = e' := by simpa [hfirst] using he'
      exact hm.thrown e₀ hfirst
  | clear i hp =>
    rw [hp] at hphase
    have hi : i < count := lt_of_lt_of_le hphase.2 hlast
    have hshape := (Slots.rows Block rowSize count).shaped_put hm.length_pk hi
      (List.length_replicate (n := rowSize) (a := (0 : Block)))
    exact ⟨hm.length_sk, hshape, hm.size, hm.thrown⟩
  | store i hp hlen =>
    rw [hp] at hphase
    have hi : i < count := lt_of_lt_of_le hphase.1.lt hlast
    have hshape := (Slots.rows Block rowSize count).shaped_put hm.length_pk hi
      (length_blocksOf rowSize (splice (bytesOf (slice m.pk (i * rowSize) rowSize)) 0 w.code))
    exact ⟨hm.length_sk, hshape, hm.size, hm.thrown⟩
  | generate i t rawPk sk hp ht hgen =>
    rw [hp] at hphase
    have hi : i < count := lt_of_lt_of_le hphase.1.lt hlast
    rw [keyGenInto_eq hm hw.length_rawPk hi] at hgen
    refine ⟨(List.length_set ..).trans hm.length_sk, hm.length_pk, fun j hj => ?_, hm.thrown⟩
    by_cases hji : j = i
    · subst hji
      rw [pair_setKey hm hj]
      exact (prims.mlKem.length_keyGen hgen).2
    · rw [pair_setKey_ne hm hi hj sk hji]
      exact hm.size j hj

/-- The rows before `i` after a write to row `i`. -/
theorem KeyWorker.Reached.of_pair {i : ℕ} (h : w.Reached prims seeds rowSize m i)
    (hw : w'.first = w.first)
    (hpair : ∀ j < i, m'.pair rowSize j = m.pair rowSize j) :
    w'.Reached prims seeds rowSize m' i := by
  refine ⟨hw ▸ h.1, fun j hj hji => ?_⟩
  rw [hpair j hji]
  exact h.2 j (hw ▸ hj) hji

/-- A move keeps the assertion of its worker. -/
theorem KeyMove.holds (h : KeyMove prims seeds rowSize m w m' w')
    (hm : m.Shaped prims seeds rowSize count) (hw : w.Holds prims seeds rowSize count m) :
    w'.Holds prims seeds rowSize count m' := by
  obtain ⟨hlast, hraw, hphase⟩ := hw
  cases h with
  | stop i hp hfailed => exact ⟨hlast, hraw, .inr hfailed⟩
  | finish i hp hi =>
    rw [hp] at hphase
    obtain rfl : i = w.last := le_antisymm hphase.2 hi
    exact ⟨hlast, hraw, .inl hphase.1⟩
  | enter i hp hi =>
    rw [hp] at hphase
    exact ⟨hlast, hraw, hphase.1, hi⟩
  | clear i hp =>
    rw [hp] at hphase
    obtain ⟨hreached, hi⟩ := hphase
    have hrow : (List.replicate rowSize (0 : Block)).length = rowSize := List.length_replicate
    refine ⟨hlast, hraw, ⟨hreached.of_pair rfl fun j hj => ?_, hi, ?_⟩, rfl⟩
    · exact pair_setRow_ne hm (by omega) (by omega) hrow (by omega)
    · rw [pair_setRow hm (by omega) hrow]
  | generate i t rawPk sk hp ht hgen =>
    rw [hp] at hphase
    obtain ⟨hf, htry⟩ := hphase
    have hi : i < count := lt_of_lt_of_le hf.lt hlast
    rw [keyGenInto_eq hm hraw hi] at hgen
    have hpair := pair_setKey hm hi sk
    refine ⟨hlast, (prims.mlKem.length_keyGen hgen).1,
      ⟨hf.reached.of_pair rfl fun j hj => ?_, hf.lt, ?_⟩, htry, ht, ?_⟩
    · exact pair_setKey_ne hm hi (by omega) sk (by omega)
    · rw [hpair]
      exact hf.zero
    · rw [hpair]
      exact hgen
  | noKey i t e hp ht hgen =>
    rw [hp] at hphase
    obtain ⟨hf, htry⟩ := hphase
    have hi : i < count := lt_of_lt_of_le hf.lt hlast
    rw [keyGenInto_eq hm hraw hi] at hgen
    refine ⟨hlast, hraw, i, hi, genMlKemKey_of_error ?_⟩
    rw [htry, tryKeys_of_lt _ ht, hgen, error_bind]
  | exhausted i t hp ht =>
    rw [hp] at hphase
    obtain ⟨hf, htry⟩ := hphase
    have hi : i < count := lt_of_lt_of_le hf.lt hlast
    refine ⟨hlast, hraw, i, hi, genMlKemKey_of_none ?_⟩
    rw [htry, Nat.sub_eq_zero_of_le ht]
    rfl
  | found i t code work hp henc =>
    rw [hp] at hphase
    obtain ⟨hf, htry, ht, hgen⟩ := hphase
    refine ⟨hlast, hraw, ⟨hf.reached.of_pair rfl fun _ _ => rfl, hf.lt, hf.zero⟩, ?_⟩
    rw [htry.of_keyGen ht hgen (encodeKeyWork_cases henc)]
    rfl
  | again i t code work hp henc =>
    rw [hp] at hphase
    obtain ⟨hf, htry, ht, hgen⟩ := hphase
    refine ⟨hlast, hraw, ⟨hf.reached.of_pair rfl fun _ _ => rfl, hf.lt, hf.zero⟩, ?_⟩
    exact htry.of_keyGen ht hgen (encodeKeyWork_cases henc)
  | noCode i t e hp henc =>
    rw [hp] at hphase
    obtain ⟨hf, htry, ht, hgen⟩ := hphase
    have hi : i < count := lt_of_lt_of_le hf.lt hlast
    refine ⟨hlast, hraw, i, hi, genMlKemKey_of_error ?_⟩
    rw [htry.of_keyGen ht hgen (encodeKeyWork_cases henc)]
    rfl
  | tooLarge i hp hlen =>
    rw [hp] at hphase
    obtain ⟨hf, hfound⟩ := hphase
    have hi : i < count := lt_of_lt_of_le hf.lt hlast
    refine ⟨hlast, hraw, i, hi, ?_⟩
    rw [genMlKemKey_of_some hfound]
    simp only [hlen, throwIf_true, error_bind]
  | store i hp hlen =>
    rw [hp] at hphase
    obtain ⟨hf, hfound⟩ := hphase
    have hi : i < count := lt_of_lt_of_le hf.lt hlast
    have hrow := length_blocksOf rowSize
      (splice (bytesOf (slice m.pk (i * rowSize) rowSize)) 0 w.code)
    refine ⟨hlast, hraw, ⟨?_, fun j hj hji => ?_⟩, hf.lt⟩
    · have hfirst := hf.reached.1
      exact Nat.le_succ_of_le hfirst
    · rcases Nat.lt_succ_iff_lt_or_eq.mp hji with hlt | rfl
      · rw [pair_setRow_ne hm hi (by omega) hrow (by omega)]
        exact hf.reached.2 j hj hlt
      · have hzero : slice m.pk (j * rowSize) rowSize = List.replicate rowSize 0 := hf.zero
        rw [pair_setRow hm hi hrow, genMlKemKey_of_some hfound, hzero, bytesOf_replicate]
        simp only [not_lt.mpr hlen, throwIf_false, ok_bind, pure_eq_ok]
  | raise e hp =>
    rw [hp] at hphase
    exact ⟨hlast, hraw, hphase, rfl⟩
  | record e hp =>
    rw [hp] at hphase
    exact ⟨hlast, hraw, .inr hphase.2⟩

end Step

section Runs
variable {prims : Primitives} {seeds : KeySeeds} {rowSize count : ℕ} {ranges : List (ℕ × ℕ)}
  {s s' : Team KeyMemory KeyWorker}

theorem KeyMove.range_eq {m m' : KeyMemory} {w w' : KeyWorker}
    (h : KeyMove prims seeds rowSize m w m' w') : w'.range = w.range := by
  cases h <;> rfl

/-- Workers on ranges that do not meet do not break the assertions of each other. -/
theorem keyOutline (prims : Primitives) (seeds : KeySeeds) (rowSize count : ℕ) :
    Team.Outline (keyTurn prims seeds rowSize) KeyWorker.range
      (fun a b : ℕ × ℕ => a.2 ≤ b.1 ∨ b.2 ≤ a.1) (KeyMemory.Shaped prims seeds rowSize count)
      (KeyWorker.Holds prims seeds rowSize count) where
  symm h := h.symm
  own_eq h := (keyTurn_move h).range_eq
  keeps hm hw h := ⟨(keyTurn_move h).shaped hm hw, (keyTurn_move h).holds hm hw⟩
  frame {m w a m' w' u} hm hw h hapart hu := by
    obtain ⟨hpair, hfailed⟩ := (keyTurn_move h).frame hm hw
    have hlast := hu.last_le
    refine hu.congr (fun j hj hj' => hpair j (by omega) ?_) hfailed
    have hapart' : w.last ≤ u.first ∨ u.last ≤ w.first := hapart
    omega

/-- Once the flag is up, an exception is recorded or about to be. -/
def KeysReported (s : Team KeyMemory KeyWorker) : Prop :=
  s.shared.failed = true →
    s.shared.firstErr.isSome = true ∨ ∃ w ∈ s.workers, ∃ e, w.phase = .record e

/-- A move that finds or puts the flag up. -/
theorem KeyMove.reports {m m' : KeyMemory} {w w' : KeyWorker}
    (h : KeyMove prims seeds rowSize m w m' w') (hfailed : m'.failed = true) :
    (∃ e, w'.phase = .record e) ∨ m'.firstErr.isSome = true ∨
      (m.failed = true ∧ m'.firstErr = m.firstErr ∧ ∀ e, w.phase ≠ .record e) := by
  cases h with
  | raise e hp => exact .inl ⟨e, rfl⟩
  | record e hp =>
    refine .inr (.inl ?_)
    cases m.firstErr <;> rfl
  | stop i hp | finish i hp | enter i hp | clear i hp | generate i t rawPk sk hp | noKey i t e hp
  | exhausted i t hp | found i t code work hp | again i t code work hp | noCode i t e hp
  | tooLarge i hp | store i hp =>
    exact .inr (.inr ⟨hfailed, rfl, by simp [hp]⟩)

theorem keysReported_step {a : ℕ × Bool} (hs : KeysReported s)
    (h : Team.step (keyTurn prims seeds rowSize) s a = some s') : KeysReported s' := by
  obtain ⟨w, m, w', hw, hturn, rfl⟩ := Team.step_cases h
  intro hfailed
  obtain ⟨e, he⟩ | hsome | ⟨hbefore, hfirst, hne⟩ := (keyTurn_move hturn).reports hfailed
  · obtain ⟨hk, -⟩ := List.getElem?_eq_some_iff.mp hw
    exact .inr ⟨w', List.mem_set hk w', e, he⟩
  · exact .inl hsome
  · rcases hs hbefore with hsome | ⟨u, hu, e, he⟩
    · exact .inl (hfirst ▸ hsome)
    · have huw : u ≠ w := by
        rintro rfl
        exact hne e he
      exact .inr ⟨u, Team.mem_set_of_ne hw hu huw, e, he⟩

/-- What holds of the team along every run. -/
structure KeysInv (prims : Primitives) (seeds : KeySeeds) (rowSize count : ℕ)
    (ranges : List (ℕ × ℕ)) (s : Team KeyMemory KeyWorker) : Prop where
  team : Team.Inv KeyWorker.range (KeyMemory.Shaped prims seeds rowSize count)
    (KeyWorker.Holds prims seeds rowSize count) ranges s
  reported : KeysReported s

theorem keysInv_step (hsplit : IsSplit count ranges) {a : ℕ × Bool}
    (hs : KeysInv prims seeds rowSize count ranges s)
    (h : Team.step (keyTurn prims seeds rowSize) s a = some s') :
    KeysInv prims seeds rowSize count ranges s' :=
  ⟨(keyOutline prims seeds rowSize count).inv_step hsplit.disjoint hs.team h,
    keysReported_step hs.reported h⟩

/-- After the join without an exception, every row is as its own call leaves it. -/
theorem genMlKemKey_of_done (hsplit : IsSplit count ranges)
    (hs : KeysInv prims seeds rowSize count ranges s) (hdone : KeysDone s)
    (hnone : s.shared.firstErr = none) {i : ℕ} (hi : i < count) :
    genMlKemKey prims seeds rowSize i = .ok (s.shared.pair rowSize i) := by
  obtain ⟨r, hr, hle, hlt⟩ := (hsplit.cover i).mp hi
  rw [← hs.team.owns_eq] at hr
  obtain ⟨w, hw, rfl⟩ := List.mem_map.mp hr
  have hphase := (hs.team.holds w hw).phase
  rw [hdone w hw] at hphase
  rcases hphase with hreached | hfailed
  · exact hreached.2 i hle hlt
  · -- the flag cannot be up: nothing is recorded, and nobody is about to
    rcases hs.reported hfailed with hsome | ⟨u, hu, e, he⟩
    · simp [hnone] at hsome
    · rw [hdone u hu] at he
      cases he

theorem extensional_keySlots (rowSize count : ℕ) : (keySlots rowSize count).Extensional :=
  Slots.extensional_prod (Slots.extensional_entries RawKey count)
    (Slots.extensional_rows Block rowSize count)

/-- The workers return what one call for each row leaves. -/
theorem keysOutcome_eq_ok (hsplit : IsSplit count ranges)
    (hs : KeysInv prims seeds rowSize count ranges s) (hdone : KeysDone s)
    (out : List RawKey × List Block) :
    keysOutcome s.shared = .ok out ↔ (out.1.length = count ∧ out.2.length = count * rowSize) ∧
      ∀ i < count, genMlKemKey prims seeds rowSize i =
        .ok (out.1.getD i default, slice out.2 (i * rowSize) rowSize) := by
  have hshape := hs.team.shaped
  cases hfirst : s.shared.firstErr with
  | some e =>
    obtain ⟨i, hi, hthrow⟩ := hshape.thrown e hfirst
    simp only [keysOutcome, hfirst, reduceCtorEq, false_iff, not_and]
    intro _ hall
    exact nomatch hthrow.symm.trans (hall i hi)
  | none =>
    have hall : ∀ i < count, genMlKemKey prims seeds rowSize i = .ok (s.shared.pair rowSize i) :=
      fun i hi => genMlKemKey_of_done hsplit hs hdone hfirst hi
    simp only [keysOutcome, hfirst, Except.ok.injEq]
    constructor
    · rintro rfl
      exact ⟨⟨hshape.length_sk, hshape.length_pk⟩, hall⟩
    · rintro ⟨hout, hall'⟩
      exact extensional_keySlots rowSize count _ _ ⟨hshape.length_sk, hshape.length_pk⟩ hout
        fun i hi => Except.ok.inj ((hall i hi).symm.trans (hall' i hi))

/-- In any order, the workers return what the loop over the rows returns. -/
theorem keysOutcome_eq_genMlKemKeys (hsplit : IsSplit count ranges)
    (hs : KeysInv prims seeds kemKeyBlockSize count ranges s) (hdone : KeysDone s) (w : Workers)
    {pk : List Block} (hpk : pk.length = count * kemKeyBlockSize)
    (out : List RawKey × List Block) :
    keysOutcome s.shared = .ok out ↔ genMlKemKeys prims w seeds pk kemKeyBlockSize = .ok out := by
  have hmod : ¬ (kemKeyBlockSize ≠ kemKeyBlockSize ∨ pk.length % kemKeyBlockSize ≠ 0) := by
    simp [hpk]
  have hcount : pk.length / kemKeyBlockSize = count := by
    rw [hpk, Nat.mul_div_cancel _ (by decide)]
  subst hcount
  have hshape : (keySlots kemKeyBlockSize (pk.length / kemKeyBlockSize)).Shaped
      (List.replicate (pk.length / kemKeyBlockSize)
        (List.replicate (getSizes .mlKem512).secretKeyBytes 0), pk) :=
    ⟨List.length_replicate, hpk⟩
  have hbody : ∀ i < pk.length / kemKeyBlockSize, ∀ t t' : RawKey × List Block,
      (keySlots kemKeyBlockSize (pk.length / kemKeyBlockSize)).Fits t →
      genMlKemKey prims seeds kemKeyBlockSize i = .ok t' →
      (keySlots kemKeyBlockSize (pk.length / kemKeyBlockSize)).Fits t' :=
    fun i _ t t' _ ht => ⟨trivial, length_genRow .obfMlKem ht⟩
  rw [keysOutcome_eq_ok hsplit hs hdone, genMlKemKeys]
  simp only [hmod, throwIf_false, ok_bind]
  rw [parallelFor_eq]
  exact (Slots.foldlM_eq_ok_iff _ (extensional_keySlots _ _) hbody hshape).symm

/-- The weights of the workers add up to the rank of the team. -/
def keysRank (s : Team KeyMemory KeyWorker) : ℕ := (s.workers.map KeyWorker.weight).sum

theorem keysRank_lt {a : ℕ × Bool} (hs : KeysInv prims seeds rowSize count ranges s)
    (h : Team.step (keyTurn prims seeds rowSize) s a = some s') : keysRank s' < keysRank s := by
  obtain ⟨w, m, w', hw, hturn, rfl⟩ := Team.step_cases h
  refine Team.sum_weight_set hw ((keyTurn_move hturn).weight_lt fun i t hp => ?_)
  have hphase := (hs.team.holds w (List.mem_of_getElem? hw)).phase
  rw [hp] at hphase
  exact hphase.2.2.1

theorem exists_keyStep (h : ¬ KeysDone s) :
    ∃ a s', Team.step (keyTurn prims seeds rowSize) s a = some s' := by
  unfold KeysDone at h
  push Not at h
  obtain ⟨w, hw, hne⟩ := h
  obtain ⟨k, hk⟩ := List.mem_iff_getElem?.mp hw
  obtain ⟨r, hr⟩ := exists_keyTurn s.shared hne
  exact ⟨_, _, Team.step_of_turn hk hr⟩

theorem sum_lengths_of_isSplit (hsplit : IsSplit count ranges) :
    (ranges.map fun r => r.2 - r.1).sum = count := by
  have hlen := hsplit.perm.length_eq
  rw [List.length_flatMap, List.length_range] at hlen
  simpa [Ranges.indices] using hlen

theorem length_of_mem_resizeKeys (sk : List RawKey) (count : ℕ) :
    ∀ key ∈ resizeKeys sk count, key.length = (getSizes .mlKem512).secretKeyBytes := by
  intro key hkey
  obtain ⟨old, -, rfl⟩ := List.mem_map.mp hkey
  exact length_resize old _ 0

theorem keysRank_start_le (hsplit : IsSplit count ranges) (m : KeyMemory) :
    keysRank ⟨m, ranges.map KeyWorker.start⟩ ≤ 143 * count := by
  rw [keysRank, List.map_map]
  calc (ranges.map (KeyWorker.weight ∘ KeyWorker.start)).sum
      ≤ (ranges.map fun r => 143 * (r.2 - r.1)).sum := by
        refine List.sum_le_sum fun r hr => ?_
        have hlt := hsplit.nonempty r hr
        simp only [Function.comp, KeyWorker.weight, KeyWorker.start]
        omega
    _ = 143 * count := by rw [List.sum_map_mul_left, sum_lengths_of_isSplit hsplit]

/-- The start: no row is filled, and at most 143 turns a row are to come. -/
theorem startKeyWorkers_eq_ok (prims : Primitives) (seeds : KeySeeds)
    (hsplit : IsSplit count ranges) (sk : List RawKey) {pk : List Block}
    (hpk : pk.length = count * kemKeyBlockSize) :
    ∃ s, startKeyWorkers kemKeyBlockSize ranges sk pk = .ok s ∧
      KeysInv prims seeds kemKeyBlockSize count ranges s ∧ keysRank s ≤ 143 * count := by
  have hcount : pk.length / kemKeyBlockSize = count := by
    rw [hpk, Nat.mul_div_cancel _ (by decide)]
  have hmod : pk.length % kemKeyBlockSize = 0 := by rw [hpk, Nat.mul_mod_left]
  have hlen : (resizeKeys sk count).length = count := by simp [resizeKeys]
  refine ⟨⟨⟨false, none, resizeKeys sk count, pk⟩, ranges.map KeyWorker.start⟩, ?_,
    ⟨⟨⟨hlen, hpk, fun i hi => ?_, by simp⟩, ?_, fun w hw => ?_⟩, by simp [KeysReported]⟩,
    keysRank_start_le hsplit _⟩
  · simp [startKeyWorkers, hmod, hcount]
  · have hi' : i < (resizeKeys sk count).length := by omega
    apply length_of_mem_resizeKeys sk count
    rw [KeyMemory.pair, List.getD_eq_getElem _ _ hi']
    exact List.getElem_mem hi'
  · rw [List.map_map]
    exact List.map_id ranges
  · obtain ⟨r, hr, rfl⟩ := List.mem_map.mp hw
    have hne := hsplit.nonempty r hr
    have hlast : r.2 ≤ count := by
      have hend := (hsplit.cover (r.2 - 1)).mpr ⟨r, hr, by omega⟩
      omega
    exact ⟨hlast, List.length_replicate, ⟨le_rfl, fun j hj hji => absurd hji (not_lt.mpr hj)⟩,
      hne.le⟩

end Runs

section Rows
variable {prims : Primitives} {seeds : KeySeeds}

/-- What the codec relies on: the coefficients of a generated public key are reduced. -/
def MlKem.Reduced (kem : MlKem) : Prop :=
  ∀ seed pk sk, kem.keyGen seed = .ok (pk, sk) → ∀ t ∈ keyCoeffs .mlKem512 pk, t < q

theorem vecBits_mlKem512 : (makeInfo .mlKem512).vecBits = 5990 := by
  have hbits : bitLen (q ^ (2 * n) + 1) = 5991 := by
    rw [bitLen_eq_size]
    apply le_antisymm
    · rw [Nat.size_le]
      decide +kernel
    · rw [Nat.add_one_le_iff, Nat.lt_size]
      decide +kernel
  simp only [makeInfo, hbits]

theorem codeKeyBytes_mlKem512 : codeKeyBytes .mlKem512 = 781 := by
  rw [codeKeyBytes, makeInfo_vecBytes, vecBits_mlKem512]
  rfl

/-- A code at the front of a row of zeros. -/
theorem bytesOf_codeRow {n : ℕ} {code : List Byte} (h : code.length ≤ blockBytes * n) :
    bytesOf (blocksOf n (splice (List.replicate (blockBytes * n) 0) 0 code)) =
      code ++ List.replicate (blockBytes * n - code.length) 0 := by
  have hlen : 0 + code.length ≤ (List.replicate (blockBytes * n) (0 : Byte)).length := by
    simpa using h
  rw [bytesOf_blocksOf (by rw [length_splice hlen, List.length_replicate, blockBytes])]
  simp [splice]

/-- The code of a generated key fits into a row, and is decoded to the key. -/
theorem KeyFound.decodeKey_eq (hkem : prims.mlKem.Reduced) {seed : ℕ → List Byte} {t : ℕ}
    {rawPk sk code : List Byte} (h : KeyFound prims seed 0 t rawPk sk code) :
    code.length = 781 ∧ decodeKey .mlKem512 code = .ok (some rawPk) := by
  obtain ⟨hlen, hdecode⟩ := decodeKeyInto_encodeKey prims.hashByte
    (prims.mlKem.length_keyGen h.keyGen).1 (hkem _ _ _ h.keyGen) h.encodeKey
    (List.length_replicate (n := rawKeyBytes .mlKem512) (a := 0))
  exact ⟨hlen.trans codeKeyBytes_mlKem512, hdecode⟩

/-- A row gets a key exactly when one of its attempts finds one. -/
theorem genMlKemKey_eq_ok (hkem : prims.mlKem.Reduced) {i : ℕ} {sk : RawKey} {row : List Block} :
    genMlKemKey prims seeds kemKeyBlockSize i = .ok (sk, row) ↔
      ∃ t < kMaxKeyTries, ∃ rawPk code, KeyFound prims (keySeed seeds i) 0 t rawPk sk code ∧
        row = blocksOf kemKeyBlockSize
          (splice (List.replicate (blockBytes * kemKeyBlockSize) 0) 0 code) := by
  constructor
  · intro h
    obtain ⟨found, htry, hrow⟩ := bind_eq_ok.mp h
    cases found with
    | none => simp at hrow
    | some found =>
      obtain ⟨u, -, hrow⟩ := bind_eq_ok.mp hrow
      obtain ⟨rfl, rfl⟩ := Prod.mk.inj (Except.ok.inj hrow)
      obtain ⟨t, rawPk, ⟨-, ht⟩, hfound⟩ := tryKeys_eq_some.mp htry
      exact ⟨t, by omega, rawPk, found.2, hfound, rfl⟩
  · rintro ⟨t, ht, rawPk, code, hfound, rfl⟩
    have hfits : ¬ code.length > blockBytes * kemKeyBlockSize := by
      rw [(hfound.decodeKey_eq hkem).1]
      decide
    rw [genMlKemKey_of_some (tryKeys_eq_some.mpr ⟨t, rawPk, by omega, hfound⟩)]
    simp only [hfits, throwIf_false, ok_bind, pure_eq_ok]

/-- Every row finds a key with a code within its attempts. -/
def KeysFound (prims : Primitives) (seeds : KeySeeds) (count : ℕ) : Prop :=
  ∀ i < count, ∃ t < kMaxKeyTries, ∃ rawPk sk code,
    KeyFound prims (keySeed seeds i) 0 t rawPk sk code

/-- The bytes of row `i` are the code of the public key from the call that made `sk`, and zeros. -/
def KeyRow (prims : Primitives) (seeds : KeySeeds) (i : ℕ) (sk : RawKey) (row : List Byte) : Prop :=
  ∃ t < kMaxKeyTries, ∃ rawPk code, KeyFound prims (keySeed seeds i) 0 t rawPk sk code ∧
    decodeKey .mlKem512 (row.take 781) = .ok (some rawPk) ∧
    row.drop 781 = List.replicate (row.length - 781) 0

theorem keyRow_of_genMlKemKey (hkem : prims.mlKem.Reduced) {i : ℕ} {sk : RawKey}
    {row : List Block} (h : genMlKemKey prims seeds kemKeyBlockSize i = .ok (sk, row)) :
    KeyRow prims seeds i sk (bytesOf row) := by
  obtain ⟨t, ht, rawPk, code, hfound, rfl⟩ := (genMlKemKey_eq_ok hkem).mp h
  obtain ⟨hlen, hdecode⟩ := hfound.decodeKey_eq hkem
  have hfits : code.length ≤ blockBytes * kemKeyBlockSize := by
    rw [hlen]
    decide
  refine ⟨t, ht, rawPk, code, hfound, ?_⟩
  rw [bytesOf_codeRow hfits, ← hlen, List.take_left, List.drop_left]
  exact ⟨hdecode, by simp⟩

/-- The workers return exactly when no row fails. -/
theorem keysOutcome_ok_iff (hkem : prims.mlKem.Reduced) {count : ℕ} {ranges : List (ℕ × ℕ)}
    {s : Team KeyMemory KeyWorker} (hsplit : IsSplit count ranges)
    (hs : KeysInv prims seeds kemKeyBlockSize count ranges s) (hdone : KeysDone s) :
    (∃ out, keysOutcome s.shared = .ok out) ↔ KeysFound prims seeds count := by
  constructor
  · rintro ⟨out, hout⟩ i hi
    have hrow := ((keysOutcome_eq_ok hsplit hs hdone out).mp hout).2 i hi
    obtain ⟨t, ht, rawPk, code, hfound, -⟩ := (genMlKemKey_eq_ok hkem).mp hrow
    exact ⟨t, ht, rawPk, _, code, hfound⟩
  · intro hall
    cases hfirst : s.shared.firstErr with
    | none => exact ⟨_, by rw [keysOutcome, hfirst]⟩
    | some e =>
      obtain ⟨i, hi, hthrow⟩ := hs.team.shaped.thrown e hfirst
      obtain ⟨t, ht, rawPk, sk, code, hfound⟩ := hall i hi
      have hok := (genMlKemKey_eq_ok hkem).mpr ⟨t, ht, rawPk, code, hfound, rfl⟩
      exact nomatch hthrow.symm.trans hok

/-- Whatever the split of the rows over workers and the order of their turns, `genMlKemKeys` ends,
returns when every row finds a key within its attempts, and throws otherwise. In what it returns,
each row belongs to its secret key. -/
theorem genMlKemKeys_consistent (hkem : prims.mlKem.Reduced) {count : ℕ} {ranges : List (ℕ × ℕ)}
    (hsplit : IsSplit count ranges) (sk : List RawKey) {pk : List Block}
    (hpk : pk.length = count * kemKeyBlockSize) :
    ∃ s₀, startKeyWorkers kemKeyBlockSize ranges sk pk = .ok s₀ ∧
      ∀ order s, run (Team.step (keyTurn prims seeds kemKeyBlockSize)) s₀ order = some s →
        (order.length ≤ 143 * count ∧ ∃ order' s',
          run (Team.step (keyTurn prims seeds kemKeyBlockSize)) s order' = some s' ∧
            KeysDone s') ∧
        (KeysDone s →
          ((∃ out, keysOutcome s.shared = .ok out) ↔ KeysFound prims seeds count) ∧
          (¬ KeysFound prims seeds count → ∃ e, keysOutcome s.shared = .error e) ∧
          ∀ out, keysOutcome s.shared = .ok out →
            out.1.length = count ∧ out.2.length = count * kemKeyBlockSize ∧
            ∀ i < count, KeyRow prims seeds i (out.1.getD i default)
              (bytesOf (slice out.2 (i * kemKeyBlockSize) kemKeyBlockSize))) := by
  obtain ⟨s₀, hstart, hinv₀, hrank⟩ := startKeyWorkers_eq_ok prims seeds hsplit sk hpk
  refine ⟨s₀, hstart, fun order s hrun => ?_⟩
  have hstep : ∀ s a s', KeysInv prims seeds kemKeyBlockSize count ranges s →
      Team.step (keyTurn prims seeds kemKeyBlockSize) s a = some s' →
      KeysInv prims seeds kemKeyBlockSize count ranges s' := fun _ _ _ => keysInv_step hsplit
  have hinv := run_invariant hstep hinv₀ hrun
  have hlen := length_add_rank_le hstep (fun _ _ _ => keysRank_lt) hinv₀ hrun
  have hend := exists_run_done hstep (fun _ _ _ => keysRank_lt) (fun _ _ => exists_keyStep) hinv
  refine ⟨⟨by omega, hend⟩, fun hdone => ?_⟩
  have hok := keysOutcome_ok_iff hkem hsplit hinv hdone
  refine ⟨hok, fun hnot => ?_, fun out hout => ?_⟩
  · cases hout : keysOutcome s.shared with
    | error e => exact ⟨e, rfl⟩
    | ok out => exact absurd (hok.mp ⟨out, hout⟩) hnot
  · obtain ⟨⟨hsk, hrows⟩, hall⟩ := (keysOutcome_eq_ok hsplit hinv hdone out).mp hout
    exact ⟨hsk, hrows, fun i hi => keyRow_of_genMlKemKey hkem (hall i hi)⟩

end Rows

section Sample

/-- The switch to fixed seeds. -/
def fixedSeeds : KeySeeds := ⟨true, fun _ _ => [], fun _ => []⟩

/-- The public key from the fixed seed of row 0, attempt 0. -/
def samplePk : List Byte :=
  bytesOf [
    0x3d6d811ec2083ca8549f084bb3c2a850#128, 0x52fb2a5c52cf8780a1c81a012b21308c#128,
    0x941995837921af507978ba767005c91c#128, 0x9eb8734549f7db270655b611ffba0937#128,
    0x56b55a886d8ca963cdbbfccff6aca168#128, 0xa9e222a77c3f18ac2f08e5020920450f#128,
    0xa41c432f58b6214c3cf87442d8cdd26e#128, 0xc992c4bcd994937ea6c03d1817e305f5#128,
    0x91ec5021933812d0e81c85dd0a69daac#128, 0x5ea2ea1c0662552d3cc31906b00ae948#128,
    0x9338610b965d3afacc3cd032eb74369b#128, 0x8a90ed8a1a865219f370a77539128a05#128,
    0x70ce55bca815f108b9da149c562fa321#128, 0xe24d9f58f931a32c485c3c56d31c6b42#128,
    0x70e04bc122632ec7014e944dc403a5a2#128, 0xf2491bc4124a9a00f99639fbe08428fb#128,
    0x42b92273d32213c5227924b5526f9340#128, 0x4dcc65c8b4125972fec2e46518e006b0#128,
    0xff4c527e9970ce9b00d05ed8cea193b5#128, 0x518b85ecd9380cf42f52f97d61d46a00#128,
    0x5ef3374bdcfc96d889c4e9e93e06cd0b#128, 0xcd90f9623030de7736069471efa18793#128,
    0xf6046931789d891b8b840a9754bf5b69#128, 0xa4b99a40e47e3e70ddc6797048257e05#128,
    0x11557a2360b731932ca91fa448721500#128, 0x5cd088d4aa64c00b032522b1c4926ef3#128,
    0x8a77ee08e0695ca4cf88b3c48db39459#128, 0x539a3c424bcc19434cab3fb8a1b80cbe#128,
    0x40bf4bf39c21d6d0b6f319b3f51eb1d5#128, 0x1092607eb9b47d13b94d55262c230436#128,
    0xd340307519c955081693015a655b10d5#128, 0xa4e0a842304819c337c1d15b3cd96766#128,
    0x8f205487dce2c3922f3114c49574c160#128, 0x45a3d4b802d0b773653325aaeb930cde#128,
    0xf1887b4ceb30019cc9921673c0f68f88#128, 0x08b7230ac357b5b12556f219a3fcb995#128,
    0xc764782e9959c42a82638cd173cb81c7#128, 0x6b321e693d4d0aa172355d8165980969#128,
    0xb98c6cc6dbff38770f53666b25294326#128, 0xbfaaf8df7594ac4d8c1893d5d7cdb636#128,
    0x25ec756c696b67ad73e9ae8764df7dfa#128, 0x908aca43f52e4098677a68b17d2c457f#128,
    0x3babc55718193b3a60d71d5ac7150a6d#128, 0xa6297d46f954b4cea191c99677f5b267#128,
    0x5319ad2912b421f3608af736b6d0f993#128, 0x02717091439a9d0695a7887a931ed815#128,
    0xa9b0176c8e8d48127ff34dcaf0e28a5a#128, 0x5d94733868a0180a9835a92479e7961f#128,
    0xf01849fafaab3d4eca0fd9f7d23cdf59#128, 0xac7bb82359d23bb81f75d423994064a7#128]

/-- Its secret key: the secret vector, the public key with its hash, and half of the seed. -/
def sampleSk : List Byte :=
  bytesOf [
    0xbe6b807768717a17c6e857169f1de6cc#128, 0x666d4869d6574b44cb7ae47562a606ab#128,
    0xbb9a1f28c00a024b13071be6c719580b#128, 0xdd16e4eb7f9aacba64e8c482157b9ba2#128,
    0x89f652641d946a9404167c5b3387c5a8#128, 0x5d383f7ae44d8298a51444bf8524c858#128,
    0x012abb9c8da9b67cf39872012ca8b331#128, 0xf57e62c0e67b4cf37a06581a62dc0a04#128,
    0xa567832190607a2145bf1c4d11f0f471#128, 0xfb4ca167ab1bccbcc9999f22cb66f3b2#128,
    0xf10a144a707c35f0272b8dca603b67b9#128, 0x38a8d8cf7be929a51bb8383055c041a2#128,
    0x018851be5319c82de5df8dc2057cab27#128, 0x8c03a9645044f3b5bf2c2ba9a7d1b68c#128,
    0x7efbaf0b247c7f1764ce88cac6d5f43d#128, 0xe29cd1a545a3c254c8076ec48d56c708#128,
    0xc9bf93b360b1a9ac9719827766fe4426#128, 0x88f3225959338dba66b9a76a5946e956#128,
    0xfa365749b1829da3448d1a897515a87d#128, 0x83e465bbfc85e56033d67a038c914ad3#128,
    0xa95c5aac50205f381d3a6456bf00098f#128, 0x63b6a0f64d39f424610833330e7aabc8#128,
    0xb2160e6b2039e38fbf474687b9b89ea4#128, 0x4fd92ec64809b5138bb0c6a707492853#128,
    0xa78eb479454bfabc98b46c5307b8d816#128, 0xc1e756a6000cb97b0e8c90367835bde4#128,
    0x93c2475c18da53a6cf479cd09c38248b#128, 0xd022e4dd16a2a21b07cda24332cc9cff#128,
    0xe30a0887a1c241076155cc5f3a2c73cb#128, 0x4c5b2daf323f4ac92a4347dca02704ce#128,
    0x1f7e1170b78badaae2a13b0cda584082#128, 0xc62808f31b4d69e044d3e48963c85f44#128,
    0xcfc006cb99ff1c398934291d180106c9#128, 0xcc8991d949f41360b1d29899cfb8e02e#128,
    0xd5986bb68c40b845b820fea351504bc4#128, 0x62144ace078c9da1c32d8a4925652217#128,
    0x31689038b83a9d6625974bf99e0d0b7d#128, 0x97cf7d9a2123487514dc252e0001c2ab#128,
    0x5ce603599abba2367b2c761b3819523a#128, 0xc05fd55b9414a34295241f1b3859ec9a#128,
    0x209dc1459561534e67c547bec6a77460#128, 0x54c1b6b207ea9d68d67dfc39b5d0767e#128,
    0xea3c96bc549bfac42295a3c47a7e6649#128, 0xe4b8738436bb804b5fd29f11d0ffa27b#128,
    0x37473cb616b688e57643f7713242b8b3#128, 0x889a41ce4ff9d35b49f60c48536a1cff#128,
    0xf11c58d33273028675156faa48ea319b#128, 0xc33c6375cccea0f124aebc827a3a5c5d#128] ++
  samplePk ++ bytesOf [0x23e9f5b389cd675ed49f3045ba9c9ebb#128, 0x5276a298f851a92799bd7cffb979e98a#128] ++
  (keySeed fixedSeeds 0 0).drop 32

theorem sampleEncaps_length {_ _ ct ss : List Byte}
    (h : (Except.error "" : Except Err (List Byte × List Byte)) = .ok (ct, ss)) :
    ct.length = 768 ∧ ss.length = 32 :=
  nomatch h

/-- ML-KEM on the seed that the sample uses. -/
def sampleMlKem : MlKem where
  keyGen seed := if seed = keySeed fixedSeeds 0 0 then .ok (samplePk, sampleSk) else .error ""
  encaps _ _ := .error ""
  decaps _ _ := .error ""
  length_keyGen {seed pk sk} h := by
    split_ifs at h
    obtain ⟨rfl, rfl⟩ := Prod.mk.inj (Except.ok.inj h)
    decide +kernel
  length_encaps := @sampleEncaps_length

def samplePrims : Primitives where
  hashByte _ := 0xe8
  mlKem := sampleMlKem
  curve := ⟨true, fun _ => (List.replicate 32 0, List.replicate 32 0), id, fun _ => id,
    fun _ => List.replicate 16 0, by simp, by simp⟩
  makePi _ _ := .error ""

theorem sampleMlKem_reduced : sampleMlKem.Reduced := by
  intro seed pk sk h
  simp only [sampleMlKem] at h
  split_ifs at h
  obtain ⟨rfl, rfl⟩ := Prod.mk.inj (Except.ok.inj h)
  decide +kernel

/-- The first attempt of the sample finds a key. -/
theorem keysFound_sample : KeysFound samplePrims fixedSeeds 1 := by
  intro i hi
  obtain rfl : i = 0 := by omega
  have hlen : samplePk.length = rawKeyBytes .mlKem512 := by decide +kernel
  have hlt : Nat.ofDigits q (keyCoeffs .mlKem512 samplePk) < 2 ^ (makeInfo .mlKem512).vecBits := by
    rw [vecBits_mlKem512]
    decide +kernel
  obtain ⟨code, hcode⟩ := (encodeKey_isSome_iff samplePrims.hashByte hlen).mpr hlt
  have hgen : sampleMlKem.keyGen (keySeed fixedSeeds 0 0) = .ok (samplePk, sampleSk) := by
    simp only [sampleMlKem, if_true]
  exact ⟨0, by decide, samplePk, sampleSk, code, hgen, hcode, fun t' _ ht' => by omega⟩

/-- A run on one row. -/
theorem genMlKemKeys_consistent_one_row :
    ∃ s₀, startKeyWorkers kemKeyBlockSize [(0, 1)] [] (List.replicate 50 0) = .ok s₀ ∧
      ∃ order s out, run (Team.step (keyTurn samplePrims fixedSeeds kemKeyBlockSize)) s₀ order =
          some s ∧ KeysDone s ∧ keysOutcome s.shared = .ok out ∧
        KeyRow samplePrims fixedSeeds 0 (out.1.getD 0 default)
          (bytesOf (slice out.2 (0 * kemKeyBlockSize) kemKeyBlockSize)) := by
  obtain ⟨s₀, hstart, hruns⟩ := @genMlKemKeys_consistent samplePrims fixedSeeds
    sampleMlKem_reduced 1 [(0, 1)] (isSplit_one one_pos) [] (List.replicate 50 0)
    List.length_replicate
  obtain ⟨⟨-, order, s, hrun, hdone⟩, -⟩ := hruns [] s₀ rfl
  obtain ⟨-, hret⟩ := hruns order s hrun
  obtain ⟨hok, -, hrows⟩ := hret hdone
  obtain ⟨out, hout⟩ := hok.mpr keysFound_sample
  obtain ⟨-, -, hrow⟩ := hrows out hout
  exact ⟨s₀, hstart, order, s, out, hrun, hdone, hout, hrow 0 one_pos⟩

end Sample

end PqPsi.Protocol
