import PqPsi.Kemeleon.KeyWork
import PqPsi.Lib.Teams
import PqPsi.Protocol.Threads

/-!
# Key generation by a team of workers

The workers of `genMlKemKeys` share the secret keys, the rows, a flag and the
first exception. Each of them reuses its buffers from attempt to attempt and
from row to row. One that sees the flag stops early, which is safe because the
worker that raised the flag records its exception before it is joined.
-/
namespace PqPsi.Protocol
open Kemeleon Lib Lib.Buffers Lib.Exceptions Lib.Runs Lib.Teams Lib.Workers

section Model

/-- `MlKem::keyGen` into buffers of the caller. -/
def MlKem.keyGenInto (kem : MlKem) (seed publicKey secretKey : List Byte) :
    Except Err (List Byte × List Byte) := do
  throwIf (publicKey.length ≠ (getSizes .mlKem512).publicKeyBytes)
    "MlKem public key output has unexpected size"
  throwIf (secretKey.length ≠ (getSizes .mlKem512).secretKeyBytes)
    "MlKem secret key output has unexpected size"
  kem.keyGen seed

/-- The seed of attempt `t` on row `i`. -/
def keySeed (seeds : KeySeeds) (i t : ℕ) : List Byte :=
  fillMlKemKeySeed (seeds.mlKem i t) i t seeds.deterministic

/-- What the workers share. -/
structure KeyMemory where
  failed : Bool
  firstErr : Option Err
  sk : List RawKey
  pk : List Block

/-- The place of a worker in its loops. -/
inductive KeyPhase where
  /-- before the load of `failed` for row `i` -/
  | row (i : ℕ)
  /-- before the `memset` of row `i` -/
  | clear (i : ℕ)
  /-- before the `keyGen` of attempt `t` -/
  | attempt (i t : ℕ)
  /-- before the `encodeKey` of attempt `t` -/
  | encode (i t : ℕ)
  /-- after the loop over attempts, with a code -/
  | store (i : ℕ)
  /-- at the start of the handler -/
  | caught (e : Err)
  /-- in the handler, before the lock -/
  | record (e : Err)
  | done

/-- A worker on the rows from `first` to `last`, with its own buffers. -/
structure KeyWorker where
  first : ℕ
  last : ℕ
  phase : KeyPhase
  rawPk : List Byte
  code : List Byte
  work : EncodeKeyWork

namespace KeyWorker

def range (w : KeyWorker) : ℕ × ℕ := (w.first, w.last)

def goto (w : KeyWorker) (phase : KeyPhase) : KeyWorker := { w with phase }

end KeyWorker

variable (prims : Primitives) (seeds : KeySeeds) (rowSize : ℕ)

/-- The next piece of work of a worker. The load of `failed` is relaxed: it may miss a store, so
that `seen` is what the worker gets to see. -/
def keyTurn (m : KeyMemory) (w : KeyWorker) (seen : Bool) : Option (KeyMemory × KeyWorker) :=
  match w.phase with
  | .row i =>
    if i < w.last then
      if seen then if m.failed then some (m, w.goto .done) else none
      else some (m, w.goto (.clear i))
    else some (m, w.goto .done)
  | .clear i =>
    some ({ m with pk := splice m.pk (i * rowSize) (List.replicate rowSize 0) },
      w.goto (.attempt i 0))
  | .attempt i t =>
    if t < kMaxKeyTries then
      match prims.mlKem.keyGenInto (keySeed seeds i t) w.rawPk (m.sk.getD i default) with
      | .ok (rawPk, sk) =>
        some ({ m with sk := m.sk.set i sk }, { w with rawPk, phase := .encode i t })
      | .error e => some (m, w.goto (.caught e))
    else some (m, w.goto (.caught "genMlKemKeys: encodeKey failed"))
  | .encode i t =>
    match encodeKeyWork prims.hashByte .mlKem512 w.rawPk w.code w.work with
    | .ok (true, code, work) => some (m, { w with code, work, phase := .store i })
    | .ok (false, code, work) => some (m, { w with code, work, phase := .attempt i (t + 1) })
    | .error e => some (m, w.goto (.caught e))
  | .store i =>
    if w.code.length > blockBytes * rowSize then
      some (m, w.goto (.caught "genMlKemKeys: encoded pk too large"))
    else
      let dst := bytesOf (slice m.pk (i * rowSize) rowSize)
      some ({ m with pk := splice m.pk (i * rowSize) (blocksOf rowSize (splice dst 0 w.code)) },
        w.goto (.row (i + 1)))
  | .caught e => some ({ m with failed := true }, w.goto (.record e))
  | .record e => some ({ m with firstErr := m.firstErr <|> some e }, w.goto .done)
  | .done => none

/-- The vector of secret keys, with as many keys as there are rows. -/
def resizeKeys (sk : List RawKey) (count : ℕ) : List RawKey :=
  (resize sk count []).map fun key => resize key (getSizes .mlKem512).secretKeyBytes 0

/-- A worker at the start of its range. -/
def KeyWorker.start (r : ℕ × ℕ) : KeyWorker :=
  ⟨r.1, r.2, .row r.1, List.replicate (getSizes .mlKem512).publicKeyBytes 0, [], ⟨[], []⟩⟩

/-- The team that `genMlKemKeys` starts on the given ranges. -/
def startKeyWorkers (ranges : List (ℕ × ℕ)) (sk : List RawKey) (pk : List Block) :
    Except Err (Team KeyMemory KeyWorker) := do
  throwIf (rowSize ≠ kemKeyBlockSize ∨ pk.length % rowSize ≠ 0) "genMlKemKeys: wrong row size"
  let count := pk.length / rowSize
  return ⟨⟨false, none, resizeKeys sk count, pk⟩, ranges.map KeyWorker.start⟩

/-- All workers have been joined. -/
def KeysDone (s : Team KeyMemory KeyWorker) : Prop := ∀ w ∈ s.workers, w.phase = .done

/-- What `genMlKemKeys` returns after the join. -/
def keysOutcome (m : KeyMemory) : Except Err (List RawKey × List Block) :=
  match m.firstErr with
  | some e => .error e
  | none => .ok (m.sk, m.pk)

end Model

section Moves
variable (prims : Primitives) (seeds : KeySeeds) (rowSize : ℕ)

/-- What a worker can do in its turn. -/
inductive KeyMove (m : KeyMemory) (w : KeyWorker) : KeyMemory → KeyWorker → Prop
  | stop (i : ℕ) : w.phase = .row i → m.failed = true → KeyMove m w m (w.goto .done)
  | finish (i : ℕ) : w.phase = .row i → w.last ≤ i → KeyMove m w m (w.goto .done)
  | enter (i : ℕ) : w.phase = .row i → i < w.last → KeyMove m w m (w.goto (.clear i))
  | clear (i : ℕ) : w.phase = .clear i →
    KeyMove m w { m with pk := splice m.pk (i * rowSize) (List.replicate rowSize 0) }
      (w.goto (.attempt i 0))
  | generate (i t : ℕ) (rawPk sk : List Byte) : w.phase = .attempt i t → t < kMaxKeyTries →
    prims.mlKem.keyGenInto (keySeed seeds i t) w.rawPk (m.sk.getD i default) = .ok (rawPk, sk) →
    KeyMove m w { m with sk := m.sk.set i sk } { w with rawPk, phase := .encode i t }
  | noKey (i t : ℕ) (e : Err) : w.phase = .attempt i t → t < kMaxKeyTries →
    prims.mlKem.keyGenInto (keySeed seeds i t) w.rawPk (m.sk.getD i default) = .error e →
    KeyMove m w m (w.goto (.caught e))
  | exhausted (i t : ℕ) : w.phase = .attempt i t → kMaxKeyTries ≤ t →
    KeyMove m w m (w.goto (.caught "genMlKemKeys: encodeKey failed"))
  | found (i t : ℕ) (code : List Byte) (work : EncodeKeyWork) : w.phase = .encode i t →
    encodeKeyWork prims.hashByte .mlKem512 w.rawPk w.code w.work = .ok (true, code, work) →
    KeyMove m w m { w with code, work, phase := .store i }
  | again (i t : ℕ) (code : List Byte) (work : EncodeKeyWork) : w.phase = .encode i t →
    encodeKeyWork prims.hashByte .mlKem512 w.rawPk w.code w.work = .ok (false, code, work) →
    KeyMove m w m { w with code, work, phase := .attempt i (t + 1) }
  | noCode (i t : ℕ) (e : Err) : w.phase = .encode i t →
    encodeKeyWork prims.hashByte .mlKem512 w.rawPk w.code w.work = .error e →
    KeyMove m w m (w.goto (.caught e))
  | tooLarge (i : ℕ) : w.phase = .store i → w.code.length > blockBytes * rowSize →
    KeyMove m w m (w.goto (.caught "genMlKemKeys: encoded pk too large"))
  | store (i : ℕ) : w.phase = .store i → w.code.length ≤ blockBytes * rowSize →
    KeyMove m w { m with pk := splice m.pk (i * rowSize) (blocksOf rowSize
      (splice (bytesOf (slice m.pk (i * rowSize) rowSize)) 0 w.code)) } (w.goto (.row (i + 1)))
  | raise (e : Err) : w.phase = .caught e →
    KeyMove m w { m with failed := true } (w.goto (.record e))
  | record (e : Err) : w.phase = .record e →
    KeyMove m w { m with firstErr := m.firstErr <|> some e } (w.goto .done)

variable {prims seeds rowSize}

theorem keyTurn_move {m m' : KeyMemory} {w w' : KeyWorker} {seen : Bool}
    (h : keyTurn prims seeds rowSize m w seen = some (m', w')) :
    KeyMove prims seeds rowSize m w m' w' := by
  unfold keyTurn at h
  cases hphase : w.phase with
  | row i =>
    simp only [hphase] at h
    split_ifs at h with hi hseen hfailed
    · obtain ⟨rfl, rfl⟩ := Prod.mk.inj (Option.some.inj h)
      exact .stop i hphase hfailed
    · obtain ⟨rfl, rfl⟩ := Prod.mk.inj (Option.some.inj h)
      exact .enter i hphase hi
    · obtain ⟨rfl, rfl⟩ := Prod.mk.inj (Option.some.inj h)
      exact .finish i hphase (not_lt.mp hi)
  | clear i =>
    simp only [hphase] at h
    obtain ⟨rfl, rfl⟩ := Prod.mk.inj (Option.some.inj h)
    exact .clear i hphase
  | attempt i t =>
    simp only [hphase] at h
    split_ifs at h with ht
    · cases hgen : prims.mlKem.keyGenInto (keySeed seeds i t) w.rawPk (m.sk.getD i default) with
      | ok pair =>
        rw [hgen] at h
        obtain ⟨rfl, rfl⟩ := Prod.mk.inj (Option.some.inj h)
        exact .generate i t pair.1 pair.2 hphase ht hgen
      | error e =>
        rw [hgen] at h
        obtain ⟨rfl, rfl⟩ := Prod.mk.inj (Option.some.inj h)
        exact .noKey i t e hphase ht hgen
    · obtain ⟨rfl, rfl⟩ := Prod.mk.inj (Option.some.inj h)
      exact .exhausted i t hphase (not_lt.mp ht)
  | encode i t =>
    simp only [hphase] at h
    split at h
    next code work henc =>
      obtain ⟨rfl, rfl⟩ := Prod.mk.inj (Option.some.inj h)
      exact .found i t code work hphase henc
    next code work henc =>
      obtain ⟨rfl, rfl⟩ := Prod.mk.inj (Option.some.inj h)
      exact .again i t code work hphase henc
    next e henc =>
      obtain ⟨rfl, rfl⟩ := Prod.mk.inj (Option.some.inj h)
      exact .noCode i t e hphase henc
  | store i =>
    simp only [hphase] at h
    split_ifs at h with hlen
    · obtain ⟨rfl, rfl⟩ := Prod.mk.inj (Option.some.inj h)
      exact .tooLarge i hphase hlen
    · obtain ⟨rfl, rfl⟩ := Prod.mk.inj (Option.some.inj h)
      exact .store i hphase (not_lt.mp hlen)
  | caught e =>
    simp only [hphase] at h
    obtain ⟨rfl, rfl⟩ := Prod.mk.inj (Option.some.inj h)
    exact .raise e hphase
  | record e =>
    simp only [hphase] at h
    obtain ⟨rfl, rfl⟩ := Prod.mk.inj (Option.some.inj h)
    exact .record e hphase
  | done => simp [hphase] at h

/-- A worker that is not done can go on. -/
theorem exists_keyTurn (m : KeyMemory) {w : KeyWorker} (h : w.phase ≠ .done) :
    ∃ r, keyTurn prims seeds rowSize m w false = some r := by
  unfold keyTurn
  cases hphase : w.phase with
  | done => exact absurd hphase h
  | encode i t =>
    dsimp only
    split
    · exact ⟨_, rfl⟩
    · exact ⟨_, rfl⟩
    · exact ⟨_, rfl⟩
  | attempt i t =>
    dsimp only
    split_ifs
    · split
      · exact ⟨_, rfl⟩
      · exact ⟨_, rfl⟩
    · exact ⟨_, rfl⟩
  | row i =>
    simp only [Bool.false_eq_true, if_false]
    split_ifs
    · exact ⟨_, rfl⟩
    · exact ⟨_, rfl⟩
  | store i =>
    dsimp only
    split_ifs
    · exact ⟨_, rfl⟩
    · exact ⟨_, rfl⟩
  | clear i => exact ⟨_, rfl⟩
  | caught e => exact ⟨_, rfl⟩
  | record e => exact ⟨_, rfl⟩

/-- An upper bound on the turns a worker still takes. -/
def KeyWorker.weight (w : KeyWorker) : ℕ :=
  match w.phase with
  | .row i => 140 * (w.last - i) + 3
  | .clear i => 140 * (w.last - (i + 1)) + 2 * kMaxKeyTries + 8
  | .attempt i t => 140 * (w.last - (i + 1)) + 2 * (kMaxKeyTries - t) + 6
  | .encode i t => 140 * (w.last - (i + 1)) + 2 * (kMaxKeyTries - t) + 5
  | .store i => 140 * (w.last - (i + 1)) + 4
  | .caught _ => 2
  | .record _ => 1
  | .done => 0

/-- A move lowers the weight; in the loop over attempts because the number of attempts is
bounded. -/
theorem KeyMove.weight_lt {m m' : KeyMemory} {w w' : KeyWorker}
    (h : KeyMove prims seeds rowSize m w m' w')
    (ht : ∀ i t, w.phase = .encode i t → t < kMaxKeyTries) : w'.weight < w.weight := by
  have h64 : kMaxKeyTries = 64 := rfl
  cases h with
  | again i t code work hphase henc =>
    have hlt := ht i t hphase
    simp only [KeyWorker.weight, hphase]
    omega
  | stop i hphase | finish i hphase | enter i hphase | clear i hphase | exhausted i t hphase
  | tooLarge i hphase | store i hphase | raise e hphase | record e hphase =>
    simp only [KeyWorker.weight, KeyWorker.goto, hphase]
    omega
  | generate i t rawPk sk hphase | noKey i t e hphase | found i t code work hphase
  | noCode i t e hphase =>
    simp only [KeyWorker.weight, KeyWorker.goto, hphase]
    omega

end Moves

end PqPsi.Protocol
