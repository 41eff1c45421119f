import PqPsi.Common.Block
import PqPsi.Lib.Buffers
import PqPsi.Lib.Exceptions

/-!
# Transfer over parallel channels

A buffer is cut into consecutive parts, and part `i` travels on channel `i`.
The receiver cuts its own buffer the same way and posts one receive of a fixed
size on each channel; a message of another size is an error, and so is a part
of size zero on either side.
-/
namespace PqPsi.Protocol.Net
open Lib.Buffers Lib.Exceptions

/-- The two branches of `net::chunks`: `units` units of `unitBytes` bytes in at most `n` parts. -/
def evenParts (units n unitBytes : ℕ) : List (ℕ × ℕ) :=
  let use := min n units
  let per := (units + use - 1) / use
  (List.range use).filterMap fun i =>
    let first := i * per
    let last := min units (first + per)
    if first < last then some (first * unitBytes, (last - first) * unitBytes) else none

/-- `net::chunks`: offset and length of every part. -/
def chunks (bytes n : ℕ) : List (ℕ × ℕ) :=
  if bytes = 0 ∨ n = 0 then []
  else if bytes % blockBytes = 0 then evenParts (bytes / blockBytes) n blockBytes
  else evenParts bytes n 1

def minParallelBytes : ℕ := 16 * 1024

def shouldSplit (multiThread : Bool) (channels bytes : ℕ) : Bool :=
  multiThread && channels > 1 && bytes ≥ minParallelBytes

/-- The parts that `send` and `asyncRecv` use. -/
def parts (multiThread : Bool) (channels bytes : ℕ) : List (ℕ × ℕ) :=
  if !shouldSplit multiThread channels bytes then [(0, bytes)] else chunks bytes channels

/-- `BtIOService::dispatch` refuses operations without data. -/
def dispatch (len : ℕ) : Except Err Unit := throwIf (len = 0) "rt error at BtIOService::dispatch"

/-- `net::send`: the messages, one for each channel in order. -/
def send (multiThread : Bool) (channels : ℕ) (data : List Byte) : Except Err (List (List Byte)) :=
  (parts multiThread channels data.length).mapM fun (off, len) => do
    dispatch len
    return slice data off len

/-- `net::asyncRecv`: the parts of the posted receives. -/
def asyncRecv (multiThread : Bool) (channels bytes : ℕ) : Except Err (List (ℕ × ℕ)) :=
  (parts multiThread channels bytes).mapM fun (off, len) => do
    dispatch len
    return (off, len)

/-- One direction of the connection: the message of every channel, and the channels that have
delivered theirs. -/
structure Link where
  sent : List (List Byte)
  arrived : Finset ℕ

namespace Link

def empty : Link := ⟨[], ∅⟩

/-- Channel `i` delivers its message. -/
def deliver (l : Link) (i : ℕ) : Option Link :=
  if i < l.sent.length ∧ i ∉ l.arrived then some { l with arrived := insert i l.arrived } else none

/-- What channel `i` has delivered. -/
def get (l : Link) (i : ℕ) : Option (List Byte) := if i ∈ l.arrived then l.sent[i]? else none

/-- The messages still on their way. -/
def pending (l : Link) : ℕ := (Finset.range l.sent.length \ l.arrived).card

theorem pending_deliver {l l' : Link} {i : ℕ} (h : l.deliver i = some l') :
    l'.pending < l.pending := by
  unfold deliver at h
  split_ifs at h with hi
  obtain rfl := Option.some.inj h
  apply Finset.card_lt_card
  rw [Finset.ssubset_iff_of_subset]
  · exact ⟨i, by simp [hi.1, hi.2], by simp⟩
  · intro j hj
    simp only [Finset.mem_sdiff, Finset.mem_insert, not_or] at hj ⊢
    exact ⟨hj.1, hj.2.2⟩

theorem sent_deliver {l l' : Link} {i : ℕ} (h : l.deliver i = some l') : l'.sent = l.sent := by
  unfold deliver at h
  split_ifs at h
  obtain rfl := Option.some.inj h
  rfl

/-- Where no channel can deliver, all messages are there. -/
theorem get_eq_of_stuck {l : Link} (h : ∀ i, l.deliver i = none) (i : ℕ) :
    l.get i = l.sent[i]? := by
  have hi := h i
  simp only [deliver, ite_eq_right_iff, reduceCtorEq, imp_false, not_and, not_not] at hi
  unfold get
  split_ifs with harr
  · rfl
  · rw [List.getElem?_eq_none]
    by_contra hlt
    exact harr (hi (not_le.mp hlt))

end Link

/-- `PendingRecv::wait` from channel `i` on; `none` while it blocks on channel `i` or a later
one. -/
def wait (l : Link) : ℕ → List (ℕ × ℕ) → List Byte → Option (Except Err (List Byte))
  | _, [], buf => some (.ok buf)
  | i, (off, len) :: rest, buf => do
    let msg ← l.get i
    if msg.length ≠ len then
      some (.error ("The provided buffer does not fit the received message. Expected: " ++
        toString len ++ ", actual: " ++ toString msg.length))
    else wait l (i + 1) rest (splice buf off msg)

/-- The parts follow each other from `off` to `total`. -/
def Tiles : ℕ → List (ℕ × ℕ) → ℕ → Prop
  | off, [], total => off = total
  | off, p :: ps, total => p.1 = off ∧ Tiles (off + p.2) ps total

theorem Tiles.le {off total : ℕ} {ps : List (ℕ × ℕ)} (h : Tiles off ps total) : off ≤ total := by
  induction ps generalizing off with
  | nil => exact Nat.le_of_eq h
  | cons p ps ih =>
    have hnext := ih h.2
    omega

section Chunks

theorem tiles_filterMap (units per unitBytes k m : ℕ) :
    Tiles (min units (k * per) * unitBytes)
      ((List.range' k m).filterMap fun i =>
        if i * per < min units (i * per + per) then
          some (i * per * unitBytes, (min units (i * per + per) - i * per) * unitBytes)
        else none)
      (min units ((k + m) * per) * unitBytes) := by
  induction m generalizing k with
  | zero => simp [Tiles]
  | succ m ih =>
    have hnext : (k + 1) * per = k * per + per := by ring
    have hend : (k + (m + 1)) * per = (k + 1 + m) * per := by ring
    have ih' := ih (k + 1)
    rw [hnext] at ih'
    rw [List.range'_succ, List.filterMap_cons, hend]
    by_cases hlt : k * per < min units (k * per + per)
    · have hmin : min units (k * per) = k * per := by omega
      have hsum : k * per * unitBytes + (min units (k * per + per) - k * per) * unitBytes =
          min units (k * per + per) * unitBytes := by
        rw [← Nat.add_mul]
        congr 1
        omega
      rw [if_pos hlt, hmin]
      refine ⟨rfl, ?_⟩
      rw [hsum]
      exact ih'
    · have hmin : min units (k * per) = min units (k * per + per) := by
        rcases Nat.eq_zero_or_pos per with h | h <;> omega
      rw [if_neg hlt, hmin]
      exact ih'

theorem tiles_evenParts {units n : ℕ} (unitBytes : ℕ) (hn : 0 < n) (hu : 0 < units) :
    Tiles 0 (evenParts units n unitBytes) (units * unitBytes) := by
  have huse : 0 < min n units := by omega
  have hcover : units ≤ min n units * ((units + min n units - 1) / min n units) := by
    have hd := Nat.div_add_mod (units + min n units - 1) (min n units)
    have hm := Nat.mod_lt (units + min n units - 1) huse
    omega
  have htiles := tiles_filterMap units ((units + min n units - 1) / min n units) unitBytes 0
    (min n units)
  rw [Nat.zero_mul, Nat.min_zero, Nat.zero_mul, Nat.zero_add, Nat.min_eq_left hcover,
    ← List.range_eq_range'] at htiles
  exact htiles

theorem tiles_chunks {bytes n : ℕ} (hb : 0 < bytes) (hn : 0 < n) :
    Tiles 0 (chunks bytes n) bytes := by
  unfold chunks
  rw [if_neg (by omega)]
  split_ifs with hmod
  · have hblocks : 0 < bytes / blockBytes := by
      simp only [blockBytes] at hmod ⊢
      omega
    have htiles := tiles_evenParts blockBytes hn hblocks
    rwa [Nat.div_mul_cancel (Nat.dvd_of_mod_eq_zero hmod)] at htiles
  · have htiles := tiles_evenParts 1 hn hb
    rwa [Nat.mul_one] at htiles

/-- The parts cover the whole buffer. -/
theorem tiles_parts (multiThread : Bool) (channels bytes : ℕ) :
    Tiles 0 (parts multiThread channels bytes) bytes := by
  unfold parts
  split_ifs with hsplit
  · exact ⟨rfl, by simp [Tiles]⟩
  · simp only [shouldSplit, Bool.not_eq_true', Bool.not_eq_false, Bool.and_eq_true,
      decide_eq_true_eq] at hsplit
    apply tiles_chunks
    · exact lt_of_lt_of_le (by decide) hsplit.2
    · omega

theorem parts_ne_nil (multiThread : Bool) (channels bytes : ℕ) :
    parts multiThread channels bytes ≠ [] := by
  intro hnil
  have htiles := tiles_parts multiThread channels bytes
  rw [hnil] at htiles
  obtain rfl : 0 = bytes := htiles
  simp [parts, shouldSplit, minParallelBytes] at hnil

end Chunks

section Transfer
variable {data : List Byte}

/-- An operation on every part, when `dispatch` accepts them all. -/
theorem mapM_dispatch_eq_ok {β : Type} {f : ℕ × ℕ → β} {ps : List (ℕ × ℕ)} {out : List β}
    (h : ps.mapM (fun p => do dispatch p.2; return f p) = .ok out) :
    out = ps.map f ∧ ∀ p ∈ ps, p.2 ≠ 0 := by
  induction ps generalizing out with
  | nil =>
    obtain rfl : [] = out := by simpa using h
    simp
  | cons p ps ih =>
    rw [List.mapM_cons] at h
    obtain ⟨m, hm, hrest⟩ := bind_eq_ok.mp h
    obtain ⟨ms, hms, hcons⟩ := bind_eq_ok.mp hrest
    obtain ⟨u, hpos, hf⟩ := bind_eq_ok.mp hm
    obtain rfl : m :: ms = out := by simpa using hcons
    obtain rfl : f p = m := by simpa using hf
    obtain ⟨rfl, htail⟩ := ih hms
    rw [dispatch, throwIf_eq_ok] at hpos
    exact ⟨rfl, List.forall_mem_cons.mpr ⟨hpos, htail⟩⟩

/-- The messages of a send are the slices of its parts. -/
theorem send_eq_ok {multiThread : Bool} {channels : ℕ} {msgs : List (List Byte)}
    (h : send multiThread channels data = .ok msgs) :
    msgs = (parts multiThread channels data.length).map fun p => slice data p.1 p.2 :=
  (mapM_dispatch_eq_ok h).1

theorem asyncRecv_eq_ok {multiThread : Bool} {channels bytes : ℕ} {ps : List (ℕ × ℕ)}
    (h : asyncRecv multiThread channels bytes = .ok ps) :
    ps = parts multiThread channels bytes ∧ ∀ p ∈ ps, p.2 ≠ 0 := by
  obtain ⟨hps, hpos⟩ := mapM_dispatch_eq_ok (f := fun p => p) h
  rw [List.map_id'] at hps
  exact ⟨hps, hps ▸ hpos⟩

/-- Nothing is received from a connection on which nothing was sent. -/
theorem sent_ne_nil {l : Link} {i : ℕ} {ps : List (ℕ × ℕ)} {buf : List Byte}
    {out : Except Err (List Byte)} (hps : ps ≠ []) (h : wait l i ps buf = some out) :
    l.sent ≠ [] := by
  cases ps with
  | nil => exact absurd rfl hps
  | cons p ps =>
    obtain ⟨msg, hmsg, -⟩ := Option.bind_eq_some_iff.mp h
    intro hnil
    simp [Link.get, hnil] at hmsg

theorem length_chunks_le (bytes n : ℕ) : (chunks bytes n).length ≤ n := by
  have heven : ∀ units unitBytes, (evenParts units n unitBytes).length ≤ n := by
    intro units unitBytes
    apply (List.length_filterMap_le _ _).trans
    rw [List.length_range]
    exact min_le_left _ _
  unfold chunks
  split_ifs
  · exact Nat.zero_le _
  · exact heven _ _
  · exact heven _ _

theorem length_parts_le (multiThread : Bool) (channels bytes : ℕ) :
    (parts multiThread channels bytes).length ≤ max 1 channels := by
  unfold parts
  split_ifs
  · exact le_max_left _ _
  · exact (length_chunks_le _ _).trans (le_max_right _ _)

/-- The messages of the parts from channel `i` on complete a buffer whose first `off` bytes are
right. -/
theorem wait_eq_ok {l : Link} {sent : List (ℕ × ℕ)}
    (hl : l.sent = sent.map fun p => slice data p.1 p.2) (i : ℕ) {rest : List (ℕ × ℕ)} {off : ℕ}
    {buf out : List Byte} (hsent : Tiles off (sent.drop i) data.length)
    (hrest : Tiles off rest data.length) (hlen : buf.length = data.length)
    (hbuf : buf.take off = data.take off) (h : wait l i rest buf = some (.ok out)) :
    out = data := by
  induction rest generalizing i off buf with
  | nil =>
    obtain rfl : buf = out := by simpa [wait] using h
    obtain rfl : off = data.length := hrest
    rwa [← hlen, List.take_length, hlen, List.take_length] at hbuf
  | cons q rest ih =>
    obtain ⟨o, len⟩ := q
    obtain ⟨hq, htail⟩ := hrest
    obtain ⟨msg, hmsg, hnext⟩ := Option.bind_eq_some_iff.mp h
    by_cases hsize : msg.length ≠ len
    · rw [if_pos hsize] at hnext
      simp at hnext
    rw [if_neg hsize] at hnext
    have hget : l.sent[i]? = some msg := by
      unfold Link.get at hmsg
      split_ifs at hmsg
      exact hmsg
    rw [hl, List.getElem?_map] at hget
    obtain ⟨p, hp, rfl⟩ := Option.map_eq_some_iff.mp hget
    obtain ⟨hi, hpi⟩ := List.getElem?_eq_some_iff.mp hp
    rw [List.drop_eq_getElem_cons hi, hpi] at hsent
    obtain ⟨hp₁, hsent'⟩ := hsent
    have hfit := hsent'.le
    rw [not_not] at hsize
    rw [hp₁] at hsize hnext
    rw [length_slice hfit] at hsize
    have hq' : o = off := hq
    subst hsize hq'
    -- the new message extends the part of the buffer that is right
    refine ih (i + 1) hsent' htail ?_ ?_ hnext
    · rw [length_splice, hlen]
      rw [length_slice hfit, hlen]
      exact hfit
    · rw [splice, hbuf, List.take_append_of_le_length, List.take_of_length_le]
      · rw [slice, ← List.take_add]
      · rw [List.length_append, List.length_take, length_slice hfit]
        omega
      · rw [List.length_append, List.length_take, length_slice hfit]
        omega

/-- When all messages are there, a receiver that expects as many bytes as were sent does not
block. -/
theorem wait_ne_none {l : Link} {sent : List (ℕ × ℕ)}
    (hl : l.sent = sent.map fun p => slice data p.1 p.2) (hget : ∀ i, l.get i = l.sent[i]?) (i : ℕ)
    {rest : List (ℕ × ℕ)} {off : ℕ} (buf : List Byte)
    (hsent : Tiles off (sent.drop i) data.length) (hrest : Tiles off rest data.length)
    (hpos : ∀ p ∈ rest, p.2 ≠ 0) : wait l i rest buf ≠ none := by
  induction rest generalizing i off buf with
  | nil => simp [wait]
  | cons q rest ih =>
    obtain ⟨o, len⟩ := q
    obtain ⟨-, htail⟩ := hrest
    have hlen : len ≠ 0 := hpos (o, len) List.mem_cons_self
    have hnext := htail.le
    rw [wait, hget, hl, List.getElem?_map]
    cases hp : sent[i]? with
    | none =>
      -- all parts have been received, and the next one would lie behind the end
      rw [List.drop_eq_nil_of_le (List.getElem?_eq_none_iff.mp hp)] at hsent
      have hend : off = data.length := hsent
      simp only at hnext
      omega
    | some p =>
      obtain ⟨hi, hpi⟩ := List.getElem?_eq_some_iff.mp hp
      rw [List.drop_eq_getElem_cons hi, hpi] at hsent
      obtain ⟨hp₁, hsent'⟩ := hsent
      have hfit := hsent'.le
      simp only [Option.map_some, Option.bind_eq_bind, Option.bind_some]
      split_ifs with hsize
      · simp
      · rw [not_not, hp₁, length_slice hfit] at hsize
        subst hsize
        exact ih (i + 1) _ hsent' htail fun r hr => hpos r (List.mem_cons_of_mem _ hr)

end Transfer

end PqPsi.Protocol.Net
