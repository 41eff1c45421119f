import PqPsi.Lib.Runs
import PqPsi.Lib.Workers
import PqPsi.Protocol.Net

/-!
# Any order on the channels

Several transfers share the channels of a connection. Each channel carries its
parts in order and loses none; which channel sends, delivers or completes a
receive next is open. A receive buffer is complete when the receives of its
transfer are, whatever happened in between.
-/
namespace PqPsi.Protocol.Net
open Lib.Buffers Lib.Exceptions Lib.Runs Lib.Workers

section Words

/-- `evenParts` in `u64` arithmetic. -/
def evenPartsWord (units n unitBytes : ℕ) : List (ℕ × ℕ) :=
  let use := min n units
  let per := sizeT (units + use - 1) / use
  (List.range use).filterMap fun i =>
    let first := sizeT (i * per)
    let last := min units (sizeT (first + per))
    if first < last then some (sizeT (first * unitBytes), sizeT ((last - first) * unitBytes))
    else none

/-- `net::chunks` in `u64` arithmetic. -/
def chunksWord (bytes n : ℕ) : List (ℕ × ℕ) :=
  if bytes = 0 ∨ n = 0 then []
  else if bytes % blockBytes = 0 then evenPartsWord (bytes / blockBytes) n blockBytes
  else evenPartsWord bytes n 1

theorem evenPartsWord_eq {units n unitBytes : ℕ} (hsum : units + n < 2 ^ 64)
    (hbytes : units * unitBytes < 2 ^ 64) :
    evenPartsWord units n unitBytes = evenParts units n unitBytes := by
  unfold evenPartsWord evenParts
  dsimp only
  rw [sizeT_of_lt (by omega)]
  refine List.filterMap_congr fun i hi => ?_
  rw [List.mem_range] at hi
  have hend : i * ((units + min n units - 1) / min n units) +
      (units + min n units - 1) / min n units < 2 ^ 64 := by
    have hmul : min n units * ((units + min n units - 1) / min n units) ≤ units + min n units - 1 :=
      Nat.mul_div_le _ _
    have hle : i * ((units + min n units - 1) / min n units) +
        (units + min n units - 1) / min n units ≤
        min n units * ((units + min n units - 1) / min n units) := by
      rw [← Nat.succ_mul]
      exact Nat.mul_le_mul_right _ hi
    omega
  generalize (units + min n units - 1) / min n units = per at hend ⊢
  rw [sizeT_of_lt (by omega), sizeT_of_lt (by omega)]
  split_ifs with hlt
  · have hfirst : i * per * unitBytes ≤ units * unitBytes := Nat.mul_le_mul_right _ (by omega)
    have hlast : (min units (i * per + per) - i * per) * unitBytes ≤ units * unitBytes :=
      Nat.mul_le_mul_right _ (by omega)
    rw [sizeT_of_lt (by omega), sizeT_of_lt (by omega)]
  · rfl

theorem chunksWord_eq {bytes n : ℕ} (h : bytes + n < 2 ^ 64) : chunksWord bytes n = chunks bytes n := by
  unfold chunksWord chunks
  split_ifs with h₀ hmod
  · rfl
  · have hdiv : bytes / blockBytes ≤ bytes := Nat.div_le_self _ _
    have hmul : bytes / blockBytes * blockBytes ≤ bytes := Nat.div_mul_le_self _ _
    exact evenPartsWord_eq (by omega) (by omega)
  · exact evenPartsWord_eq h (by omega)

theorem chunks_pos (bytes n : ℕ) : ∀ c ∈ chunks bytes n, 0 < c.2 := by
  have heven : ∀ units unitBytes, 0 < unitBytes → ∀ c ∈ evenParts units n unitBytes, 0 < c.2 := by
    intro units unitBytes hpos c hc
    obtain ⟨i, -, hi⟩ := List.mem_filterMap.mp hc
    dsimp only at hi
    split_ifs at hi with hlt
    obtain rfl := Option.some.inj hi
    exact Nat.mul_pos (by omega) hpos
  intro c hc
  unfold chunks at hc
  split_ifs at hc
  · simp at hc
  · exact heven _ _ (by decide) c hc
  · exact heven _ _ one_pos c hc

/-- Parts that follow each other do not overlap. -/
theorem Tiles.pairwise {off total : ℕ} {ps : List (ℕ × ℕ)} (h : Tiles off ps total) :
    (∀ p ∈ ps, off ≤ p.1 ∧ p.1 + p.2 ≤ total) ∧
      ps.Pairwise fun a b => a.1 + a.2 ≤ b.1 := by
  induction ps generalizing off with
  | nil => simp
  | cons p ps ih =>
    obtain ⟨hp, hrest⟩ := h
    obtain ⟨hbound, hpair⟩ := ih hrest
    have hle := hrest.le
    refine ⟨fun q hq => ?_, List.pairwise_cons.mpr ⟨fun q hq => ?_, hpair⟩⟩
    · rcases List.mem_cons.mp hq with rfl | hq
      · omega
      · have := hbound q hq
        omega
    · have := hbound q hq
      omega

/-- A buffer that is right on every part is right. -/
theorem Tiles.eq_of_slices {off total : ℕ} {ps : List (ℕ × ℕ)} (h : Tiles off ps total)
    {buf data : List Byte} (hbuf : buf.length = total) (hdata : data.length = total)
    (hslices : ∀ p ∈ ps, slice buf p.1 p.2 = slice data p.1 p.2) : buf.drop off = data.drop off := by
  induction ps generalizing off with
  | nil =>
    obtain rfl : off = total := h
    rw [List.drop_eq_nil_of_le hbuf.le, List.drop_eq_nil_of_le hdata.le]
  | cons p ps ih =>
    obtain ⟨hp, hrest⟩ := h
    have htail := ih hrest fun q hq => hslices q (by simp [hq])
    have hhead := hslices p (by simp)
    rw [hp, slice, slice] at hhead
    rw [← List.take_append_drop p.2 (buf.drop off), ← List.take_append_drop p.2 (data.drop off),
      List.drop_drop, List.drop_drop, hhead, htail]

end Words

section Model

/-- A posted receive: its transfer, and the part of the buffer it fills. -/
structure Job where
  transfer : ℕ
  off : ℕ
  len : ℕ
deriving DecidableEq, Repr

/-- One channel in one direction, oldest first everywhere: the messages still to be sent, those on
their way, those that have arrived, and the receives that are not complete. -/
structure Channel where
  toSend : List (List Byte)
  inFlight : List (List Byte)
  arrived : List (List Byte)
  posted : List Job

/-- The channels, the receive buffer of every transfer, and the first exception of a receive. -/
structure Transfers where
  channels : ℕ → Channel
  bufs : ℕ → List Byte
  err : Option Err

inductive Event where
  | send (i : ℕ)
  | deliver (i : ℕ)
  | complete (i : ℕ)

def Transfers.setChannel (s : Transfers) (i : ℕ) (ch : Channel) : Transfers :=
  { s with channels := Function.update s.channels i ch }

/-- A message is written to the part of the buffer its receive is for. -/
def Transfers.write (s : Transfers) (job : Job) (msg : List Byte) : Transfers :=
  { s with bufs := Function.update s.bufs job.transfer (splice (s.bufs job.transfer) job.off msg) }

section Updates
variable (s : Transfers) (job : Job) (msg : List Byte) (ch : Channel) {i j t : ℕ}

theorem Transfers.channels_setChannel_self : (s.setChannel i ch).channels i = ch :=
  Function.update_self ..

theorem Transfers.channels_setChannel_of_ne (h : j ≠ i) :
    (s.setChannel i ch).channels j = s.channels j :=
  Function.update_of_ne h ..

@[simp] theorem Transfers.bufs_setChannel : (s.setChannel i ch).bufs = s.bufs := rfl

@[simp] theorem Transfers.channels_write : (s.write job msg).channels = s.channels := rfl

theorem Transfers.bufs_write_self :
    (s.write job msg).bufs job.transfer = splice (s.bufs job.transfer) job.off msg :=
  Function.update_self ..

theorem Transfers.bufs_write_of_ne (h : t ≠ job.transfer) :
    (s.write job msg).bufs t = s.bufs t :=
  Function.update_of_ne h ..

end Updates

/-- What one channel does next; `none` when it has nothing to send, deliver or receive. -/
def step (s : Transfers) : Event → Option Transfers
  | .send i =>
    match (s.channels i).toSend with
    | [] => none
    | msg :: toSend => some (s.setChannel i
        { s.channels i with toSend, inFlight := (s.channels i).inFlight ++ [msg] })
  | .deliver i =>
    match (s.channels i).inFlight with
    | [] => none
    | msg :: inFlight => some (s.setChannel i
        { s.channels i with inFlight, arrived := (s.channels i).arrived ++ [msg] })
  | .complete i =>
    match (s.channels i).arrived, (s.channels i).posted with
    | msg :: arrived, job :: posted =>
      let s := s.setChannel i { s.channels i with arrived, posted }
      if msg.length ≠ job.len then
        let text := "The provided buffer does not fit the received message. Expected: " ++
          toString job.len ++ ", actual: " ++ toString msg.length
        some { s with err := s.err <|> some text }
      else some (s.write job msg)
    | _, _ => none

/-- `k` transfers: message `i` and receive `i` of each go to channel `i`. -/
def start (k : ℕ) (msgs : ℕ → List (List Byte)) (jobs : ℕ → List (ℕ × ℕ)) (bufs : ℕ → List Byte) :
    Transfers where
  channels i :=
    { toSend := (List.range k).filterMap fun t => (msgs t)[i]?
      inFlight := []
      arrived := []
      posted := (List.range k).filterMap fun t => (jobs t)[i]?.map fun p => ⟨t, p.1, p.2⟩ }
  bufs
  err := none

theorem start_congr {k : ℕ} {msgs msgs' : ℕ → List (List Byte)} {jobs jobs' : ℕ → List (ℕ × ℕ)}
    (bufs : ℕ → List Byte) (hmsgs : ∀ t < k, msgs t = msgs' t) (hjobs : ∀ t < k, jobs t = jobs' t) :
    start k msgs jobs bufs = start k msgs' jobs' bufs := by
  unfold start
  congr 1
  funext i
  congr 1
  · exact List.filterMap_congr fun t ht => by rw [hmsgs t (List.mem_range.mp ht)]
  · exact List.filterMap_congr fun t ht => by rw [hjobs t (List.mem_range.mp ht)]

/-- `PendingRecv::wait` of a transfer has returned. -/
def Transfers.Returned (s : Transfers) (t : ℕ) : Prop :=
  ∀ i, ∀ job ∈ (s.channels i).posted, job.transfer ≠ t

end Model

section Invariant
variable {k : ℕ} {data : ℕ → List Byte} {ps : ℕ → List (ℕ × ℕ)} {m : ℕ}

/-- The message is the part of its transfer that the receive is for. -/
def Carries (k : ℕ) (data : ℕ → List Byte) (ps : ℕ → List (ℕ × ℕ)) (job : Job)
    (msg : List Byte) : Prop :=
  job.transfer < k ∧ (job.off, job.len) ∈ ps job.transfer ∧
    msg = slice (data job.transfer) job.off job.len

/-- The receives of a channel match its messages in order. A part is in its buffer unless its
receive is still posted. -/
structure Inv (k : ℕ) (data : ℕ → List Byte) (ps : ℕ → List (ℕ × ℕ)) (m : ℕ) (s : Transfers) :
    Prop where
  carries : ∀ i, List.Forall₂ (Carries k data ps) (s.channels i).posted
    ((s.channels i).arrived ++ (s.channels i).inFlight ++ (s.channels i).toSend)
  idle : ∀ i, m ≤ i → (s.channels i).posted = []
  size : ∀ t < k, (s.bufs t).length = (data t).length
  filled : ∀ t < k, ∀ p ∈ ps t, (∃ i, ⟨t, p.1, p.2⟩ ∈ (s.channels i).posted) ∨
    slice (s.bufs t) p.1 p.2 = slice (data t) p.1 p.2
  err : s.err = none

theorem inv_start {bufs : ℕ → List Byte} (hsize : ∀ t < k, (bufs t).length = (data t).length)
    (hm : ∀ t < k, (ps t).length ≤ m) :
    Inv k data ps m (start k (fun t => (ps t).map fun p => slice (data t) p.1 p.2) ps bufs) := by
  refine ⟨fun i => ?_, fun i hi => ?_, hsize, fun t ht p hp => .inl ?_, rfl⟩
  · have hmatch : ∀ l : List ℕ, (∀ t ∈ l, t < k) → List.Forall₂ (Carries k data ps)
        (l.filterMap fun t => (ps t)[i]?.map fun p => ⟨t, p.1, p.2⟩)
        (l.filterMap fun t => ((ps t).map fun p => slice (data t) p.1 p.2)[i]?) := by
      intro l hl
      induction l with
      | nil => exact .nil
      | cons t l ih =>
        have hrest := ih fun t ht => hl t (by simp [ht])
        rw [List.filterMap_cons, List.filterMap_cons, List.getElem?_map]
        cases hp : (ps t)[i]? with
        | none => exact hrest
        | some p => exact .cons ⟨hl t (by simp), List.mem_of_getElem? hp, rfl⟩ hrest
    exact hmatch (List.range k) fun t ht => List.mem_range.mp ht
  · simp only [start, List.filterMap_eq_nil_iff, List.mem_range]
    intro t ht
    rw [List.getElem?_eq_none ((hm t ht).trans hi), Option.map_none]
  · obtain ⟨i, hi, rfl⟩ := List.mem_iff_getElem.mp hp
    refine ⟨i, ?_⟩
    simp only [start, List.mem_filterMap, List.mem_range]
    exact ⟨t, ht, by simp [hi]⟩

/-- Everything an event can do. -/
theorem step_cases {s s' : Transfers} {e : Event} (h : step s e = some s') :
    (∃ i msg toSend, e = .send i ∧ (s.channels i).toSend = msg :: toSend ∧ s' = s.setChannel i
      { s.channels i with toSend, inFlight := (s.channels i).inFlight ++ [msg] }) ∨
    (∃ i msg inFlight, e = .deliver i ∧ (s.channels i).inFlight = msg :: inFlight ∧
      s' = s.setChannel i
        { s.channels i with inFlight, arrived := (s.channels i).arrived ++ [msg] }) ∨
    ∃ i msg arrived job posted, e = .complete i ∧ (s.channels i).arrived = msg :: arrived ∧
      (s.channels i).posted = job :: posted ∧
      (msg.length = job.len →
        s' = (s.setChannel i { s.channels i with arrived, posted }).write job msg) := by
  cases e with
  | send i =>
    simp only [step] at h
    split at h
    next => simp at h
    next msg toSend hq => exact .inl ⟨i, msg, toSend, rfl, hq, (Option.some.inj h).symm⟩
  | deliver i =>
    simp only [step] at h
    split at h
    next => simp at h
    next msg inFlight hq => exact .inr (.inl ⟨i, msg, inFlight, rfl, hq, (Option.some.inj h).symm⟩)
  | complete i =>
    simp only [step] at h
    split at h
    next msg arrived job posted ha hp =>
      refine .inr (.inr ⟨i, msg, arrived, job, posted, rfl, ha, hp, fun hlen => ?_⟩)
      rw [if_neg (not_not.mpr hlen)] at h
      exact (Option.some.inj h).symm
    next => simp at h

/-- A message that moves on inside its channel changes nothing else. -/
theorem Inv.move {s : Transfers} (hinv : Inv k data ps m s) {i : ℕ} {ch : Channel}
    (hposted : ch.posted = (s.channels i).posted)
    (hmsgs : ch.arrived ++ ch.inFlight ++ ch.toSend =
      (s.channels i).arrived ++ (s.channels i).inFlight ++ (s.channels i).toSend) :
    Inv k data ps m (s.setChannel i ch) := by
  have hall : ∀ j, ((s.setChannel i ch).channels j).posted = (s.channels j).posted := by
    intro j
    by_cases hj : j = i
    · subst hj
      rw [Transfers.channels_setChannel_self, hposted]
    · rw [Transfers.channels_setChannel_of_ne _ _ hj]
  refine ⟨fun j => ?_, fun j hj => ?_, hinv.size, fun t ht p hp => ?_, hinv.err⟩
  · by_cases hj : j = i
    · subst hj
      rw [Transfers.channels_setChannel_self, hposted, hmsgs]
      exact hinv.carries j
    · rw [Transfers.channels_setChannel_of_ne _ _ hj]
      exact hinv.carries j
  · exact (hall j).trans (hinv.idle j hj)
  · simp only [hall]
    exact hinv.filled t ht p hp

/-- Two parts of a transfer are the same or do not overlap. -/
theorem parts_apart {total : ℕ} {qs : List (ℕ × ℕ)} (h : Tiles 0 qs total) {p q : ℕ × ℕ}
    (hp : p ∈ qs) (hq : q ∈ qs) (hne : p ≠ q) : p.1 + p.2 ≤ q.1 ∨ q.1 + q.2 ≤ p.1 := by
  have hsymm : Std.Symm fun a b : ℕ × ℕ => a.1 + a.2 ≤ b.1 ∨ b.1 + b.2 ≤ a.1 :=
    ⟨fun _ _ hab => hab.symm⟩
  have hpair : qs.Pairwise fun a b => a.1 + a.2 ≤ b.1 ∨ b.1 + b.2 ≤ a.1 :=
    h.pairwise.2.imp Or.inl
  exact hpair.forall hp hq hne

/-- A completed receive puts its part in place and leaves the other parts alone. -/
theorem Inv.complete (htiles : ∀ t < k, Tiles 0 (ps t) (data t).length) {s : Transfers}
    (hinv : Inv k data ps m s) {i : ℕ} {msg : List Byte} {arrived : List (List Byte)} {job : Job}
    {posted : List Job} (ha : (s.channels i).arrived = msg :: arrived)
    (hp : (s.channels i).posted = job :: posted) :
    msg.length = job.len ∧
      Inv k data ps m ((s.setChannel i { s.channels i with arrived, posted }).write job msg) := by
  have hmatch := hinv.carries i
  rw [ha, hp, List.cons_append, List.cons_append, List.forall₂_cons] at hmatch
  obtain ⟨⟨hk, hpart, hmsg⟩, hrest⟩ := hmatch
  have hfit := ((htiles _ hk).pairwise.1 _ hpart).2
  have hlen : msg.length = job.len := by
    rw [hmsg]
    exact length_slice hfit
  have hfit' : job.off + msg.length ≤ (s.bufs job.transfer).length := by
    rw [hlen, hinv.size _ hk]
    exact hfit
  -- the other receives stay posted
  have hkeep : ∀ job' ≠ job, (∃ j, job' ∈ (s.channels j).posted) →
      ∃ j, job' ∈ (((s.setChannel i { s.channels i with arrived, posted }).write
        job msg).channels j).posted := by
    rintro job' hne ⟨j, hj⟩
    refine ⟨j, ?_⟩
    by_cases hji : j = i
    · subst hji
      rw [hp, List.mem_cons] at hj
      rw [Transfers.channels_write, Transfers.channels_setChannel_self]
      exact hj.resolve_left hne
    · rw [Transfers.channels_write, Transfers.channels_setChannel_of_ne _ _ hji]
      exact hj
  refine ⟨hlen, fun j => ?_, fun j hj => ?_, fun t ht => ?_, fun t ht p hpt => ?_, hinv.err⟩
  · by_cases hj : j = i
    · subst hj
      rw [Transfers.channels_write, Transfers.channels_setChannel_self]
      exact hrest
    · rw [Transfers.channels_write, Transfers.channels_setChannel_of_ne _ _ hj]
      exact hinv.carries j
  · have hne : j ≠ i := by
      rintro rfl
      simp [hinv.idle j hj] at hp
    rw [Transfers.channels_write, Transfers.channels_setChannel_of_ne _ _ hne]
    exact hinv.idle j hj
  · by_cases ht' : t = job.transfer
    · subst ht'
      rw [Transfers.bufs_write_self, Transfers.bufs_setChannel, length_splice hfit',
        hinv.size _ hk]
    · rw [Transfers.bufs_write_of_ne _ _ _ ht', Transfers.bufs_setChannel]
      exact hinv.size t ht
  · by_cases ht' : t = job.transfer
    · subst ht'
      by_cases hpj : p = (job.off, job.len)
      · -- the part that was just written
        subst hpj
        right
        rw [Transfers.bufs_write_self, Transfers.bufs_setChannel, ← hlen,
          slice_splice_same hfit', hlen, hmsg]
      · have hapart := parts_apart (htiles _ hk) hpt hpart hpj
        refine (hinv.filled _ ht p hpt).imp (hkeep _ ?_) fun hright => ?_
        · intro hjob
          exact hpj (Prod.ext (congrArg Job.off hjob) (congrArg Job.len hjob))
        · rw [Transfers.bufs_write_self, Transfers.bufs_setChannel,
            slice_splice_disjoint hfit' (by rw [hlen]; exact hapart), hright]
    · refine (hinv.filled t ht p hpt).imp (hkeep _ ?_) fun hright => ?_
      · exact fun hjob => ht' (congrArg Job.transfer hjob)
      · rw [Transfers.bufs_write_of_ne _ _ _ ht', Transfers.bufs_setChannel]
        exact hright

theorem inv_step (htiles : ∀ t < k, Tiles 0 (ps t) (data t).length) {s s' : Transfers} {e : Event}
    (hinv : Inv k data ps m s) (h : step s e = some s') : Inv k data ps m s' := by
  obtain ⟨i, msg, toSend, -, hq, rfl⟩ | ⟨i, msg, inFlight, -, hq, rfl⟩ |
    ⟨i, msg, arrived, job, posted, -, ha, hp, hs'⟩ := step_cases h
  · exact hinv.move rfl (by simp [hq])
  · exact hinv.move rfl (by simp [hq])
  · obtain ⟨hlen, hnext⟩ := hinv.complete htiles ha hp
    rw [hs' hlen]
    exact hnext

/-- A transfer whose receives are complete has arrived. -/
theorem Inv.received (htiles : ∀ t < k, Tiles 0 (ps t) (data t).length) {s : Transfers}
    (hinv : Inv k data ps m s) {t : ℕ} (ht : t < k) (hret : s.Returned t) :
    s.bufs t = data t := by
  have hslices : ∀ p ∈ ps t, slice (s.bufs t) p.1 p.2 = slice (data t) p.1 p.2 := by
    intro p hp
    refine (hinv.filled t ht p hp).resolve_left ?_
    rintro ⟨i, hi⟩
    exact hret i _ hi rfl
  exact (htiles t ht).eq_of_slices (hinv.size t ht) rfl hslices

/-- What is still to be done on a channel. -/
def Channel.work (ch : Channel) : ℕ :=
  3 * ch.toSend.length + 2 * ch.inFlight.length + ch.arrived.length

def Transfers.work (m : ℕ) (s : Transfers) : ℕ := ∑ i ∈ Finset.range m, (s.channels i).work

theorem work_setChannel {s : Transfers} {i : ℕ} {ch : Channel} (hi : i < m)
    (h : ch.work < (s.channels i).work) : (s.setChannel i ch).work m < s.work m := by
  apply Finset.sum_lt_sum
  · intro j _
    by_cases hj : j = i
    · subst hj
      rw [Transfers.channels_setChannel_self]
      exact h.le
    · rw [Transfers.channels_setChannel_of_ne _ _ hj]
  · refine ⟨i, Finset.mem_range.mpr hi, ?_⟩
    rw [Transfers.channels_setChannel_self]
    exact h

/-- Messages are on channels with posted receives only. -/
theorem Inv.lt_of_message {s : Transfers} (hinv : Inv k data ps m s) {i : ℕ}
    (h : (s.channels i).arrived ++ (s.channels i).inFlight ++ (s.channels i).toSend ≠ []) :
    i < m := by
  by_contra hge
  have hmatch := hinv.carries i
  rw [hinv.idle i (not_lt.mp hge), List.forall₂_nil_left_iff] at hmatch
  exact h hmatch

theorem work_step (htiles : ∀ t < k, Tiles 0 (ps t) (data t).length) {s s' : Transfers} {e : Event}
    (hinv : Inv k data ps m s) (h : step s e = some s') : s'.work m < s.work m := by
  obtain ⟨i, msg, toSend, -, hq, rfl⟩ | ⟨i, msg, inFlight, -, hq, rfl⟩ |
    ⟨i, msg, arrived, job, posted, -, ha, hp, hs'⟩ := step_cases h
  · refine work_setChannel (hinv.lt_of_message (by simp [hq])) ?_
    simp only [Channel.work, hq, List.length_append, List.length_cons, List.length_nil]
    omega
  · refine work_setChannel (hinv.lt_of_message (by simp [hq])) ?_
    simp only [Channel.work, hq, List.length_append, List.length_cons, List.length_nil]
    omega
  · obtain ⟨hlen, -⟩ := hinv.complete htiles ha hp
    rw [hs' hlen]
    refine work_setChannel (hinv.lt_of_message (by simp [ha])) ?_
    simp only [Channel.work, ha, List.length_cons]
    omega

/-- While a receive is posted, its channel has something to do. -/
theorem exists_step {s : Transfers} (hinv : Inv k data ps m s)
    (h : ¬ ∀ i, (s.channels i).posted = []) : ∃ e s', step s e = some s' := by
  rw [not_forall] at h
  obtain ⟨i, hi⟩ := h
  obtain ⟨job, posted, hp⟩ := List.exists_cons_of_ne_nil hi
  have hmatch := hinv.carries i
  cases ha : (s.channels i).arrived with
  | cons msg arrived =>
    refine ⟨.complete i, ?_⟩
    simp only [step, ha, hp]
    split_ifs
    · exact ⟨_, rfl⟩
    · exact ⟨_, rfl⟩
  | nil =>
    cases hf : (s.channels i).inFlight with
    | cons msg inFlight => exact ⟨.deliver i, by simp [step, hf]⟩
    | nil =>
      cases hs : (s.channels i).toSend with
      | cons msg toSend => exact ⟨.send i, by simp [step, hs]⟩
      | nil =>
        rw [hp, ha, hf, hs] at hmatch
        exact absurd hmatch (by simp)

end Invariant

/-- The segments of `chunks` follow each other from the front of the buffer to its end, unless
there is no channel. Transfers over channels that are lossless and in order then reassemble every
message, in whatever order the channels send, deliver and complete. -/
theorem parallel_transfer (n : ℕ) :
    (∀ bytes, bytes + n < 2 ^ 64 → chunksWord bytes n = chunks bytes n ∧
      (chunksWord bytes n).length ≤ n ∧ (∀ c ∈ chunksWord bytes n, 0 < c.2) ∧
      (chunksWord bytes n).Pairwise (fun a b => a.1 + a.2 ≤ b.1) ∧
      if n = 0 then chunksWord bytes n = [] else Tiles 0 (chunksWord bytes n) bytes) ∧
    ∀ (multiThread : Bool) (k : ℕ) (data bufs : ℕ → List Byte) (msgs : ℕ → List (List Byte))
      (jobs : ℕ → List (ℕ × ℕ)) (events : List Event) (s : Transfers),
      (∀ t < k, (bufs t).length = (data t).length) →
      (∀ t < k, send multiThread n (data t) = .ok (msgs t)) →
      (∀ t < k, asyncRecv multiThread n (bufs t).length = .ok (jobs t)) →
      run step (start k msgs jobs bufs) events = some s →
      s.err = none ∧ (∀ t < k, s.Returned t → s.bufs t = data t) ∧
        ∃ events' s', run step s events' = some s' ∧ ∀ t < k, s'.Returned t := by
  constructor
  · intro bytes hsize
    rw [chunksWord_eq hsize]
    have htiles : 0 < n → Tiles 0 (chunks bytes n) bytes := by
      intro hn
      by_cases hb : bytes = 0
      · subst hb
        simp [chunks, Tiles]
      · exact tiles_chunks (Nat.pos_of_ne_zero hb) hn
    refine ⟨rfl, length_chunks_le bytes n, chunks_pos bytes n, ?_, ?_⟩
    · by_cases hn : n = 0
      · simp [chunks, hn]
      · exact (htiles (Nat.pos_of_ne_zero hn)).pairwise.2
    · split_ifs with hn
      · simp [chunks, hn]
      · exact htiles (Nat.pos_of_ne_zero hn)
  · intro multiThread k data bufs msgs jobs events s hlen hsend hrecv hrun
    set ps : ℕ → List (ℕ × ℕ) := fun t => parts multiThread n (data t).length with hps
    have hmsgs : ∀ t < k, msgs t = (ps t).map fun p => slice (data t) p.1 p.2 := fun t ht =>
      send_eq_ok (hsend t ht)
    have hjobs : ∀ t < k, jobs t = ps t := by
      intro t ht
      rw [(asyncRecv_eq_ok (hrecv t ht)).1, hlen t ht]
    have htiles : ∀ t < k, Tiles 0 (ps t) (data t).length := fun t _ => tiles_parts _ _ _
    rw [start_congr bufs hmsgs hjobs] at hrun
    have hinv : Inv k data ps (max 1 n) s :=
      run_invariant (fun _ _ _ => inv_step htiles)
        (inv_start hlen fun t _ => length_parts_le _ _ _) hrun
    obtain ⟨events', s', hrun', hdone⟩ := exists_run_done (fun _ _ _ => inv_step htiles)
      (fun _ _ _ => work_step htiles) (fun _ => exists_step) hinv
    refine ⟨hinv.err, fun t ht hret => hinv.received htiles ht hret, events', s', hrun',
      fun t _ i job hjob => ?_⟩
    simp [hdone i] at hjob

/-- Half of the message on each of two channels, until the receive returns. -/
theorem parallel_transfer_two_channels : ∃ events s,
    run step (start 1
      (fun _ => [slice (List.replicate 16384 1) 0 8192, slice (List.replicate 16384 1) 8192 8192])
      (fun _ => [(0, 8192), (8192, 8192)]) fun _ => List.replicate 16384 0) events = some s ∧
    s.Returned 0 ∧ s.bufs 0 = List.replicate 16384 1 := by
  have hparts : parts true 2 16384 = [(0, 8192), (8192, 8192)] := by decide
  have hsend : send true 2 (List.replicate 16384 1) = .ok
      [slice (List.replicate 16384 1) 0 8192, slice (List.replicate 16384 1) 8192 8192] := by
    rw [send, List.length_replicate, hparts]
    rfl
  have hrecv : asyncRecv true 2 (List.replicate 16384 (0 : Byte)).length =
      .ok [(0, 8192), (8192, 8192)] := by
    rw [asyncRecv, List.length_replicate, hparts]
    rfl
  have hlen : (List.replicate 16384 (0 : Byte)).length = (List.replicate 16384 (1 : Byte)).length := by
    rw [List.length_replicate, List.length_replicate]
  obtain ⟨-, -, events, s, hrun, hret⟩ := (parallel_transfer 2).2 true 1
    (fun _ => List.replicate 16384 1) _ _ _ [] _ (fun _ _ => hlen) (fun _ _ => hsend)
    (fun _ _ => hrecv) rfl
  obtain ⟨-, hdata, -⟩ := (parallel_transfer 2).2 true 1
    (fun _ => List.replicate 16384 1) _ _ _ events s (fun _ _ => hlen) (fun _ _ => hsend)
    (fun _ _ => hrecv) hrun
  exact ⟨events, s, hrun, hret 0 one_pos, hdata 0 one_pos (hret 0 one_pos)⟩

/-- Without a channel there is no segment, and the list does not reach the end of the buffer. -/
theorem chunksWord_no_channel : ¬ Tiles 0 (chunksWord 1 0) 1 := by
  simp [chunksWord, Tiles]

end PqPsi.Protocol.Net
