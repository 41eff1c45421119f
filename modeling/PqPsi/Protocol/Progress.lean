import PqPsi.Protocol.System

/-!
# Tables on their way

Each table arrives as it was sent, with the size that both parties resolve. No
run goes on for ever, and no run in which both parties resolve the same shape
gets stuck before the end.
-/
namespace PqPsi.Protocol
open Lib Lib.Buffers Lib.Exceptions Lib.Runs Okvs

variable {F : Type} [Double F] {sys : System F} {s s' : State F}

section Tables
omit [Double F]

theorem length_of_waitBlocks {link : Net.Link} {pending : List (ℕ × ℕ)} {n : ℕ} {buf : List Block}
    (h : waitBlocks link pending n = some (.ok buf)) : buf.length = n := by
  obtain ⟨bs, -, hbuf⟩ := Option.map_eq_some_iff.mp h
  cases bs with
  | error e => simp [Except.map] at hbuf
  | ok bs =>
    obtain rfl := Except.ok.inj hbuf
    exact length_blocksOf _ _

/-- A table arrives as it was sent, however the two sides cut it. -/
theorem waitBlocks_eq_ok {ctx ctx' : Ctx F} {sent buf : List Block} {msgs : List (List Byte)}
    {arrived : Finset ℕ} {pending : List (ℕ × ℕ)} {n : ℕ} (hsend : ctx.send sent = .ok msgs)
    (hpend : ctx'.asyncRecv (n * blockBytes) = .ok pending) (hn : sent.length = n)
    (h : waitBlocks ⟨msgs, arrived⟩ pending n = some (.ok buf)) : buf = sent := by
  subst hn
  have hbytes : sent.length * blockBytes = (bytesOf sent).length := by
    rw [length_bytesOf, blockBytes, Nat.mul_comm]
  obtain ⟨bs, hwait, hbuf⟩ := Option.map_eq_some_iff.mp h
  cases bs with
  | error e => simp [Except.map] at hbuf
  | ok bs =>
    obtain rfl := Except.ok.inj hbuf
    have hparts := (Net.asyncRecv_eq_ok hpend).1
    rw [hbytes] at hparts
    subst hparts
    have hmsgs := Net.send_eq_ok hsend
    have hlen : (bytesOf (zeros sent.length)).length = (bytesOf sent).length := by simp [zeros]
    have hbs := Net.wait_eq_ok (l := ⟨msgs, arrived⟩) hmsgs 0 (Net.tiles_parts _ _ _)
      (Net.tiles_parts _ _ _) hlen rfl hwait
    rw [hbs]
    exact blocksOf_bytesOf sent

/-- A party that expects as many blocks as were sent does not block once all parts are there. -/
theorem waitBlocks_ne_none {ctx ctx' : Ctx F} {sent : List Block} {link : Net.Link}
    {pending : List (ℕ × ℕ)} {n : ℕ} (hsend : ctx.send sent = .ok link.sent)
    (hpend : ctx'.asyncRecv (n * blockBytes) = .ok pending) (hn : sent.length = n)
    (hget : ∀ i, link.get i = link.sent[i]?) : waitBlocks link pending n ≠ none := by
  subst hn
  have hbytes : sent.length * blockBytes = (bytesOf sent).length := by
    rw [length_bytesOf, blockBytes, Nat.mul_comm]
  obtain ⟨hparts, hpos⟩ := Net.asyncRecv_eq_ok hpend
  rw [hbytes] at hparts
  subst hparts
  rw [waitBlocks, ne_eq, Option.map_eq_none_iff]
  exact Net.wait_ne_none (Net.send_eq_ok hsend) hget 0 _ (Net.tiles_parts _ _ _)
    (Net.tiles_parts _ _ _) hpos

theorem ne_nil_of_send {ctx : Ctx F} {buf : List Block} {msgs : List (List Byte)}
    (h : ctx.send buf = .ok msgs) : buf ≠ [] := by
  rintro rfl
  have hpart : (0, 0) ∈ Net.parts ctx.workers.multiThread ctx.channels 0 := by
    simp [Net.parts, Net.shouldSplit, Net.minParallelBytes]
  exact (Net.mapM_dispatch_eq_ok h).2 _ hpart rfl

end Tables

section Encodings

/-- The shape that a party resolves for its set. -/
def System.Shape (sys : System F) (args : Args F) (columns bandWidth : ℕ) : Prop :=
  EncoderUses sys.env args.rbCfg args.set.length columns bandWidth

/-- A table that is sent has the resolved size, and its flag says whether the bands of the
set are independent. -/
theorem encode_spec {party : ℕ} {args : Args F} {ctx : Ctx F} (hctx : sys.Runs party args ctx)
    {columns bandWidth : ℕ} (hshape : sys.Shape args columns bandWidth)
    {rows buf₀ buf : List Block} {encoded : Bool} {msgs : List (List Byte)}
    (hbuf₀ : buf₀.length = ctx.tableSize * ctx.rowSize)
    (henc : rbEncodeFlat ctx.workers.env ctx.set rows ctx.rowSize buf₀ ctx.rb = .ok (encoded, buf))
    (hsend : ctx.send buf = .ok msgs) :
    args.set ≠ [] ∧ ctx.tableSize = columns ∧ buf.length = columns * ctx.rowSize ∧
      (encoded = true ↔ LinearSystem.Independent
        (args.set.map (keyVec sys.env args.rbCfg columns bandWidth))) := by
  obtain ⟨info, hinfo, rfl, rfl⟩ := hshape
  obtain ⟨info', hinfo', htable⟩ := hctx.rbInfoOf_eq
  obtain rfl : info' = info := Except.ok.inj (hinfo'.symm.trans hinfo)
  rw [hctx.env_eq, hctx.set_eq, hctx.rb_eq] at henc
  have hne : args.set ≠ [] := by
    rintro hnil
    rw [hnil] at henc
    obtain ⟨-, rfl⟩ := Prod.mk.inj (Except.ok.inj henc)
    exact ne_nil_of_send hsend rfl
  refine ⟨hne, htable.symm, ?_⟩
  rcases rbEncodeFlat_cases hinfo hne henc with ⟨rfl, hdep, rfl⟩ | ⟨rfl, hind, hlen⟩
  · exact ⟨by rw [hbuf₀, htable], by simpa using hdep⟩
  · exact ⟨hlen, by simpa using hind⟩

theorem recv_buf {r : RecvWaiting F} {msgs : List (List Byte)} {columns bandWidth : ℕ}
    (hshape : sys.Shape sys.recvArgs columns bandWidth) (h : sys.recvStart = .ok (r, msgs)) :
    r.buf.length = columns * r.ctx.rowSize ∧ (r.encoded = true ↔ LinearSystem.Independent
      (sys.recvArgs.set.map (keyVec sys.env sys.recvArgs.rbCfg columns bandWidth))) := by
  obtain ⟨hR, hr⟩ := recvStart_spec h
  exact (encode_spec hR hshape List.length_replicate hr.encode hr.msgs).2.2

theorem sendWait_eq_ok {t : SendWaiting F} {link : Net.Link} {d : SendDone F}
    {msgs : List (List Byte)} (h : sys.sendWait t link = some (.ok (d, msgs))) :
    ∃ buf, waitBlocks link t.pending (t.ctx.tableSize * t.ctx.rowSize) = some (.ok buf) ∧
      sendAfterWait sys.prims sys.encapSeeds t buf = .ok (d, msgs) := by
  obtain ⟨buf, hwait, hd⟩ := Option.map_eq_some_iff.mp h
  obtain ⟨buf', rfl, hd⟩ := bind_eq_ok.mp hd
  exact ⟨buf', hwait, hd⟩

theorem recvWait_eq_ok {r : RecvWaiting F} {link : Net.Link} {rows : List Block} {hits : ℕ}
    (h : sys.recvWait r link = some (.ok (rows, hits))) :
    ∃ buf, waitBlocks link r.pending r.buf.length = some (.ok buf) ∧
      recvAfterWait sys.prims r buf = .ok (rows, hits) := by
  obtain ⟨buf, hwait, hr⟩ := Option.map_eq_some_iff.mp h
  obtain ⟨buf', rfl, hr⟩ := bind_eq_ok.mp hr
  exact ⟨buf', hwait, hr⟩

/-- The second wait of the sender leaves an encoding over the buffer that has arrived. -/
theorem sendWait_encode {t : SendWaiting F} {link : Net.Link} {d : SendDone F}
    {msgs : List (List Byte)} (h : sys.sendStart = .ok t)
    (hd : sys.sendWait t link = some (.ok (d, msgs))) :
    d.ctx = t.ctx ∧ sys.Runs 1 sys.sendArgs d.ctx ∧ d.ctx.send d.buf = .ok msgs ∧
      ∃ buf, buf.length = d.ctx.tableSize * d.ctx.rowSize ∧
        rbEncodeFlat d.ctx.workers.env d.ctx.set d.rows d.ctx.rowSize buf d.ctx.rb =
          .ok (d.encoded, d.buf) := by
  obtain ⟨hT, -, -⟩ := sendStart_spec h
  obtain ⟨buf, hwait, hafter⟩ := sendWait_eq_ok hd
  obtain ⟨hctx, -, henc, hmsgs⟩ := sendAfterWait_encode hafter
  refine ⟨hctx, hctx ▸ hT, hmsgs, buf, ?_, henc⟩
  rw [length_of_waitBlocks hwait, hctx]

theorem send_buf {t : SendWaiting F} {link : Net.Link} {d : SendDone F} {msgs : List (List Byte)}
    {columns bandWidth : ℕ} (hshape : sys.Shape sys.sendArgs columns bandWidth)
    (h : sys.sendStart = .ok t) (hd : sys.sendWait t link = some (.ok (d, msgs))) :
    d.ctx = t.ctx ∧ d.ctx.send d.buf = .ok msgs ∧ d.buf.length = columns * t.ctx.rowSize ∧
      (d.encoded = true ↔ LinearSystem.Independent
        (sys.sendArgs.set.map (keyVec sys.env sys.sendArgs.rbCfg columns bandWidth))) := by
  obtain ⟨hctx, hD, hmsgs, buf, hbuf, henc⟩ := sendWait_encode h hd
  have hspec := encode_spec hD hshape hbuf henc hmsgs
  rw [hctx] at hspec
  exact ⟨hctx, hmsgs, hspec.2.2⟩

end Encodings

/-- Both parties resolve the same shape, as encoders and as decoders, under the same seeds. -/
structure System.Compatible (sys : System F) (columns bandWidth : ℕ) : Prop where
  startSeed : sys.sendArgs.rbCfg.startSeed = sys.recvArgs.rbCfg.startSeed
  maskSeed : sys.sendArgs.rbCfg.maskSeed = sys.recvArgs.rbCfg.maskSeed
  recv_encodes : sys.Shape sys.recvArgs columns bandWidth
  recv_decodes : DecoderUses sys.recvArgs.rbCfg sys.recvArgs.set.length columns bandWidth
  send_encodes : sys.Shape sys.sendArgs columns bandWidth
  send_decodes : DecoderUses sys.sendArgs.rbCfg sys.sendArgs.set.length columns bandWidth

section Delivery
variable {columns bandWidth : ℕ}

theorem tableSize_eq {party : ℕ} {args : Args F} {ctx : Ctx F} (hctx : sys.Runs party args ctx)
    (hshape : sys.Shape args columns bandWidth) : ctx.tableSize = columns := by
  obtain ⟨info, hinfo, rfl, -⟩ := hshape
  obtain ⟨info', hinfo', htable⟩ := hctx.rbInfoOf_eq
  rw [← htable, Except.ok.inj (hinfo'.symm.trans hinfo)]

/-- The rows of both parties have one width. -/
theorem rowSize_eq {ctx ctx' : Ctx F} (h : sys.Runs 0 sys.recvArgs ctx)
    (h' : sys.Runs 1 sys.sendArgs ctx') : ctx'.rowSize = ctx.rowSize :=
  h'.rowSize_eq.trans h.rowSize_eq.symm

/-- In a finished run each party worked on the table of the other. -/
theorem Inv.delivered (hi : Inv sys s) (hc : sys.Compatible columns bandWidth)
    {r : RecvWaiting F} {rows : List Block} {hits : ℕ} {d : SendDone F}
    (hr : s.recv = .done r rows hits) (hd : s.send = .done d) :
    sys.recvStart = .ok (r, s.okvs1.sent) ∧ ∃ t, sys.sendStart = .ok t ∧
      sendAfterWait sys.prims sys.encapSeeds t r.buf = .ok (d, s.okvs2.sent) ∧
      recvAfterWait sys.prims r d.buf = .ok (rows, hits) := by
  obtain ⟨-, arrived₂, hwait₂⟩ := hi.recv_done r rows hits hr
  have hrecv := hi.recv_sent r (by rw [hr]; rfl)
  obtain ⟨-, t, arrived₁, hsend, hwait₁⟩ := hi.send_done d hd
  obtain ⟨hR, hrspec⟩ := recvStart_spec hrecv
  obtain ⟨hT, hpend, -⟩ := sendStart_spec hsend
  obtain ⟨hctx, hmsgs, hdlen, -⟩ := send_buf hc.send_encodes hsend hwait₁
  have hrlen := (recv_buf hc.recv_encodes hrecv).1
  obtain ⟨buf₁, hbuf₁, hafter₁⟩ := sendWait_eq_ok hwait₁
  obtain ⟨buf₂, hbuf₂, hafter₂⟩ := recvWait_eq_ok hwait₂
  have htable := waitBlocks_eq_ok hrspec.msgs hpend
    (by rw [hrlen, tableSize_eq hT hc.send_encodes, rowSize_eq hR hT]) hbuf₁
  have htable' := waitBlocks_eq_ok hmsgs hrspec.pending
    (by rw [hdlen, hrlen, rowSize_eq hR hT]) hbuf₂
  subst htable htable'
  exact ⟨hrecv, t, hsend, hafter₁, hafter₂⟩

/-- `Send` does not block for ever on a table that was sent. -/
theorem sendWait_ne_none (hc : sys.Compatible columns bandWidth) {r : RecvWaiting F}
    {t : SendWaiting F} {link : Net.Link} (hrecv : sys.recvStart = .ok (r, link.sent))
    (hsend : sys.sendStart = .ok t) (hstuck : ∀ i, link.deliver i = none) :
    sys.sendWait t link ≠ none := by
  obtain ⟨hR, hrspec⟩ := recvStart_spec hrecv
  obtain ⟨hT, hpend, -⟩ := sendStart_spec hsend
  rw [System.sendWait, ne_eq, Option.map_eq_none_iff]
  refine waitBlocks_ne_none hrspec.msgs hpend ?_ (Net.Link.get_eq_of_stuck hstuck)
  rw [(recv_buf hc.recv_encodes hrecv).1, tableSize_eq hT hc.send_encodes, rowSize_eq hR hT]

/-- `Recv` does not block for ever on a table that was sent. -/
theorem recvWait_ne_none (hc : sys.Compatible columns bandWidth) {r : RecvWaiting F}
    {t : SendWaiting F} {d : SendDone F} {msgs : List (List Byte)} {link link' : Net.Link}
    (hrecv : sys.recvStart = .ok (r, msgs)) (hsend : sys.sendStart = .ok t)
    (hd : sys.sendWait t link' = some (.ok (d, link.sent)))
    (hstuck : ∀ i, link.deliver i = none) : sys.recvWait r link ≠ none := by
  obtain ⟨hR, hrspec⟩ := recvStart_spec hrecv
  obtain ⟨hT, -, -⟩ := sendStart_spec hsend
  obtain ⟨-, hmsgs, hdlen, -⟩ := send_buf hc.send_encodes hsend hd
  rw [System.recvWait, ne_eq, Option.map_eq_none_iff]
  refine waitBlocks_ne_none hmsgs hrspec.pending ?_ (Net.Link.get_eq_of_stuck hstuck)
  rw [hdlen, (recv_buf hc.recv_encodes hrecv).1, rowSize_eq hR hT]

/-- A run that cannot go on, and in which nobody threw, is finished. -/
theorem Inv.finished (hi : Inv sys s) (hc : sys.Compatible columns bandWidth)
    (hstuck : ∀ a, sys.step s a = none) (hrecv : ∀ e r, s.recv ≠ .failed e r)
    (hsend : ∀ e, s.send ≠ .failed e) :
    ∃ r rows hits d, s.recv = .done r rows hits ∧ s.send = .done d := by
  have hstuck₁ : ∀ i, s.okvs1.deliver i = none := by
    intro i
    simpa [System.step] using hstuck (.deliver1 i)
  have hstuck₂ : ∀ i, s.okvs2.deliver i = none := by
    intro i
    simpa [System.step] using hstuck (.deliver2 i)
  have hstarted : ∃ r, sys.recvStart = .ok (r, s.okvs1.sent) := by
    cases hr : s.recv with
    | idle => simpa [System.step, hr] using hstuck .recvStart
    | waiting r => exact ⟨r, hi.recv_sent r (by rw [hr]; rfl)⟩
    | done r rows hits => exact ⟨r, hi.recv_sent r (by rw [hr]; rfl)⟩
    | failed e r => exact absurd hr (hrecv e r)
  obtain ⟨r, hr⟩ := hstarted
  cases hs : s.send with
  | idle => simpa [System.step, hs] using hstuck .sendStart
  | failed e => exact absurd hs (hsend e)
  | waiting t =>
    have hblock : sys.sendWait t s.okvs1 = none := by
      simpa [System.step, hs] using hstuck .sendWait
    exact absurd hblock (sendWait_ne_none hc hr (hi.send_waiting t hs).2 hstuck₁)
  | done d =>
    obtain ⟨-, t, arrived, hstart, hd⟩ := hi.send_done d hs
    cases hr' : s.recv with
    | idle => simpa [System.step, hr'] using hstuck .recvStart
    | failed e r' => exact absurd hr' (hrecv e r')
    | waiting r' =>
      have hblock : sys.recvWait r' s.okvs2 = none := by
        simpa [System.step, hr'] using hstuck .recvWait
      exact absurd hblock (recvWait_ne_none hc (hi.recv_sent r' (by rw [hr']; rfl)) hstart hd hstuck₂)
    | done r' rows hits => exact ⟨r', rows, hits, d, rfl, rfl⟩

end Delivery

section Termination

/-- What `Recv` still has to do: its two phases and the messages it will send. -/
def System.recvRank (sys : System F) : RecvState F → ℕ
  | .idle => 2 + (match sys.recvStart with
    | .ok (_, msgs) => msgs.length
    | .error _ => 0)
  | .waiting _ => 1
  | .done _ _ _ => 0
  | .failed _ _ => 0

/-- What `Send` still has to do; it sends at most one message for each channel. -/
def System.sendRank (sys : System F) : SendState F → ℕ
  | .idle => 2 + (match sys.sendStart with
    | .ok t => max 1 t.ctx.channels
    | .error _ => 0)
  | .waiting t => 1 + max 1 t.ctx.channels
  | .done _ => 0
  | .failed _ => 0

def System.rank (sys : System F) (s : State F) : ℕ :=
  sys.recvRank s.recv + sys.sendRank s.send + s.okvs1.pending + s.okvs2.pending

theorem pending_mk_empty (msgs : List (List Byte)) :
    Net.Link.pending ⟨msgs, ∅⟩ = msgs.length := by
  simp [Net.Link.pending]

omit [Double F] in
theorem length_send_le {ctx : Ctx F} {buf : List Block} {msgs : List (List Byte)}
    (h : ctx.send buf = .ok msgs) : msgs.length ≤ max 1 ctx.channels := by
  rw [Net.send_eq_ok h, List.length_map]
  exact Net.length_parts_le _ _ _

/-- Every step lowers the rank. -/
theorem rank_step {a : Action} (h : sys.step s a = some s') : sys.rank s' < sys.rank s := by
  rcases System.step_cases h with ⟨hidle, rfl⟩ | ⟨hidle, rfl⟩ | ⟨i, l, hl, rfl⟩ | ⟨i, l, hl, rfl⟩ |
    ⟨t, out, ht, hout, rfl⟩ | ⟨r, out, hr, hout, rfl⟩
  · cases hstart : sys.recvStart with
    | error e =>
      simp only [System.rank, State.recvStarted, System.recvRank, hidle, hstart]
      omega
    | ok out =>
      simp only [System.rank, State.recvStarted, System.recvRank, hidle, hstart, pending_mk_empty]
      omega
  · cases hstart : sys.sendStart with
    | error e =>
      simp only [System.rank, State.sendStarted, System.sendRank, hidle, hstart]
      omega
    | ok t =>
      simp only [System.rank, State.sendStarted, System.sendRank, hidle, hstart]
      omega
  · have hlt := Net.Link.pending_deliver hl
    simp only [System.rank]
    omega
  · have hlt := Net.Link.pending_deliver hl
    simp only [System.rank]
    omega
  · cases out with
    | error e =>
      simp only [System.rank, State.sendEnded, System.sendRank, ht]
      omega
    | ok out =>
      obtain ⟨d, msgs⟩ := out
      obtain ⟨buf, -, hafter⟩ := sendWait_eq_ok hout
      obtain ⟨hctx, -, -, hmsgs⟩ := sendAfterWait_encode hafter
      have hle := length_send_le hmsgs
      rw [hctx] at hle
      simp only [System.rank, State.sendEnded, System.sendRank, ht, pending_mk_empty]
      omega
  · cases out with
    | error e =>
      simp only [System.rank, State.recvEnded, System.recvRank, hr]
      omega
    | ok out =>
      simp only [System.rank, State.recvEnded, System.recvRank, hr]
      omega

/-- No run is longer than the rank of the initial state. -/
theorem System.Reaches.length_le {acts : List Action} (h : sys.Reaches acts s) :
    acts.length ≤ sys.rank (State.init F) := by
  have hle := length_add_rank_le (p := fun _ => True) (fun _ _ _ _ _ => trivial)
    (fun _ _ _ _ hstep => rank_step hstep) trivial h
  omega

end Termination

end PqPsi.Protocol
