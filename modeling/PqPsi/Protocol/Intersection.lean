import PqPsi.Protocol.Progress

/-!
# The hit count of a run

A row of the receiver whose item the sender holds travels through both tables
and comes back as an encapsulation under its own key. The count that `Recv`
writes is the size of the intersection and the number of other rows that pass
the check by chance.
-/
namespace PqPsi.Protocol
open Lib Lib.Buffers Lib.Exceptions Lib.Runs Okvs

variable {F : Type} [Double F] {sys : System F}

/-- Whether row `i` passes the KEM check under secret key `i`. -/
def RecvWaiting.hit (prims : Primitives) (r : RecvWaiting F) (rows : List Block) (i : ℕ) : Bool :=
  passed (hitRow prims r.ctx.kem r.ctx.rowSize (r.sk.getD i default) (r.ctx.rowAt rows i))

section Rows

/-- What lines up between a receiver and a sender. -/
structure Paired (ctx ctx' : Ctx F) : Prop where
  env : ctx'.workers.env = ctx.workers.env
  rowSize : ctx'.rowSize = ctx.rowSize
  kem : ctx'.kem = ctx.kem
  bobPi : ctx'.bobPi = ctx.bobPi
  peerPi : ctx'.peerPi = ctx.ownPi
  ownPi : ctx'.ownPi = ctx.peerPi

theorem paired {ctx ctx' : Ctx F} (h : sys.Runs 0 sys.recvArgs ctx)
    (h' : sys.Runs 1 sys.sendArgs ctx') : Paired ctx ctx' where
  env := h'.env_eq.trans h.env_eq.symm
  rowSize := h'.rowSize_eq.trans h.rowSize_eq.symm
  kem := h'.kem_eq.trans h.kem_eq.symm
  bobPi := h'.bobPi_eq.trans h.bobPi_eq.symm
  peerPi := Except.ok.inj (h'.makePi_peer.symm.trans h.makePi_own)
  ownPi := Except.ok.inj (h'.makePi_own.symm.trans h.makePi_peer)

/-- A row that the sender finds for a shared item is the public key of the receiver's row. -/
theorem unpermute_shared {pi : Perm}
    (hpi : ∀ x y, pi.encryptBytes x = .ok y → pi.decryptBytes y = .ok x)
    {mask row permuted : List Block} (hmask : mask.length = permuted.length)
    (hperm : permute pi row = .ok permuted) :
    unpermute pi (xorMask mask (xorMask mask permuted)) = .ok row := by
  rw [xorMask_xorMask hmask]
  exact unpermute_permute hpi hperm

variable {columns bandWidth : ℕ} {r : RecvWaiting F} {t : SendWaiting F} {d : SendDone F}
  {msgs msgs' : List (List Byte)} {rows : List Block} {hits : ℕ}

omit [Double F] in
theorem maskOf_shared {ctx ctx' : Ctx F} (hp : Paired ctx ctx') {i j : ℕ}
    (hkey : ctx'.set.getD j 0 = ctx.set.getD i 0) : ctx'.maskOf j = ctx.maskOf i := by
  rw [Ctx.maskOf, Ctx.maskOf, hp.env, hp.rowSize, hkey]

/-- The sender encapsulates under the receiver's key: first pass. -/
theorem encap_shared (hinv : sys.prims.PermInverts) (hc : sys.Compatible columns bandWidth)
    (hrecv : sys.recvStart = .ok (r, msgs)) (hsend : sys.sendStart = .ok t)
    (hd : sendAfterWait sys.prims sys.encapSeeds t r.buf = .ok (d, msgs'))
    (henc : r.encoded = true) {i j : ℕ} (hi : i < sys.recvArgs.set.length)
    (hj : j < sys.sendArgs.set.length)
    (hkey : sys.sendArgs.set[j] = sys.recvArgs.set[i]) :
    d.rows.length = sys.sendArgs.set.length * r.ctx.rowSize ∧ ∃ pkRow ctRow out,
      genRow sys.prims r.ctx.kem r.ctx.rowSize sys.keySeeds i = .ok (r.sk.getD i default, pkRow) ∧
      encapRow sys.prims r.ctx.kem r.ctx.rowSize (sys.encapSeeds j) j pkRow = .ok ctRow ∧
      (if r.ctx.bobPi then permute r.ctx.peerPi ctRow else .ok ctRow) = .ok out ∧
      out.length = r.ctx.rowSize ∧ r.ctx.rowAt d.rows j = xorMask (r.ctx.maskOf i) out := by
  obtain ⟨hR, hrspec⟩ := recvStart_spec hrecv
  obtain ⟨hT, -, hmasks⟩ := sendStart_spec hsend
  have hp := paired hR hT
  have hpos : 0 < r.ctx.rowSize := hR.rowSize_eq ▸ kemRowBlocks_pos _
  obtain ⟨-, ⟨decoded, hdec⟩, -, -⟩ := sendAfterWait_encode hd
  have henc₁ := hrspec.encode
  have hlen₁ := hrspec.length_rows
  rw [hR.env_eq, hR.set_eq, hR.rb_eq, henc] at henc₁
  rw [hR.set_eq] at hlen₁
  have hdec₁ := hdec
  rw [hp.rowSize, hT.env_eq, hT.set_eq, hT.rb_eq] at hdec₁
  obtain ⟨hdlen, hshared⟩ := rbDecodeFlat_getElem (List.ne_nil_of_length_pos (by omega)) hpos hlen₁
    hc.startSeed hc.maskSeed hc.recv_encodes hc.send_decodes henc₁ hdec₁
  obtain ⟨hrows, hsrows⟩ := sendAfterWait_rows (hp.rowSize ▸ hpos) hmasks hdec
    (by rw [hT.set_eq, hp.rowSize, hdlen]) hd
  obtain ⟨pkRow, permuted, hgen, hperm, hplen, hrow⟩ := hrspec.rows i (hR.set_eq ▸ hi)
  obtain ⟨pkRow', ctRow, out, hun, hct, hout, holen, hdrow⟩ := hsrows j (hT.set_eq ▸ hj)
  -- the sender decodes the masked row of the shared item
  have hfound : t.ctx.rowAt decoded j = r.ctx.rowAt r.rows i := by
    rw [Ctx.rowAt, Ctx.rowAt, hp.rowSize]
    exact hshared i j hi hj hkey
  have hmask : t.ctx.maskOf j = r.ctx.maskOf i := by
    apply maskOf_shared hp
    rw [hT.set_eq, hR.set_eq, List.getD_eq_getElem _ _ hj, List.getD_eq_getElem _ _ hi, hkey]
  have hpk : unpermute t.ctx.peerPi (xorMask (t.ctx.maskOf j) (t.ctx.rowAt decoded j)) =
      .ok pkRow := by
    rw [hmask, hfound, hrow, hp.peerPi]
    exact unpermute_shared (fun x y => hinv _ _ _ x y hR.makePi_own) (by simp [hplen]) hperm
  obtain rfl : pkRow' = pkRow := Except.ok.inj (hun.symm.trans hpk)
  refine ⟨by rw [hrows, hT.set_eq, hp.rowSize], pkRow', ctRow, out, hgen, ?_, ?_, ?_, ?_⟩
  · rw [← hp.kem, ← hp.rowSize]
    exact hct
  · rw [← hp.bobPi, ← hp.ownPi]
    exact hout
  · rw [holen, hp.rowSize]
  · rw [← hmask, ← hdrow, Ctx.rowAt, Ctx.rowAt, hp.rowSize]

/-- The receiver finds the encapsulation under its own key: second pass. -/
theorem hit_of_shared (hinv : sys.prims.PermInverts)
    (hkem : sys.prims.KemCorrect (sys.kem.getD .obfMlKem)) (hc : sys.Compatible columns bandWidth)
    (hrecv : sys.recvStart = .ok (r, msgs)) (hsend : sys.sendStart = .ok t)
    (hd : sendAfterWait sys.prims sys.encapSeeds t r.buf = .ok (d, msgs'))
    (hr : recvAfterWait sys.prims r d.buf = .ok (rows, hits))
    (henc : r.encoded = true) (henc' : d.encoded = true) {i j : ℕ}
    (hi : i < sys.recvArgs.set.length) (hj : j < sys.sendArgs.set.length)
    (hkey : sys.sendArgs.set[j] = sys.recvArgs.set[i]) : r.hit sys.prims rows i = true := by
  obtain ⟨hR, hrspec⟩ := recvStart_spec hrecv
  obtain ⟨hT, -, -⟩ := sendStart_spec hsend
  have hp := paired hR hT
  have hpos : 0 < r.ctx.rowSize := hR.rowSize_eq ▸ kemRowBlocks_pos _
  obtain ⟨hlen₂, pkRow, ctRow, out, hgen, hct, hout, holen, hdrow⟩ :=
    encap_shared hinv hc hrecv hsend hd henc hi hj hkey
  obtain ⟨hctx, -, henc₂, -⟩ := sendAfterWait_encode hd
  rw [hctx, hp.rowSize, hT.env_eq, hT.set_eq, hT.rb_eq, henc'] at henc₂
  obtain ⟨⟨decoded, hdec⟩, -⟩ := recvAfterWait_hits hr
  have hdec₂ := hdec
  rw [hR.env_eq, hR.set_eq, hR.rb_eq] at hdec₂
  obtain ⟨hdlen, hshared⟩ := rbDecodeFlat_getElem (List.ne_nil_of_length_pos (by omega)) hpos hlen₂
    hc.startSeed.symm hc.maskSeed.symm hc.send_encodes hc.recv_decodes henc₂ hdec₂
  have hrow := recvAfterWait_spec hrspec.masks hdec (by rw [hR.set_eq, hdlen]) hr i (hR.set_eq ▸ hi)
  have hfound : r.ctx.rowAt decoded i = xorMask (r.ctx.maskOf i) out :=
    (hshared j i hj hi hkey.symm).trans hdrow
  -- unmasking and unpermuting give the row of the encapsulation
  have hback : r.ctx.rowAt rows i = ctRow := by
    rw [hfound] at hrow
    by_cases hbob : r.ctx.bobPi
    · rw [if_pos hbob] at hrow hout
      rw [unpermute_shared (fun x y => hinv _ _ _ x y hR.makePi_peer) (by simp [holen]) hout] at hrow
      exact (Except.ok.inj hrow).symm
    · rw [if_neg hbob] at hrow hout
      rw [xorMask_xorMask (by simp [holen]), ← Except.ok.inj hout] at hrow
      exact (Except.ok.inj hrow).symm
  rw [RecvWaiting.hit, hback, hitRow_encapRow (hR.kem_eq ▸ hkem) (hR.kem_eq ▸ hR.rowSize_eq) hgen hct]
  rfl

end Rows

section Count

/-- A count over indices is the number of those that pass. -/
theorem countP_range (n : ℕ) (p : ℕ → Bool) :
    (List.range n).countP p = (Finset.univ.filter fun i : Fin n => p i = true).card := by
  rw [Finset.card_filter, Fin.sum_univ_eq_sum_range (fun i => if p i = true then 1 else 0) n]
  induction n with
  | zero => rfl
  | succ n ih =>
    rw [List.range_succ, List.countP_append, ih, Finset.sum_range_succ, List.countP_singleton]

/-- The indices that pass are those in the intersection and those that pass by chance. -/
theorem card_filter_add {n : ℕ} {shared : Fin n → Prop} [DecidablePred shared] {p : ℕ → Bool}
    (h : ∀ i, shared i → p i = true) :
    (Finset.univ.filter fun i : Fin n => p i = true).card =
      (Finset.univ.filter shared).card +
        (Finset.univ.filter fun i : Fin n => ¬ shared i ∧ p i = true).card := by
  rw [← Finset.card_union_of_disjoint]
  · congr 1
    ext i
    have hi := h i
    simp only [Finset.mem_filter, Finset.mem_univ, true_and, Finset.mem_union]
    tauto
  · rw [Finset.disjoint_filter]
    intro i _ hi hne
    exact hne.1 hi

end Count

/-- A run in which no party throws ends with a count, whatever the order in which the messages
arrive. When both encodings succeeded, every row whose item the sender holds is a hit, and the
count is the size of the intersection and the number of other rows that pass the check. -/
theorem recv_counts_intersection {columns bandWidth : ℕ} (hc : sys.Compatible columns bandWidth)
    (hinv : sys.prims.PermInverts) (hkem : sys.prims.KemCorrect (sys.kem.getD .obfMlKem))
    {acts : List Action} {s : State F} (hs : sys.Reaches acts s) :
    ((∀ a, sys.step s a = none) → (∀ e r, s.recv ≠ .failed e r) → (∀ e, s.send ≠ .failed e) →
      ∃ r rows hits d, s.recv = .done r rows hits ∧ s.send = .done d) ∧
    ∀ r rows hits d, s.recv = .done r rows hits → s.send = .done d →
      r.encoded = true → d.encoded = true →
      (∀ i : Fin sys.recvArgs.set.length, sys.recvArgs.set[i] ∈ sys.sendArgs.set →
        r.hit sys.prims rows i = true) ∧
      hits = (Finset.univ.filter fun i : Fin sys.recvArgs.set.length =>
          sys.recvArgs.set[i] ∈ sys.sendArgs.set).card +
        (Finset.univ.filter fun i : Fin sys.recvArgs.set.length =>
          sys.recvArgs.set[i] ∉ sys.sendArgs.set ∧ r.hit sys.prims rows i = true).card := by
  refine ⟨hs.inv.finished hc, ?_⟩
  intro r rows hits d hr hd henc henc'
  obtain ⟨hrecv, t, hsend, hafter₁, hafter₂⟩ := hs.inv.delivered hc hr hd
  have hshared : ∀ i : Fin sys.recvArgs.set.length, sys.recvArgs.set[i] ∈ sys.sendArgs.set →
      r.hit sys.prims rows i = true := by
    intro i hmem
    obtain ⟨j, hj, hkey⟩ := List.mem_iff_getElem.mp hmem
    exact hit_of_shared hinv hkem hc hrecv hsend hafter₁ hafter₂ henc henc' i.isLt hj hkey
  refine ⟨hshared, ?_⟩
  obtain ⟨hR, hrspec⟩ := recvStart_spec hrecv
  obtain ⟨-, hcount⟩ := recvAfterWait_hits hafter₂
  rw [hcount, hrspec.length_sk, hR.set_eq, countP_range]
  exact card_filter_add (p := r.hit sys.prims rows) hshared

section Session

/-- A function given by a table, constant outside of it. -/
def tabulate {α β : Type} [DecidableEq α] (table : List (α × β)) (fallback : β) (a : α) : β :=
  (table.lookup a).getD fallback

/-- What holds of the entries and of the fallback holds of every value. -/
theorem tabulate_induction {α β : Type} [DecidableEq α] {table : List (α × β)} {fallback : β}
    {P : β → Prop} (h : ∀ b ∈ fallback :: table.map Prod.snd, P b) (a : α) :
    P (tabulate table fallback a) := by
  rw [tabulate]
  cases hlook : table.lookup a with
  | none => exact h _ List.mem_cons_self
  | some b =>
    obtain ⟨l₁, l₂, rfl, -⟩ := List.lookup_eq_some_iff.mp hlook
    exact h b (by simp)

/-- A permutation that exchanges the two members of every pair. -/
def exchange (pairs : List (List Block × List Block)) : Equiv.Perm (List Byte) :=
  (pairs.map fun p => Equiv.swap (bytesOf p.1) (bytesOf p.2)).prod

theorem length_exchange {pairs : List (List Block × List Block)}
    (h : ∀ p ∈ pairs, p.1.length = p.2.length) (x : List Byte) :
    (exchange pairs x).length = x.length := by
  induction pairs with
  | nil => rfl
  | cons p pairs ih =>
    have hp : (bytesOf p.1).length = (bytesOf p.2).length := by
      rw [length_bytesOf, length_bytesOf, h p List.mem_cons_self]
    have hrest := ih fun q hq => h q (List.mem_cons_of_mem _ hq)
    change (Equiv.swap (bytesOf p.1) (bytesOf p.2) (exchange pairs x)).length = _
    rw [← hrest]
    generalize exchange pairs x = y
    rw [Equiv.swap_apply_def]
    split_ifs with h₁ h₂
    · rw [h₁, hp]
    · rw [h₂, hp]
    · rfl

/-- The key pairs of the seeds in the session: representative and secret key. -/
def sessionKeys : List (List Byte × List Byte × List Byte) :=
  [(List.replicate 32 16#8,
      bytesOf [0xa70d01a1393da72b2c126fcbde212245#128, 0x98964dd6b54404499b03342ff84f765d#128],
      bytesOf [0x4cf82ff3961da18abf68793a3f29901b#128, 0x7670aa3497ee5438d075cd89165e8c54#128]),
    (List.replicate 32 17#8,
      bytesOf [0xde9b781d101a11cc45a8ccd360c71ddd#128, 0xe3291b8dd0f6a0fdb4846514787bfa07#128],
      bytesOf [0x754e268110bb5bc7fd87d5cda8473cb5#128, 0xa1c717892ec9ece3e8192a1fc80f7210#128]),
    (List.replicate 32 32#8,
      bytesOf [0xc1d9d3802cc81141568d1fbda74f410b#128, 0x86244ac22b6b857ce999e7a181535797#128],
      bytesOf [0x33740e9ebc46acfa95fdebef5b5f12b2#128, 0xe24e79e4c4e49aed4def3e0c3074f40d#128])]

/-- Elligator points of the representatives in the session. -/
def sessionPoints : List (List Byte × List Byte) :=
  [(bytesOf [0xde9b781d101a11cc45a8ccd360c71ddd#128, 0xe3291b8dd0f6a0fdb4846514787bfa07#128],
      bytesOf [0xc6141a630052091c67993f84a10c3b42#128, 0x3f5f8103dd3786d4d6999bd6e29b6736#128]),
    (bytesOf [0xc35d082410f4fecf6a0df97e5e6dc4dd#128, 0xd6a92068641461c38eab31c81757256b#128],
      bytesOf [0xad8eef9c66c8e3fb22d32b6bd80c22b5#128, 0x78aa74c05847dc2122d0620dbb0dfa71#128]),
    (bytesOf [0xc1d9d3802cc81141568d1fbda74f410b#128, 0x86244ac22b6b857ce999e7a181535797#128],
      bytesOf [0x7f71ce897157b994cde9a2e6a15e3bbb#128, 0x04887bf84873556705696da24d002381#128]),
    (bytesOf [0x34a3a425a0b26327d1f6bb1989757d87#128, 0xf5e572fe6063383b92f32acbd7fcd425#128],
      bytesOf [0xccefbde28cfb4c7195fbaa1ed9a46e71#128, 0x238b4f70c13637a72aa8e33a76334cb6#128]),
    (bytesOf [0xa70d01a1393da72b2c126fcbde212245#128, 0x98964dd6b54404499b03342ff84f765d#128],
      bytesOf [0x78627a669f834b3310a7182cb2eb5b82#128, 0x1baadd4799ee717bad0e142b9578630d#128])]

/-- X25519 on the secret keys and points of the session. -/
def sessionShared : List ((List Byte × List Byte) × List Byte) :=
  [((bytesOf [0x33740e9ebc46acfa95fdebef5b5f12b2#128, 0xe24e79e4c4e49aed4def3e0c3074f40d#128],
      bytesOf [0xc6141a630052091c67993f84a10c3b42#128, 0x3f5f8103dd3786d4d6999bd6e29b6736#128]),
      bytesOf [0xa96c54486bd8884e36c0be92a3769188#128, 0x0d1beb75eccd8fa316dc514b8c0bb042#128]),
    ((bytesOf [0x4cf82ff3961da18abf68793a3f29901b#128, 0x7670aa3497ee5438d075cd89165e8c54#128],
      bytesOf [0xad8eef9c66c8e3fb22d32b6bd80c22b5#128, 0x78aa74c05847dc2122d0620dbb0dfa71#128]),
      bytesOf [0xd517038648baa132c4803c22066a31a8#128, 0x44b8df4abe50cedd17d9bdbe6b2c8108#128]),
    ((bytesOf [0x754e268110bb5bc7fd87d5cda8473cb5#128, 0xa1c717892ec9ece3e8192a1fc80f7210#128],
      bytesOf [0x7f71ce897157b994cde9a2e6a15e3bbb#128, 0x04887bf84873556705696da24d002381#128]),
      bytesOf [0xa96c54486bd8884e36c0be92a3769188#128, 0x0d1beb75eccd8fa316dc514b8c0bb042#128]),
    ((bytesOf [0x33740e9ebc46acfa95fdebef5b5f12b2#128, 0xe24e79e4c4e49aed4def3e0c3074f40d#128],
      bytesOf [0xccefbde28cfb4c7195fbaa1ed9a46e71#128, 0x238b4f70c13637a72aa8e33a76334cb6#128]),
      bytesOf [0x50f1f57474aca7db61f310cbb2c04088#128, 0x17ad9d9d9486a1e72f07bbb9d865020f#128]),
    ((bytesOf [0x4cf82ff3961da18abf68793a3f29901b#128, 0x7670aa3497ee5438d075cd89165e8c54#128],
      bytesOf [0x7f71ce897157b994cde9a2e6a15e3bbb#128, 0x04887bf84873556705696da24d002381#128]),
      bytesOf [0x91b52379a51c85880e538bb43f96dd59#128, 0x3eb26a13dad560453436824640b7ab41#128]),
    ((bytesOf [0x33740e9ebc46acfa95fdebef5b5f12b2#128, 0xe24e79e4c4e49aed4def3e0c3074f40d#128],
      bytesOf [0x78627a669f834b3310a7182cb2eb5b82#128, 0x1baadd4799ee717bad0e142b9578630d#128]),
      bytesOf [0x91b52379a51c85880e538bb43f96dd59#128, 0x3eb26a13dad560453436824640b7ab41#128])]

/-- BLAKE2b of the label and these shared secrets. -/
def sessionTags : List (List Byte × List Byte) :=
  [(bytesOf [0xa96c54486bd8884e36c0be92a3769188#128, 0x0d1beb75eccd8fa316dc514b8c0bb042#128],
      bytesOf [0xdaaf874dc2af58858146b48117c97245#128]),
    (bytesOf [0xd517038648baa132c4803c22066a31a8#128, 0x44b8df4abe50cedd17d9bdbe6b2c8108#128],
      bytesOf [0xfea4209711245f07a7d8aa958b493bac#128]),
    (bytesOf [0x50f1f57474aca7db61f310cbb2c04088#128, 0x17ad9d9d9486a1e72f07bbb9d865020f#128],
      bytesOf [0x95b09bd30b2a008dd51f28ac0ebf19af#128]),
    (bytesOf [0x91b52379a51c85880e538bb43f96dd59#128, 0x3eb26a13dad560453436824640b7ab41#128],
      bytesOf [0x241d5aede4cc67920436e3907c1f8e14#128])]

/-- States of the session before and after Xoodoo. -/
def sessionStates : List (List Block × List Block) :=
  [([0xa70d01a1393da72b2c126fcbde212245#128, 0x98964dd6b54404499b03342ff84f765d#128,
      0#128],
      [0x76072d530ec56c82f58f1fac9a29c014#128, 0x4ecf8c77a41400b1ecc6f9a8aae069e5#128,
       0xad3117d0b9829ee457281770dfd1cc54#128]),
    ([0xde9b781d101a11cc45a8ccd360c71ddd#128, 0xe3291b8dd0f6a0fdb4846514787bfa07#128,
      0#128],
      [0x09fade7360fd77c484837b29341a4f15#128, 0x06097c02719ac224c94901ac43c04225#128,
       0x89a26876d13b3f42ec4f8aa0d7e65945#128]),
    ([0xc1d9d3802cc81141568d1fbda74f410b#128, 0x86244ac22b6b857ce999e7a181535797#128,
      0xdaaf874dc2af58858146b48117c97245#128],
      [0xaede7ac264d11917e5eda4e571b3fd0f#128, 0x4d3e0ef1349dfa9ff921671f87346bcf#128,
       0x8fee9b358c548fca70d44a0c16abbdbe#128]),
    ([0xc35d082410f4fecf6a0df97e5e6dc4dd#128, 0xd6a92068641461c38eab31c81757256b#128,
      0x099a430ae26ec71c07a93bac065d1207#128],
      [0xd6f68b631ccc0ee7ae922e8d8801ebfa#128, 0x75ee4494e29a24254c07eb722297fd70#128,
       0x4ecee6611b86a6303e99dec8aeb7d457#128]),
    ([0x34a3a425a0b26327d1f6bb1989757d87#128, 0xf5e572fe6063383b92f32acbd7fcd425#128,
      0x3b1115793d2ec6859789155eed4c962b#128],
      [0x95f24360395ab875003f020a30072abf#128, 0xee0ea8976cf6d18a70949e964ee5016a#128,
       0x7748ea04dcf2774433e4ca0aacef4212#128]),
    ([0xc1d9d3802cc81141568d1fbda74f410b#128, 0x86244ac22b6b857ce999e7a181535797#128,
      0x95b09bd30b2a008dd51f28ac0ebf19af#128],
      [0x2e546c2dec6ec93c20ca2634dd77c963#128, 0x8f654a14298395feb86495f6b28c4ac3#128,
       0x0e1d49934c9f2d2317728516c3b45ad7#128])]

/-- AES under the items `1` and `4` on the first counters. -/
def sessionMasks : List ((Block × Block) × Block) :=
  [((1#128, 1#128), 0xd6f68b631ccc0ee7ae922e8d8801ebfa#128),
    ((1#128, 2#128), 0x75ee4494e29a24254c07eb722297fd70#128),
    ((1#128, 3#128), 0x4ecee6611b86a6303e99dec8aeb7d457#128),
    ((4#128, 1#128), 0x95f24360395ab875003f020a30072abf#128),
    ((4#128, 2#128), 0xee0ea8976cf6d18a70949e964ee5016a#128),
    ((4#128, 3#128), 0x7748ea04dcf2774433e4ca0aacef4212#128)]

/-- The curve on the values of the session. -/
def sessionCurve : Curve where
  sodiumInit := true
  elligatorKeyPair := tabulate sessionKeys (List.replicate 32 0, List.replicate 32 0)
  elligatorMap := tabulate sessionPoints (List.replicate 32 0)
  x25519 sk point := tabulate sessionShared (List.replicate 32 0) (sk, point)
  blake2b msg := tabulate sessionTags (List.replicate 16 0) (msg.drop 9)
  length_elligatorKeyPair seed := by
    apply tabulate_induction (P := fun pair : List Byte × List Byte =>
      pair.1.length = 32 ∧ pair.2.length = 32)
    decide +kernel
  length_blake2b msg := by
    apply tabulate_induction (P := fun tag : List Byte => tag.length = 16)
    decide +kernel

/-- Xoodoo on the states of the session. -/
def sessionPerm : Perm where
  encryptBytes x := if x.length ≠ 48 then .error "xoodoo expects exactly 48 bytes"
    else .ok (exchange sessionStates x)
  decryptBytes x := if x.length ≠ 48 then .error "xoodoo expects exactly 48 bytes"
    else .ok ((exchange sessionStates).symm x)
  length_encryptBytes {x y} h := by
    split_ifs at h
    rw [← Except.ok.inj h, length_exchange (by decide)]
  length_decryptBytes {x y} h := by
    split_ifs at h
    have hpairs : ∀ p ∈ sessionStates, p.1.length = p.2.length := by decide
    rw [← Except.ok.inj h, ← length_exchange hpairs, Equiv.apply_symm_apply]

/-- The primitives of the session; it does not use ML-KEM. -/
def sessionPrims : Primitives where
  hashByte _ := 0
  mlKem := ⟨fun _ => .error "", fun _ _ => .error "", fun _ _ => .error "", by simp, by simp⟩
  curve := sessionCurve
  makePi _ _ := .ok sessionPerm

def sessionEnv : Env :=
  ⟨fun key block => tabulate sessionMasks (sampleAes key block) (key, block), 8⟩

/-- A session over the curve, with the permutation on both passes. -/
def session (X Y : List Block) : System ℚ where
  prims := sessionPrims
  env := sessionEnv
  kem := some .ecKem
  pi := some { piCfg with bobPi := true }
  recvArgs := ⟨X, X.length, some sampleParams, none⟩
  sendArgs := ⟨Y, Y.length, some sampleParams, none⟩
  keySeeds := ⟨false, fun _ _ => [], fun i => List.replicate 32 (BitVec.ofNat 8 (16 + i))⟩
  encapSeeds j := List.replicate 32 (BitVec.ofNat 8 (32 + j))

/-- The flags and the count of a finished run. -/
def State.summary (s : State F) : Option (Bool × Bool × ℕ) :=
  match s.recv, s.send with
  | .done r _ hits, .done d => some (r.encoded, d.encoded, hits)
  | _, _ => none

omit [Double F] in
theorem State.summary_eq_some {s : State F} {encoded encoded' : Bool} {hits : ℕ}
    (h : s.summary = some (encoded, encoded', hits)) : ∃ r rows d, s.recv = .done r rows hits ∧
      s.send = .done d ∧ r.encoded = encoded ∧ d.encoded = encoded' := by
  unfold State.summary at h
  split at h
  next r rows hits' d hr hd =>
    simp only [Option.some.injEq, Prod.mk.injEq] at h
    obtain ⟨henc, henc', rfl⟩ := h
    exact ⟨r, rows, d, hr, hd, henc, henc'⟩
  next => simp at h

/-- One order of the actions when each table is a single message. -/
def sessionActions : List Action :=
  [.recvStart, .sendStart, .deliver1 0, .sendWait, .deliver2 0, .recvWait]

theorem sessionPrims_permInverts : sessionPrims.PermInverts := by
  intro cfg party pi x y hpi hxy
  obtain rfl := Except.ok.inj hpi
  simp only [sessionPerm] at hxy ⊢
  split_ifs at hxy with hx
  obtain rfl := Except.ok.inj hxy
  rw [length_exchange (by decide), if_neg hx, Equiv.symm_apply_apply]

theorem sessionPrims_kemCorrect : sessionPrims.KemCorrect .ecKem := by
  intro seed
  apply tabulate_induction (P := fun pair : List Byte × List Byte => ∀ seed',
    sessionCurve.x25519 pair.2 (sessionCurve.elligatorMap
      (sessionCurve.elligatorKeyPair seed').1) =
        sessionCurve.x25519 (sessionCurve.elligatorKeyPair seed').2
          (sessionCurve.elligatorMap pair.1))
  intro pair hpair
  apply tabulate_induction (P := fun pair' : List Byte × List Byte =>
    sessionCurve.x25519 pair.2 (sessionCurve.elligatorMap pair'.1) =
      sessionCurve.x25519 pair'.2 (sessionCurve.elligatorMap pair.1))
  revert pair
  decide +kernel

theorem session_compatible : (session [1#128, 4#128] [4#128]).Compatible 2 1 := by
  have hrecv : EncoderUses sessionEnv sampleParams 2 2 1 ∧ DecoderUses sampleParams 2 2 1 := by
    decide +kernel
  have hsend : EncoderUses sessionEnv sampleParams 1 2 1 ∧ DecoderUses sampleParams 1 2 1 := by
    decide +kernel
  exact ⟨rfl, rfl, hrecv.1, hrecv.2, hsend.1, hsend.2⟩

theorem recv_counts_intersection_session : ∃ s r rows d,
    (session [1#128, 4#128] [4#128]).Reaches sessionActions s ∧ s.recv = .done r rows 1 ∧
    s.send = .done d ∧ r.encoded = true ∧ d.encoded = true ∧
    r.hit sessionPrims rows 1 = true ∧
    1 = (Finset.univ.filter fun i : Fin 2 => [1#128, 4#128][i] ∈ [4#128]).card +
      (Finset.univ.filter fun i : Fin 2 => [1#128, 4#128][i] ∉ [4#128] ∧
        r.hit sessionPrims rows i = true).card := by
  have heval : (run (session [1#128, 4#128] [4#128]).step (State.init ℚ) sessionActions).map
      State.summary = some (some (true, true, 1)) := by
    decide +kernel
  obtain ⟨s, hs, hsum⟩ := Option.map_eq_some_iff.mp heval
  obtain ⟨r, rows, d, hr, hd, henc, henc'⟩ := State.summary_eq_some hsum
  obtain ⟨-, hrun⟩ := recv_counts_intersection session_compatible
    sessionPrims_permInverts sessionPrims_kemCorrect hs
  obtain ⟨hshared, hcount⟩ := hrun r rows 1 d hr hd henc henc'
  exact ⟨s, r, rows, d, hs, hr, hd, henc, henc', hshared ⟨1, by decide⟩ (by decide), hcount⟩

end Session

end PqPsi.Protocol
