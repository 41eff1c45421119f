import PqPsi.Lib.Runs
import PqPsi.Protocol.PartyRows

/-!
# Runs of the two parties

The parties and the two directions of the connection make one system. Its
actions are the starts of the parties, the deliveries on the channels, and
the returns from the two waits. A party that throws stops.
-/
namespace PqPsi.Protocol
open Lib Lib.Buffers Lib.Exceptions Lib.Runs Okvs

/-- One call of `pqpsi` by each party, under one choice of KEM and permutation, with the
randomness they draw. -/
structure System (F : Type) where
  prims : Primitives
  env : Env
  kem : Option PsiKemKind
  pi : Option PiCfg
  recvArgs : Args F
  sendArgs : Args F
  keySeeds : KeySeeds
  encapSeeds : ℕ → List Byte

/-- A receiver that failed behind its wait had sent its table. -/
inductive RecvState (F : Type) where
  | idle
  | waiting (r : RecvWaiting F)
  | done (r : RecvWaiting F) (rows : List Block) (hits : ℕ)
  | failed (e : Err) (sent : Option (RecvWaiting F))

inductive SendState (F : Type) where
  | idle
  | waiting (t : SendWaiting F)
  | done (d : SendDone F)
  | failed (e : Err)

/-- A receiver that has sent its table. -/
def RecvState.sent {F : Type} : RecvState F → Option (RecvWaiting F)
  | .idle => none
  | .waiting r => some r
  | .done r _ _ => some r
  | .failed _ r => r

structure State (F : Type) where
  recv : RecvState F
  send : SendState F
  okvs1 : Net.Link
  okvs2 : Net.Link

def State.init (F : Type) : State F := ⟨.idle, .idle, .empty, .empty⟩

inductive Action where
  | recvStart
  | sendStart
  | deliver1 (i : ℕ)
  | deliver2 (i : ℕ)
  | sendWait
  | recvWait

section Outcomes
variable {F : Type} (s : State F)

def State.recvStarted : Except Err (RecvWaiting F × List (List Byte)) → State F
  | .ok (r, msgs) => { s with recv := .waiting r, okvs1 := ⟨msgs, ∅⟩ }
  | .error e => { s with recv := .failed e none }

def State.sendStarted : Except Err (SendWaiting F) → State F
  | .ok t => { s with send := .waiting t }
  | .error e => { s with send := .failed e }

def State.sendEnded : Except Err (SendDone F × List (List Byte)) → State F
  | .ok (d, msgs) => { s with send := .done d, okvs2 := ⟨msgs, ∅⟩ }
  | .error e => { s with send := .failed e }

def State.recvEnded (r : RecvWaiting F) : Except Err (List Block × ℕ) → State F
  | .ok (rows, hits) => { s with recv := .done r rows hits }
  | .error e => { s with recv := .failed e (some r) }

end Outcomes

variable {F : Type} [Double F] (sys : System F)

namespace System

def recvStart : Except Err (RecvWaiting F × List (List Byte)) := do
  let ctx ← setup sys.prims sys.env sys.kem sys.pi 0 sys.recvArgs
  recvUntilWait sys.prims sys.keySeeds ctx

def sendStart : Except Err (SendWaiting F) := do
  let ctx ← setup sys.prims sys.env sys.kem sys.pi 1 sys.sendArgs
  sendUntilWait ctx

/-- `none` while `Send` blocks. -/
def sendWait (t : SendWaiting F) (okvs1 : Net.Link) :
    Option (Except Err (SendDone F × List (List Byte))) :=
  (waitBlocks okvs1 t.pending (t.ctx.tableSize * t.ctx.rowSize)).map fun r =>
    r >>= sendAfterWait sys.prims sys.encapSeeds t

/-- `none` while `Recv` blocks. -/
def recvWait (r : RecvWaiting F) (okvs2 : Net.Link) : Option (Except Err (List Block × ℕ)) :=
  (waitBlocks okvs2 r.pending r.buf.length).map fun buf => buf >>= recvAfterWait sys.prims r

def step (s : State F) : Action → Option (State F)
  | .recvStart => match s.recv with
    | .idle => some (s.recvStarted sys.recvStart)
    | _ => none
  | .sendStart => match s.send with
    | .idle => some (s.sendStarted sys.sendStart)
    | _ => none
  | .deliver1 i => (s.okvs1.deliver i).map fun l => { s with okvs1 := l }
  | .deliver2 i => (s.okvs2.deliver i).map fun l => { s with okvs2 := l }
  | .sendWait => match s.send with
    | .waiting t => (sys.sendWait t s.okvs1).map s.sendEnded
    | _ => none
  | .recvWait => match s.recv with
    | .waiting r => (sys.recvWait r s.okvs2).map (s.recvEnded r)
    | _ => none

/-- The states that some interleaving reaches. -/
def Reaches (acts : List Action) (s : State F) : Prop := run sys.step (State.init F) acts = some s

end System

variable {sys} {s s' : State F}

/-- All that one step can do. -/
theorem System.step_cases {a : Action} (h : sys.step s a = some s') :
    (s.recv = .idle ∧ s' = s.recvStarted sys.recvStart) ∨
    (s.send = .idle ∧ s' = s.sendStarted sys.sendStart) ∨
    (∃ i l, s.okvs1.deliver i = some l ∧ s' = { s with okvs1 := l }) ∨
    (∃ i l, s.okvs2.deliver i = some l ∧ s' = { s with okvs2 := l }) ∨
    (∃ t out, s.send = .waiting t ∧ sys.sendWait t s.okvs1 = some out ∧ s' = s.sendEnded out) ∨
    (∃ r out, s.recv = .waiting r ∧ sys.recvWait r s.okvs2 = some out ∧
      s' = s.recvEnded r out) := by
  cases a with
  | recvStart =>
    cases hrecv : s.recv with
    | idle =>
      simp only [step, hrecv, Option.some.injEq] at h
      exact .inl ⟨rfl, h.symm⟩
    | waiting r => simp [step, hrecv] at h
    | done r rows hits => simp [step, hrecv] at h
    | failed e r => simp [step, hrecv] at h
  | sendStart =>
    cases hsend : s.send with
    | idle =>
      simp only [step, hsend, Option.some.injEq] at h
      exact .inr (.inl ⟨rfl, h.symm⟩)
    | waiting t => simp [step, hsend] at h
    | done d => simp [step, hsend] at h
    | failed e => simp [step, hsend] at h
  | deliver1 i =>
    obtain ⟨l, hl, rfl⟩ := Option.map_eq_some_iff.mp h
    exact .inr (.inr (.inl ⟨i, l, hl, rfl⟩))
  | deliver2 i =>
    obtain ⟨l, hl, rfl⟩ := Option.map_eq_some_iff.mp h
    exact .inr (.inr (.inr (.inl ⟨i, l, hl, rfl⟩)))
  | sendWait =>
    cases hsend : s.send with
    | waiting t =>
      simp only [step, hsend] at h
      obtain ⟨out, hout, rfl⟩ := Option.map_eq_some_iff.mp h
      exact .inr (.inr (.inr (.inr (.inl ⟨t, out, rfl, hout, rfl⟩))))
    | idle => simp [step, hsend] at h
    | done d => simp [step, hsend] at h
    | failed e => simp [step, hsend] at h
  | recvWait =>
    cases hrecv : s.recv with
    | waiting r =>
      simp only [step, hrecv] at h
      obtain ⟨out, hout, rfl⟩ := Option.map_eq_some_iff.mp h
      exact .inr (.inr (.inr (.inr (.inr ⟨r, out, rfl, hout, rfl⟩))))
    | idle => simp [step, hrecv] at h
    | done r rows hits => simp [step, hrecv] at h
    | failed e r => simp [step, hrecv] at h

section Starts

/-- What the parties of a system run with. -/
def System.Runs (sys : System F) (party : ℕ) (args : Args F) (ctx : Ctx F) : Prop :=
  ctx.Spec sys.prims sys.env (sys.kem.getD .obfMlKem) (sys.pi.getD piCfg) party args

theorem recvStart_spec {r : RecvWaiting F} {msgs : List (List Byte)}
    (h : sys.recvStart = .ok (r, msgs)) :
    sys.Runs 0 sys.recvArgs r.ctx ∧ r.Spec sys.prims sys.keySeeds msgs := by
  obtain ⟨ctx, hctx, hr⟩ := bind_eq_ok.mp h
  have hspec := setup_spec hctx
  obtain ⟨rfl, hrows⟩ := recvUntilWait_spec (hspec.rowSize_eq ▸ kemRowBlocks_pos _) hr
  exact ⟨hspec, hrows⟩

theorem sendStart_spec {t : SendWaiting F} (h : sys.sendStart = .ok t) :
    sys.Runs 1 sys.sendArgs t.ctx ∧
      t.ctx.asyncRecv (t.ctx.tableSize * t.ctx.rowSize * blockBytes) = .ok t.pending ∧
      ∀ j < t.ctx.set.length, t.ctx.rowAt t.masks j = t.ctx.maskOf j := by
  obtain ⟨ctx, hctx, ht⟩ := bind_eq_ok.mp h
  obtain ⟨rfl, hpend, hmasks⟩ := sendUntilWait_spec ht
  exact ⟨setup_spec hctx, hpend, hmasks⟩

omit [Double F] in
/-- Nothing comes out of a wait on a connection on which nothing was sent. -/
theorem waitBlocks_sent {ctx : Ctx F} {bytes n : ℕ} {pending : List (ℕ × ℕ)} {link : Net.Link}
    {out : Except Err (List Block)} (hpend : ctx.asyncRecv bytes = .ok pending)
    (h : waitBlocks link pending n = some out) : link.sent ≠ [] := by
  obtain ⟨bs, hwait, -⟩ := Option.map_eq_some_iff.mp h
  refine Net.sent_ne_nil ?_ hwait
  rw [(Net.asyncRecv_eq_ok hpend).1]
  exact Net.parts_ne_nil _ _ _

end Starts

section Invariant

/-- The parties and the messages of a reachable state come from the code of the parties. -/
structure Inv (sys : System F) (s : State F) : Prop where
  recv_idle : s.recv = .idle → s.okvs1.sent = []
  recv_sent : ∀ r, s.recv.sent = some r → sys.recvStart = .ok (r, s.okvs1.sent)
  recv_done : ∀ r rows hits, s.recv = .done r rows hits → s.okvs2.sent ≠ [] ∧
    ∃ arrived, sys.recvWait r ⟨s.okvs2.sent, arrived⟩ = some (.ok (rows, hits))
  send_waiting : ∀ t, s.send = .waiting t → s.okvs2.sent = [] ∧ sys.sendStart = .ok t
  send_done : ∀ d, s.send = .done d → s.okvs1.sent ≠ [] ∧ ∃ t arrived, sys.sendStart = .ok t ∧
    sys.sendWait t ⟨s.okvs1.sent, arrived⟩ = some (.ok (d, s.okvs2.sent))
  okvs2 : s.okvs2.sent ≠ [] → ∃ d, s.send = .done d

theorem inv_init : Inv sys (State.init F) where
  recv_idle _ := rfl
  recv_sent _ h := by simp [State.init, RecvState.sent] at h
  recv_done _ _ _ h := by simp [State.init] at h
  send_waiting _ h := by simp [State.init] at h
  send_done _ h := by simp [State.init] at h
  okvs2 h := absurd rfl h

theorem inv_recvStarted (hi : Inv sys s) (h : s.recv = .idle) :
    Inv sys (s.recvStarted sys.recvStart) := by
  have hsent := hi.recv_idle h
  cases hstart : sys.recvStart with
  | error e =>
    exact { hi with
      recv_idle := fun h' => by simp [State.recvStarted] at h'
      recv_sent := fun r h' => by simp [State.recvStarted, RecvState.sent] at h'
      recv_done := fun r rows hits h' => by simp [State.recvStarted] at h' }
  | ok out =>
    obtain ⟨r, msgs⟩ := out
    have hsend : ∀ d, s.send ≠ .done d := fun d hd => (hi.send_done d hd).1 hsent
    exact { hi with
      recv_idle := fun h' => by simp [State.recvStarted] at h'
      recv_sent := fun r' h' => by
        obtain rfl : r = r' := by simpa [State.recvStarted, RecvState.sent] using h'
        exact hstart
      recv_done := fun r rows hits h' => by simp [State.recvStarted] at h'
      send_done := fun d hd => absurd hd (hsend d) }

theorem inv_sendStarted (hi : Inv sys s) (h : s.send = .idle) :
    Inv sys (s.sendStarted sys.sendStart) := by
  have hsent : s.okvs2.sent = [] := by
    by_contra hne
    obtain ⟨d, hd⟩ := hi.okvs2 hne
    simp [h] at hd
  cases hstart : sys.sendStart with
  | error e =>
    exact { hi with
      send_waiting := fun t h' => by simp [State.sendStarted] at h'
      send_done := fun d h' => by simp [State.sendStarted] at h'
      okvs2 := fun hne => absurd hsent hne }
  | ok t =>
    exact { hi with
      send_waiting := fun t' h' => by
        obtain rfl : t = t' := by simpa [State.sendStarted] using h'
        exact ⟨hsent, hstart⟩
      send_done := fun d h' => by simp [State.sendStarted] at h'
      okvs2 := fun hne => absurd hsent hne }

theorem inv_sendEnded (hi : Inv sys s) {t : SendWaiting F} (h : s.send = .waiting t)
    {out : Except Err (SendDone F × List (List Byte))}
    (hout : sys.sendWait t s.okvs1 = some out) : Inv sys (s.sendEnded out) := by
  obtain ⟨hsent, hstart⟩ := hi.send_waiting t h
  have hrecv : ∀ r rows hits, s.recv ≠ .done r rows hits :=
    fun r rows hits hd => (hi.recv_done r rows hits hd).1 hsent
  obtain ⟨buf, hwait, -⟩ := Option.map_eq_some_iff.mp hout
  have hne := waitBlocks_sent (sendStart_spec hstart).2.1 hwait
  cases out with
  | error e =>
    exact { hi with
      send_waiting := fun t h' => by simp [State.sendEnded] at h'
      send_done := fun d h' => by simp [State.sendEnded] at h'
      okvs2 := fun hne => absurd hsent hne }
  | ok out =>
    obtain ⟨d, msgs⟩ := out
    exact { hi with
      recv_done := fun r rows hits hd => absurd hd (hrecv r rows hits)
      send_waiting := fun t h' => by simp [State.sendEnded] at h'
      send_done := fun d' h' => by
        obtain rfl : d = d' := by simpa [State.sendEnded] using h'
        exact ⟨hne, t, s.okvs1.arrived, hstart, hout⟩
      okvs2 := fun _ => ⟨d, rfl⟩ }

theorem inv_recvEnded (hi : Inv sys s) {r : RecvWaiting F} (h : s.recv = .waiting r)
    {out : Except Err (List Block × ℕ)} (hout : sys.recvWait r s.okvs2 = some out) :
    Inv sys (s.recvEnded r out) := by
  have hstart := hi.recv_sent r (by rw [h]; rfl)
  obtain ⟨buf, hwait, -⟩ := Option.map_eq_some_iff.mp hout
  have hne := waitBlocks_sent (recvStart_spec hstart).2.pending hwait
  cases out with
  | error e =>
    exact { hi with
      recv_idle := fun h' => by simp [State.recvEnded] at h'
      recv_sent := fun r' h' => by
        obtain rfl : r = r' := by simpa [State.recvEnded, RecvState.sent] using h'
        exact hstart
      recv_done := fun r rows hits h' => by simp [State.recvEnded] at h' }
  | ok out =>
    obtain ⟨rows, hits⟩ := out
    exact { hi with
      recv_idle := fun h' => by simp [State.recvEnded] at h'
      recv_sent := fun r' h' => by
        obtain rfl : r = r' := by simpa [State.recvEnded, RecvState.sent] using h'
        exact hstart
      recv_done := fun r' rows' hits' h' => by
        obtain ⟨rfl, rfl, rfl⟩ : r = r' ∧ rows = rows' ∧ hits = hits' := by
          simpa [State.recvEnded] using h'
        exact ⟨hne, s.okvs2.arrived, hout⟩ }

/-- Every step keeps the invariant. -/
theorem inv_step (hi : Inv sys s) {a : Action} (h : sys.step s a = some s') : Inv sys s' := by
  rcases System.step_cases h with ⟨hidle, rfl⟩ | ⟨hidle, rfl⟩ | ⟨i, l, hl, rfl⟩ | ⟨i, l, hl, rfl⟩ |
    ⟨t, out, ht, hout, rfl⟩ | ⟨r, out, hr, hout, rfl⟩
  · exact inv_recvStarted hi hidle
  · exact inv_sendStarted hi hidle
  · have hsent := Net.Link.sent_deliver hl
    exact { hi with
      recv_idle := fun h' => hsent ▸ hi.recv_idle h'
      recv_sent := fun r h' => hsent ▸ hi.recv_sent r h'
      send_done := fun d h' => hsent ▸ hi.send_done d h' }
  · have hsent := Net.Link.sent_deliver hl
    exact { hi with
      recv_done := fun r rows hits h' => hsent ▸ hi.recv_done r rows hits h'
      send_waiting := fun t h' => hsent ▸ hi.send_waiting t h'
      send_done := fun d h' => hsent ▸ hi.send_done d h'
      okvs2 := fun h' => hi.okvs2 (hsent ▸ h') }
  · exact inv_sendEnded hi ht hout
  · exact inv_recvEnded hi hr hout

/-- The invariant holds in every reachable state. -/
theorem System.Reaches.inv {acts : List Action} (h : sys.Reaches acts s) : Inv sys s :=
  run_invariant (fun _ _ _ hi hstep => inv_step hi hstep) inv_init h

end Invariant

end PqPsi.Protocol
