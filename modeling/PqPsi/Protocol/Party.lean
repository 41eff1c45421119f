import PqPsi.Okvs.Correctness
import PqPsi.Protocol.KemRows
import PqPsi.Protocol.Net

/-!
# The two parties

`setup` is the part of `pqpsi` before a party starts. `Recv` and `Send` are
cut where they wait for the table of the other party, so that each becomes
the code up to `wait` and the code behind it. What `RBEncode` returned is
kept with the table it left, although the parties drop it.
-/
namespace PqPsi.Protocol
open Lib Lib.Buffers Lib.Exceptions Okvs

variable {F : Type} [Double F]

/-- The member initialisers of `PiCfg`. -/
def piCfg : PiCfg := ⟨.consPi, .keccak1600, 128, 8, false⟩

/-- What a party passes to `pqpsi` on its own, and its `PQPSI_NET_CHANNELS`. -/
structure Args (F : Type) where
  set : List Block
  setSize : ℕ
  rb : Option (RBParams F)
  netChannels : Option ℕ

/-- The OKVS parameters a party runs with. -/
def Args.rbCfg (args : Args F) : RBParams F := args.rb.getD (rbParams F)

/-- `Ctx`. -/
structure Ctx (F : Type) where
  workers : Workers
  tableSize : ℕ
  rowSize : ℕ
  rb : RBParams F
  kem : PsiKemKind
  bobPi : Bool
  ownPi : Perm
  peerPi : Perm
  set : List Block
  channels : ℕ

/-- The permutation a KEM runs with: `EcKem` always takes Xoodoo. -/
def localPi (kem : PsiKemKind) (pi : PiCfg) : PiCfg :=
  if kem = .ecKem then { pi with kind := .xoodoo } else pi

/-- `pqpsi` up to the call of `Recv` or `Send`. -/
def setup (prims : Primitives) (env : Env) (kemCfg : Option PsiKemKind) (pi : Option PiCfg)
    (me : ℕ) (args : Args F) : Except Err (Ctx F) := do
  throwIf (args.setSize ≠ args.set.length) "pqpsi: setSize must match set.size()"
  let rbCfg := args.rbCfg
  let rbInfo ← rbInfoOf env args.set.length rbCfg
  let requestedChannels := args.netChannels.getD rbInfo.workerThreads
  let requestedChannels :=
    if requestedChannels = 0 then rbInfo.workerThreads else requestedChannels
  let netChannels :=
    if rbCfg.multiThread then max 1 (min requestedChannels rbInfo.workerThreads) else 1
  let localKem := kemCfg.getD .obfMlKem
  throwIf (localKem ≠ .ecKem ∧ (pi.getD piCfg).kind = .xoodoo)
    "xoodoo permutation is only supported with eckem"
  let localPi := localPi localKem (pi.getD piCfg)
  let ownParty := me % 2
  let ownPi ← prims.makePi localPi ownParty
  let peerPi ← prims.makePi localPi (1 - ownParty)
  return {
    workers := ⟨env, rbCfg.multiThread, rbInfo.workerThreads⟩
    tableSize := rbInfo.columns
    rowSize := kemRowBlocks localKem
    rb := rbCfg
    kem := localKem
    bobPi := localPi.bobPi
    ownPi, peerPi
    set := args.set
    channels := netChannels }

/-- `std::vector<block>(n)`: a zeroed buffer. -/
def zeros (n : ℕ) : List Block := List.replicate n 0

/-- `wait` for a buffer of `n` blocks. -/
def waitBlocks (link : Net.Link) (pending : List (ℕ × ℕ)) (n : ℕ) : Option (Except Err (List Block)) :=
  (Net.wait link 0 pending (bytesOf (zeros n))).map fun r => r.map (blocksOf n)

namespace Ctx
variable (ctx : Ctx F)

/-- `rowPtr`: row `i` of a buffer. -/
def rowAt (buf : List Block) (i : ℕ) : List Block := slice buf (i * ctx.rowSize) ctx.rowSize

/-- The loops over the rows of a party's own set. -/
def eachRow (body : ℕ → List Block → Except Err (List Block)) (buf : List Block) :
    Except Err (List Block) :=
  parallelFor ctx.workers ctx.set.length 16
    ((Slots.rows Block ctx.rowSize ctx.set.length).turn body) buf

def asyncRecv (bytes : ℕ) : Except Err (List (ℕ × ℕ)) :=
  Net.asyncRecv ctx.workers.multiThread ctx.channels bytes

def send (buf : List Block) : Except Err (List (List Byte)) :=
  Net.send ctx.workers.multiThread ctx.channels (bytesOf buf)

end Ctx

/-- `Recv` where it waits: its keys, masks and rows, the flag and the table of `RBEncode`, and
the receives it has posted. -/
structure RecvWaiting (F : Type) where
  ctx : Ctx F
  sk : List RawKey
  masks : List Block
  rows : List Block
  encoded : Bool
  buf : List Block
  pending : List (ℕ × ℕ)

/-- `Recv` up to `okvs2Recv.wait()`, with the messages it sends. -/
def recvUntilWait (prims : Primitives) (seeds : KeySeeds) (ctx : Ctx F) :
    Except Err (RecvWaiting F × List (List Byte)) := do
  let (sk, pk) ← genRows prims ctx.workers seeds ctx.kem
    (zeros (ctx.set.length * ctx.rowSize)) ctx.rowSize
  let masks ← precomputeMasks ctx.workers ctx.rowSize ctx.set
  let rows ← ctx.eachRow (fun i _ => do
    let row ← permute ctx.ownPi (ctx.rowAt pk i)
    return xorMask (ctx.rowAt masks i) row) (zeros (ctx.set.length * ctx.rowSize))
  let (encoded, buf) ← rbEncodeFlat ctx.workers.env ctx.set rows ctx.rowSize
    (zeros (ctx.tableSize * ctx.rowSize)) ctx.rb
  let pending ← ctx.asyncRecv (buf.length * blockBytes)
  let msgs ← ctx.send buf
  return ({ ctx, sk, masks, rows, encoded, buf, pending }, msgs)

/-- `Recv` behind `wait`: the rows it checks and the count it writes to `hitOut`. -/
def recvAfterWait (prims : Primitives) (r : RecvWaiting F) (recvBuf : List Block) :
    Except Err (List Block × ℕ) := do
  let rows ← rbDecodeFlat r.ctx.workers.env recvBuf r.ctx.rowSize r.ctx.set r.ctx.rb
  let rows ← r.ctx.eachRow (fun i row => do
    let row := xorMask (r.ctx.rowAt r.masks i) row
    if r.ctx.bobPi then unpermute r.ctx.peerPi row else return row) rows
  let hits ← countHits prims r.ctx.workers r.ctx.kem r.sk rows r.ctx.rowSize
  return (rows, hits)

/-- `Send` where it waits. -/
structure SendWaiting (F : Type) where
  ctx : Ctx F
  masks : List Block
  pending : List (ℕ × ℕ)

/-- `Send` up to `okvs1Recv.wait()`. -/
def sendUntilWait (ctx : Ctx F) : Except Err (SendWaiting F) := do
  let pending ← ctx.asyncRecv (ctx.tableSize * ctx.rowSize * blockBytes)
  let masks ← precomputeMasks ctx.workers ctx.rowSize ctx.set
  return { ctx, masks, pending }

/-- What `Send` ends with: the rows it encoded, and the flag and the table of `RBEncode`. -/
structure SendDone (F : Type) where
  ctx : Ctx F
  rows : List Block
  encoded : Bool
  buf : List Block

/-- `Send` behind `wait`, with the messages it sends. A failed `RBEncode` leaves the received
table in `buf`. -/
def sendAfterWait (prims : Primitives) (seeds : ℕ → List Byte) (t : SendWaiting F)
    (buf : List Block) : Except Err (SendDone F × List (List Byte)) := do
  let ctx := t.ctx
  let rows ← rbDecodeFlat ctx.workers.env buf ctx.rowSize ctx.set ctx.rb
  let rows ← ctx.eachRow (fun i row =>
    unpermute ctx.peerPi (xorMask (ctx.rowAt t.masks i) row)) rows
  let ct ← encapRows prims ctx.workers seeds ctx.kem rows ctx.rowSize
  let rows ← ctx.eachRow (fun i _ => do
    let row ← (if ctx.bobPi then permute ctx.ownPi (ctx.rowAt ct i) else pure (ctx.rowAt ct i))
    return xorMask (ctx.rowAt t.masks i) row) rows
  let (encoded, buf) ← rbEncodeFlat ctx.workers.env ctx.set rows ctx.rowSize buf ctx.rb
  let msgs ← ctx.send buf
  return ({ ctx, rows, encoded, buf }, msgs)

end PqPsi.Protocol
