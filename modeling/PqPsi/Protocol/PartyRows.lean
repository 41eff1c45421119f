import PqPsi.Protocol.Party

/-!
# The rows of a party

When nothing throws, every row of a buffer is computed from the rows with the
same index in the buffers before it. Masking and permuting a row are undone
by the other party.
-/
namespace PqPsi.Protocol
open Lib Lib.Buffers Lib.Exceptions Okvs

section Undo

@[simp] theorem length_xorMask (mask row : List Block) :
    (xorMask mask row).length = min row.length mask.length := List.length_zipWith

theorem xorMask_xorMask {mask row : List Block} (h : mask.length = row.length) :
    xorMask mask (xorMask mask row) = row := by
  apply List.ext_getElem (by simp [h])
  intro i hi hi'
  simp only [xorMask, List.getElem_zipWith]
  rw [BitVec.xor_assoc, BitVec.xor_self, BitVec.xor_zero]

variable {pi : Perm} {row row' : List Block}

theorem length_permute (h : permute pi row = .ok row') : row'.length = row.length := by
  obtain ⟨bytes, -, hrow⟩ := bind_eq_ok.mp h
  obtain rfl := Except.ok.inj hrow
  exact length_blocksOf _ _

theorem length_unpermute (h : unpermute pi row = .ok row') : row'.length = row.length := by
  obtain ⟨bytes, -, hrow⟩ := bind_eq_ok.mp h
  obtain rfl := Except.ok.inj hrow
  exact length_blocksOf _ _

theorem unpermute_permute
    (hpi : ∀ x y, pi.encryptBytes x = .ok y → pi.decryptBytes y = .ok x)
    (h : permute pi row = .ok row') : unpermute pi row' = .ok row := by
  obtain ⟨bytes, henc, hrow⟩ := bind_eq_ok.mp h
  obtain rfl := Except.ok.inj hrow
  have hlen : bytes.length = 16 * row.length := by
    rw [pi.length_encryptBytes henc, length_bytesOf]
  rw [unpermute, length_blocksOf, bytesOf_blocksOf hlen, hpi _ _ henc, ok_bind, blocksOf_bytesOf]
  rfl

end Undo

variable {F : Type} [Double F] {prims : Primitives}

/-- The mask of an item of the set. -/
def Ctx.maskOf (ctx : Ctx F) (i : ℕ) : List Block :=
  fillMask ctx.workers.env (ctx.set.getD i 0) ctx.rowSize

omit [Double F] in
@[simp] theorem Ctx.length_maskOf (ctx : Ctx F) (i : ℕ) : (ctx.maskOf i).length = ctx.rowSize := by
  simp [Ctx.maskOf, fillMask]

omit [Double F] in
/-- One loop over the rows of a set. -/
theorem Ctx.eachRow_spec {ctx : Ctx F} {body : ℕ → List Block → Except Err (List Block)}
    {s s' : List Block} (h : ctx.eachRow body s = .ok s')
    (hs : s.length = ctx.set.length * ctx.rowSize)
    (hbody : ∀ i < ctx.set.length, ∀ row row', row.length = ctx.rowSize → body i row = .ok row' →
      row'.length = ctx.rowSize) :
    s'.length = ctx.set.length * ctx.rowSize ∧
      ∀ i < ctx.set.length, body i (ctx.rowAt s i) = .ok (ctx.rowAt s' i) :=
  parallelFor_rows h hs hbody

omit [Double F] in
theorem Ctx.length_rowAt {ctx : Ctx F} {buf : List Block} {i : ℕ} (hi : i < ctx.set.length)
    (h : buf.length = ctx.set.length * ctx.rowSize) : (ctx.rowAt buf i).length = ctx.rowSize :=
  (Slots.rows Block ctx.rowSize ctx.set.length).fits_get h hi

/-- What a party runs with. -/
structure Ctx.Spec (prims : Primitives) (env : Env) (kem : PsiKemKind) (pi : PiCfg) (party : ℕ)
    (args : Args F) (ctx : Ctx F) : Prop where
  env_eq : ctx.workers.env = env
  kem_eq : ctx.kem = kem
  rowSize_eq : ctx.rowSize = kemRowBlocks kem
  bobPi_eq : ctx.bobPi = (localPi kem pi).bobPi
  rb_eq : ctx.rb = args.rbCfg
  set_eq : ctx.set = args.set
  makePi_own : prims.makePi (localPi kem pi) (party % 2) = .ok ctx.ownPi
  makePi_peer : prims.makePi (localPi kem pi) (1 - party % 2) = .ok ctx.peerPi
  rbInfoOf_eq : ∃ info, rbInfoOf env args.set.length args.rbCfg = .ok info ∧ info.columns = ctx.tableSize

theorem setup_spec {env : Env} {kem : Option PsiKemKind} {pi : Option PiCfg} {me : ℕ}
    {args : Args F} {ctx : Ctx F} (h : setup prims env kem pi me args = .ok ctx) :
    ctx.Spec prims env (kem.getD .obfMlKem) (pi.getD piCfg) me args := by
  obtain ⟨-, -, h⟩ := bind_eq_ok.mp h
  obtain ⟨info, hinfo, h⟩ := bind_eq_ok.mp h
  obtain ⟨-, -, h⟩ := bind_eq_ok.mp h
  obtain ⟨own, hown, h⟩ := bind_eq_ok.mp h
  obtain ⟨peer, hpeer, h⟩ := bind_eq_ok.mp h
  obtain rfl := Except.ok.inj h
  exact ⟨rfl, rfl, rfl, rfl, rfl, rfl, hown, hpeer, info, hinfo, rfl⟩

theorem kemRowBlocks_pos (kem : PsiKemKind) : 0 < kemRowBlocks kem := by
  cases kem <;> decide

/-- The rows `Recv` encodes, and how its waiting state came about. -/
structure RecvWaiting.Spec (prims : Primitives) (seeds : KeySeeds) (r : RecvWaiting F)
    (msgs : List (List Byte)) : Prop where
  length_sk : r.sk.length = r.ctx.set.length
  masks : ∀ i < r.ctx.set.length, r.ctx.rowAt r.masks i = r.ctx.maskOf i
  length_rows : r.rows.length = r.ctx.set.length * r.ctx.rowSize
  rows : ∀ i < r.ctx.set.length, ∃ pkRow permuted,
    genRow prims r.ctx.kem r.ctx.rowSize seeds i = .ok (r.sk.getD i default, pkRow) ∧
      permute r.ctx.ownPi pkRow = .ok permuted ∧ permuted.length = r.ctx.rowSize ∧
      r.ctx.rowAt r.rows i = xorMask (r.ctx.maskOf i) permuted
  encode : rbEncodeFlat r.ctx.workers.env r.ctx.set r.rows r.ctx.rowSize
    (zeros (r.ctx.tableSize * r.ctx.rowSize)) r.ctx.rb = .ok (r.encoded, r.buf)
  pending : r.ctx.asyncRecv (r.buf.length * blockBytes) = .ok r.pending
  msgs : r.ctx.send r.buf = .ok msgs

theorem recvUntilWait_spec {seeds : KeySeeds} {ctx : Ctx F} {r : RecvWaiting F}
    {msgs : List (List Byte)} (hpos : 0 < ctx.rowSize)
    (h : recvUntilWait prims seeds ctx = .ok (r, msgs)) :
    r.ctx = ctx ∧ r.Spec prims seeds msgs := by
  obtain ⟨⟨sk, pk⟩, hgen, h⟩ := bind_eq_ok.mp h
  obtain ⟨masks, hmasks, h⟩ := bind_eq_ok.mp h
  obtain ⟨rows, hrows, h⟩ := bind_eq_ok.mp h
  obtain ⟨⟨encoded, buf⟩, henc, h⟩ := bind_eq_ok.mp h
  obtain ⟨pending, hpend, h⟩ := bind_eq_ok.mp h
  obtain ⟨msgs', hmsgs, h⟩ := bind_eq_ok.mp h
  obtain ⟨rfl, rfl⟩ := Prod.mk.inj (Except.ok.inj h)
  obtain ⟨-, hsk, hpk, hpairs⟩ := genRows_spec List.length_replicate hpos hgen
  obtain ⟨hmlen, hm⟩ := precomputeMasks_spec hmasks
  obtain ⟨hrlen, hr⟩ := Ctx.eachRow_spec hrows List.length_replicate (by
    intro i hi row row' _ hrow
    obtain ⟨p, hp, hrow⟩ := bind_eq_ok.mp hrow
    obtain rfl := Except.ok.inj hrow
    rw [length_xorMask, length_permute hp, Ctx.length_rowAt hi hpk, Ctx.length_rowAt hi hmlen,
      min_self])
  refine ⟨rfl, hsk, hm, hrlen, ?_, henc, hpend, hmsgs⟩
  intro i hi
  obtain ⟨p, hp, hrow⟩ := bind_eq_ok.mp (hr i hi)
  refine ⟨_, p, hpairs i hi, hp, ?_, ?_⟩
  · rw [length_permute hp, Ctx.length_rowAt hi hpk]
  · rw [← Except.ok.inj hrow]
    congr 1
    exact hm i hi

/-- The rows `Recv` checks, from the rows of the table it received. -/
theorem recvAfterWait_spec {r : RecvWaiting F} {recvBuf decoded rows : List Block} {hits : ℕ}
    (hmasks : ∀ i < r.ctx.set.length, r.ctx.rowAt r.masks i = r.ctx.maskOf i)
    (hdec : rbDecodeFlat r.ctx.workers.env recvBuf r.ctx.rowSize r.ctx.set r.ctx.rb = .ok decoded)
    (hlen : decoded.length = r.ctx.set.length * r.ctx.rowSize)
    (h : recvAfterWait prims r recvBuf = .ok (rows, hits)) :
    ∀ i < r.ctx.set.length,
      (if r.ctx.bobPi then
        unpermute r.ctx.peerPi (xorMask (r.ctx.maskOf i) (r.ctx.rowAt decoded i))
      else .ok (xorMask (r.ctx.maskOf i) (r.ctx.rowAt decoded i))) = .ok (r.ctx.rowAt rows i) := by
  obtain ⟨decoded', hdec', h⟩ := bind_eq_ok.mp h
  obtain rfl : decoded' = decoded := Except.ok.inj (hdec'.symm.trans hdec)
  obtain ⟨rows', hrows, h⟩ := bind_eq_ok.mp h
  obtain ⟨hits', -, h⟩ := bind_eq_ok.mp h
  obtain ⟨rfl, rfl⟩ := Prod.mk.inj (Except.ok.inj h)
  obtain ⟨-, hr⟩ := Ctx.eachRow_spec hrows hlen (by
    intro i hi row row' hlen hrow
    rw [hmasks i hi] at hrow
    have hxor : (xorMask (r.ctx.maskOf i) row).length = r.ctx.rowSize := by simp [hlen]
    by_cases hbob : r.ctx.bobPi
    · rw [if_pos hbob] at hrow
      rw [length_unpermute hrow, hxor]
    · rw [if_neg hbob] at hrow
      rw [← Except.ok.inj hrow, hxor])
  intro i hi
  rw [← hmasks i hi]
  exact hr i hi

theorem recvAfterWait_hits {r : RecvWaiting F} {recvBuf rows : List Block} {hits : ℕ}
    (h : recvAfterWait prims r recvBuf = .ok (rows, hits)) :
    (∃ decoded, rbDecodeFlat r.ctx.workers.env recvBuf r.ctx.rowSize r.ctx.set r.ctx.rb =
      .ok decoded) ∧
    hits = (List.range r.sk.length).countP fun i =>
      passed (hitRow prims r.ctx.kem r.ctx.rowSize (r.sk.getD i default) (r.ctx.rowAt rows i)) := by
  obtain ⟨decoded, hdec, h⟩ := bind_eq_ok.mp h
  obtain ⟨rows', -, h⟩ := bind_eq_ok.mp h
  obtain ⟨hits', hcount, h⟩ := bind_eq_ok.mp h
  obtain ⟨rfl, rfl⟩ := Prod.mk.inj (Except.ok.inj h)
  exact ⟨⟨decoded, hdec⟩, countHits_spec hcount⟩

omit [Double F] in
theorem sendUntilWait_spec {ctx : Ctx F} {t : SendWaiting F} (h : sendUntilWait ctx = .ok t) :
    t.ctx = ctx ∧ ctx.asyncRecv (ctx.tableSize * ctx.rowSize * blockBytes) = .ok t.pending ∧
      ∀ i < ctx.set.length, ctx.rowAt t.masks i = ctx.maskOf i := by
  obtain ⟨pending, hpend, h⟩ := bind_eq_ok.mp h
  obtain ⟨masks, hmasks, h⟩ := bind_eq_ok.mp h
  obtain rfl := Except.ok.inj h
  exact ⟨rfl, hpend, (precomputeMasks_spec hmasks).2⟩

/-- The table `Send` sends is what its `RBEncode` left in the buffer. -/
theorem sendAfterWait_encode {seeds : ℕ → List Byte} {t : SendWaiting F} {d : SendDone F}
    {buf : List Block} {msgs : List (List Byte)}
    (h : sendAfterWait prims seeds t buf = .ok (d, msgs)) :
    d.ctx = t.ctx ∧
      (∃ decoded, rbDecodeFlat t.ctx.workers.env buf t.ctx.rowSize t.ctx.set t.ctx.rb =
        .ok decoded) ∧
      rbEncodeFlat d.ctx.workers.env d.ctx.set d.rows d.ctx.rowSize buf d.ctx.rb =
        .ok (d.encoded, d.buf) ∧ d.ctx.send d.buf = .ok msgs := by
  obtain ⟨decoded, hdec, h⟩ := bind_eq_ok.mp h
  obtain ⟨plain, -, h⟩ := bind_eq_ok.mp h
  obtain ⟨ct, -, h⟩ := bind_eq_ok.mp h
  obtain ⟨rows, -, h⟩ := bind_eq_ok.mp h
  obtain ⟨⟨encoded, buf'⟩, henc, h⟩ := bind_eq_ok.mp h
  obtain ⟨msgs', hmsgs, h⟩ := bind_eq_ok.mp h
  obtain ⟨rfl, rfl⟩ := Prod.mk.inj (Except.ok.inj h)
  exact ⟨rfl, ⟨decoded, hdec⟩, henc, hmsgs⟩

/-- The rows `Send` encodes, from the rows of the table it received. -/
theorem sendAfterWait_rows {seeds : ℕ → List Byte} {t : SendWaiting F} {d : SendDone F}
    {buf decoded : List Block} {msgs : List (List Byte)} (hpos : 0 < t.ctx.rowSize)
    (hmasks : ∀ j < t.ctx.set.length, t.ctx.rowAt t.masks j = t.ctx.maskOf j)
    (hdec : rbDecodeFlat t.ctx.workers.env buf t.ctx.rowSize t.ctx.set t.ctx.rb = .ok decoded)
    (hlen : decoded.length = t.ctx.set.length * t.ctx.rowSize)
    (h : sendAfterWait prims seeds t buf = .ok (d, msgs)) :
    d.rows.length = t.ctx.set.length * t.ctx.rowSize ∧
      ∀ j < t.ctx.set.length, ∃ pkRow ctRow out,
        unpermute t.ctx.peerPi (xorMask (t.ctx.maskOf j) (t.ctx.rowAt decoded j)) = .ok pkRow ∧
        encapRow prims t.ctx.kem t.ctx.rowSize (seeds j) j pkRow = .ok ctRow ∧
        (if t.ctx.bobPi then permute t.ctx.ownPi ctRow else .ok ctRow) = .ok out ∧
        out.length = t.ctx.rowSize ∧ t.ctx.rowAt d.rows j = xorMask (t.ctx.maskOf j) out := by
  obtain ⟨decoded', hdec', h⟩ := bind_eq_ok.mp h
  obtain rfl : decoded' = decoded := Except.ok.inj (hdec'.symm.trans hdec)
  obtain ⟨plain, hplain, h⟩ := bind_eq_ok.mp h
  obtain ⟨ct, hct, h⟩ := bind_eq_ok.mp h
  obtain ⟨rows, hrows, h⟩ := bind_eq_ok.mp h
  obtain ⟨⟨encoded, buf'⟩, -, h⟩ := bind_eq_ok.mp h
  obtain ⟨msgs', -, h⟩ := bind_eq_ok.mp h
  obtain ⟨rfl, rfl⟩ := Prod.mk.inj (Except.ok.inj h)
  obtain ⟨hplen, hp⟩ := Ctx.eachRow_spec hplain hlen (by
    intro j hj row row' hrlen hrow
    rw [length_unpermute hrow, hmasks j hj, length_xorMask, hrlen, Ctx.length_maskOf, min_self])
  obtain ⟨hclen, hc⟩ := encapRows_spec hplen hpos hct
  have hout : ∀ j < t.ctx.set.length, ∀ out,
      (if t.ctx.bobPi then permute t.ctx.ownPi (t.ctx.rowAt ct j)
        else .ok (t.ctx.rowAt ct j)) = .ok out → out.length = t.ctx.rowSize := by
    intro j hj out hout
    by_cases hbob : t.ctx.bobPi
    · rw [if_pos hbob] at hout
      rw [length_permute hout, Ctx.length_rowAt hj hclen]
    · rw [if_neg hbob] at hout
      rw [← Except.ok.inj hout, Ctx.length_rowAt hj hclen]
  obtain ⟨hrlen, hr⟩ := Ctx.eachRow_spec hrows hplen (by
    intro j hj row row' _ hrow
    obtain ⟨out, ho, hrow⟩ := bind_eq_ok.mp hrow
    rw [← Except.ok.inj hrow, hmasks j hj, length_xorMask, hout j hj out ho, Ctx.length_maskOf,
      min_self])
  refine ⟨hrlen, fun j hj => ?_⟩
  obtain ⟨out, ho, hrow⟩ := bind_eq_ok.mp (hr j hj)
  rw [← hmasks j hj]
  exact ⟨_, _, out, hp j hj, hc j hj, ho, hout j hj out ho, (Except.ok.inj hrow).symm⟩

end PqPsi.Protocol
