import PqPsi.Permutation.Factory
import PqPsi.Protocol.Intersection

/-!
# Runs with the permutations of the repository

The permutations that `makePi` returns permute the rows of the KEM that the
party runs with, so that no row is ever refused for its size. A run with them
needs no assumption on the permutations.
-/
namespace PqPsi.Protocol
open Lib Lib.Exceptions Okvs Permutation Permutation.Factory

section Objects

def toPermCfg (pi : PiCfg) : Factory.Cfg := ⟨pi.kind, pi.small, pi.lambda, pi.rounds⟩

/-- Directions that permute the rows of a size, as an object of the protocol. -/
def ofDirs {d : Dirs} {size : ℕ} (h : d.Permutes size) : Perm where
  encryptBytes := d.encryptBytes
  decryptBytes := d.decryptBytes
  length_encryptBytes hxy := by
    obtain ⟨hx, hy, -⟩ := h.of_eq_ok hxy
    exact hy.trans hx.symm
  length_decryptBytes hxy := by
    obtain ⟨hx, hy, -⟩ := h.symm.of_eq_ok hxy
    exact hy.trans hx.symm

/-- `makePi`, over the sponge behind SHAKE256. -/
def makePi (k : Feistel.Sponge) (pi : PiCfg) (party : ℕ) : Except Err Perm :=
  match h : make k (toPermCfg pi) (BitVec.ofNat 8 party) with
  | .ok _ => .ok (ofDirs (make_permutes h))
  | .error e => .error e

/-- The object permutes the rows of a size. -/
def Perm.Permutes (pi : Perm) (size : ℕ) : Prop :=
  Lib.Exceptions.Permutes (fun x => x.length = size) pi.encryptBytes pi.decryptBytes

theorem makePi_permutes {k : Feistel.Sponge} {cfg : PiCfg} {party : ℕ} {pi : Perm}
    (h : makePi k cfg party = .ok pi) : pi.Permutes (rowBytesOf cfg.kind) := by
  unfold makePi at h
  split at h
  next d hd =>
    rw [Except.ok.injEq] at h
    rw [← h]
    exact make_permutes hd
  next => cases h

/-- The permutations of the repository invert, with any other primitives. -/
theorem permInverts_of_makePi {prims : Primitives} {k : Feistel.Sponge}
    (hown : prims.makePi = makePi k) : prims.PermInverts := by
  intro cfg party pi x y hpi hxy
  rw [hown] at hpi
  exact ((makePi_permutes hpi).of_eq_ok hxy).2.2

end Objects

section Setup
variable {F : Type} [Double F]

/-- The rows of a KEM and of the permutation it runs with have one size. -/
theorem rowBytesOf_localPi {kem : PsiKemKind} {pi : PiCfg} (h : kem = .ecKem ∨ pi.kind ≠ .xoodoo) :
    rowBytesOf (localPi kem pi).kind = 16 * kemRowBlocks kem := by
  cases kem with
  | obfMlKem =>
    obtain ⟨kind, small, lambda, rounds, bobPi⟩ := pi
    cases kind with
    | xoodoo => simp at h
    | _ => rfl
  | ecKem => rfl

/-- Whatever `pqpsi` sets up, both permutations of the party permute the rows of its KEM. -/
theorem setup_permutes {prims : Primitives} {k : Feistel.Sponge} (hown : prims.makePi = makePi k)
    {env : Env} {kem : Option PsiKemKind} {pi : Option PiCfg} {me : ℕ} {args : Args F} {ctx : Ctx F}
    (h : setup prims env kem pi me args = .ok ctx) :
    ctx.ownPi.Permutes (16 * ctx.rowSize) ∧ ctx.peerPi.Permutes (16 * ctx.rowSize) := by
  simp only [setup, bind_eq_ok, throwIf_eq_ok, exists_const, pure_eq_ok, Except.ok.injEq] at h
  obtain ⟨-, rbInfo, -, hkem, ownPi, hownPi, peerPi, hpeerPi, rfl⟩ := h
  rw [hown] at hownPi hpeerPi
  have hrow : rowBytesOf (localPi (kem.getD .obfMlKem) (pi.getD piCfg)).kind =
      16 * kemRowBlocks (kem.getD .obfMlKem) := rowBytesOf_localPi (by tauto)
  exact ⟨hrow ▸ makePi_permutes hownPi, hrow ▸ makePi_permutes hpeerPi⟩

/-- A receiver that runs ML-KEM rows through HCTR2. -/
def hctrCfg : PiCfg := { piCfg with kind := .hctr }

theorem setup_permutes_hctr : ∃ ctx : Ctx ℚ,
    setup { sessionPrims with makePi := makePi Feistel.sampleSponge } sessionEnv none (some hctrCfg) 0
      ⟨[1#128, 4#128], 2, some sampleParams, none⟩ = .ok ctx ∧
    ctx.ownPi.Permutes (16 * ctx.rowSize) ∧ ctx.peerPi.Permutes (16 * ctx.rowSize) := by
  have hok : (setup { sessionPrims with makePi := makePi Feistel.sampleSponge } sessionEnv none
      (some hctrCfg) 0 (⟨[1#128, 4#128], 2, some sampleParams, none⟩ : Args ℚ)).isOk = true := by
    decide +kernel
  generalize hsetup : setup { sessionPrims with makePi := makePi Feistel.sampleSponge } sessionEnv
    none (some hctrCfg) 0 (⟨[1#128, 4#128], 2, some sampleParams, none⟩ : Args ℚ) = result at hok
  cases result with
  | error e => cases hok
  | ok ctx => exact ⟨ctx, rfl, setup_permutes rfl hsetup⟩

end Setup

section Runs
variable {F : Type} [Double F] {sys : System F}

/-- The count of a finished run with these permutations: when both encodings succeeded it is the
size of the intersection and the number of other rows that pass the check by chance. -/
theorem hits_of_done {k : Feistel.Sponge} (hown : sys.prims.makePi = makePi k)
    {columns bandWidth : ℕ} (hc : sys.Compatible columns bandWidth)
    (hkem : sys.prims.KemCorrect (sys.kem.getD .obfMlKem)) {s : State F} (hi : Inv sys s)
    {r : RecvWaiting F} {rows : List Block} {hits : ℕ} {d : SendDone F}
    (hr : s.recv = .done r rows hits) (hd : s.send = .done d) (henc : r.encoded = true)
    (henc' : d.encoded = true) :
    hits = (Finset.univ.filter fun i : Fin sys.recvArgs.set.length =>
        sys.recvArgs.set.get i ∈ sys.sendArgs.set).card +
      (Finset.univ.filter fun i : Fin sys.recvArgs.set.length =>
        sys.recvArgs.set.get i ∉ sys.sendArgs.set ∧ r.hit sys.prims rows i = true).card := by
  obtain ⟨hrecv, t, hsend, hafter₁, hafter₂⟩ := hi.delivered hc hr hd
  have hshared : ∀ i : Fin sys.recvArgs.set.length, sys.recvArgs.set.get i ∈ sys.sendArgs.set →
      r.hit sys.prims rows i = true := by
    intro i hmem
    obtain ⟨j, hj, hkey⟩ := List.mem_iff_getElem.mp hmem
    exact hit_of_shared (permInverts_of_makePi hown) hkem hc hrecv hsend hafter₁ hafter₂ henc
      henc' i.isLt hj hkey
  obtain ⟨hR, hrspec⟩ := recvStart_spec hrecv
  obtain ⟨-, hcount⟩ := recvAfterWait_hits hafter₂
  rw [hcount, hrspec.length_sk, hR.set_eq, countP_range]
  exact card_filter_add (p := r.hit sys.prims rows) hshared

end Runs

end PqPsi.Protocol
