import PqPsi.Lib.Permutes
import PqPsi.Permutation.ConsDefaults
import PqPsi.Permutation.KeccakInverse
import PqPsi.Permutation.SneikInverse

/-!
# The adapters of the small permutations

An adapter checks the size of a buffer before it hands it to Keccak or to
SNEIK. The Keccak adapter takes a number of rounds, but it has objects for the
nominal numbers and for the last twelve rounds of 1600 bits only. With these
adapters `ConsPi` is invertible for all its default parameters.
-/
namespace PqPsi.Permutation.Adapters
open Lib Lib.BitLists Lib.BitStream Lib.Exceptions Protocol Keccak

section Names

/-- `pi::name`. -/
def name : SmallKind → String
  | .keccak800 => "keccak800"
  | .keccak1600 => "keccak1600"
  | .keccak1600R12 => "keccak1600-12"
  | .sneikF512 => "sneik-f512"

def parseKind (text : String) : Except Err SmallKind :=
  if text = "keccak800" ∨ text = "k800" then .ok .keccak800
  else if text = "keccak1600" ∨ text = "k1600" then .ok .keccak1600
  else if text = "keccak1600-12" ∨ text = "keccak-p1600-12" ∨ text = "k1600-12" ∨
      text = "k1600r12" then .ok .keccak1600R12
  else if text = "sneik" ∨ text = "sneik512" ∨ text = "sneik-f512" ∨ text = "f512" then
    .ok .sneikF512
  else .error ("unknown pi permutation: " ++ text)

theorem parseKind_name (kind : SmallKind) : parseKind (name kind) = .ok kind := by
  cases kind <;> decide

end Names

section Classes

/-- An object of a class derived from `pi::Perm`. -/
structure Perm where
  kind : SmallKind
  bits : ℕ
  rounds : ℕ
  apply : List Byte → Except Err (List Byte)
  invert : List Byte → Except Err (List Byte)

def Perm.bytes (p : Perm) : ℕ := p.bits / 8

def nominalRounds : ℕ → Except Err ℕ
  | 800 => .ok 22
  | 1600 => .ok 24
  | _ => .error "unknown Keccak width"

/-- The body of the constructor of `Keccak`. -/
def checkRounds (width rounds : ℕ) : Except Err Unit := do
  throwIf (width ≠ 800 ∧ width ≠ 1600) "Keccak adapter supports 800 or 1600 bits"
  let nominal ← nominalRounds width
  throwIf (rounds = 0 ∨ rounds > nominal) "Keccak round count is invalid"

/-- An object of class `Keccak`: its constructor has accepted the width and the rounds. -/
structure Keccak where
  width : ℕ
  rounds : ℕ
  accepted : checkRounds width rounds = .ok ()

/-- The constructor of `Keccak`, for which no rounds stand for the nominal number. -/
def keccak (widthBits rounds : ℕ) : Except Err Keccak :=
  match if rounds = 0 then nominalRounds widthBits else .ok rounds with
  | .error e => .error e
  | .ok rounds =>
    match h : checkRounds widthBits rounds with
    | .ok () => .ok ⟨widthBits, rounds, h⟩
    | .error e => .error e

namespace Keccak
variable (k : Keccak)

def kind : SmallKind :=
  if k.width = 1600 ∧ k.rounds = 12 then .keccak1600R12
  else if k.width = 800 then .keccak800 else .keccak1600

def check (buf : List Byte) : Except Err Unit :=
  throwIf (buf.length ≠ k.width / 8) "Keccak buffer size mismatch"

/-- The object of KeccakTools that the adapter runs. -/
def inst : Except Err KeccakF :=
  if k.width = 800 then keccakFNominal 800
  else if k.rounds = 12 then keccakP 1600 12
  else keccakFNominal 1600

def toPerm : Perm where
  kind := k.kind
  bits := k.width
  rounds := k.rounds
  apply buf := do
    k.check buf
    return (← k.inst).apply buf
  invert buf := do
    k.check buf
    return (← k.inst).invert buf

end Keccak

/-- An object of class `Sneik`. -/
def sneik : Perm where
  kind := .sneikF512
  bits := 512
  rounds := 8
  apply buf := do
    throwIf (buf.length ≠ 64) "SNEIK-f512 buffer size mismatch"
    return Sneik.sneikF512 buf 0 8
  invert buf := do
    throwIf (buf.length ≠ 64) "SNEIK-f512 buffer size mismatch"
    Sneik.invert buf 0 8

def makePerm : SmallKind → Except Err Perm
  | .keccak800 => (keccak 800 0).map Keccak.toPerm
  | .keccak1600 => (keccak 1600 0).map Keccak.toPerm
  | .keccak1600R12 => (keccak 1600 12).map Keccak.toPerm
  | .sneikF512 => .ok sneik

end Classes

section Objects

/-- What the holder of a `Perm` relies on: it permutes the buffers of its size. -/
def Perm.Works (p : Perm) : Prop := Permutes (fun buf => buf.length = p.bytes) p.apply p.invert

variable (k : Keccak)

theorem keccak_cases : (k.width = 800 ∧ 0 < k.rounds ∧ k.rounds ≤ 22) ∨
    (k.width = 1600 ∧ 0 < k.rounds ∧ k.rounds ≤ 24) := by
  have h := k.accepted
  simp only [checkRounds, bind_eq_ok, throwIf_eq_ok, exists_const] at h
  obtain ⟨hwidth, nominal, hnominal, hrounds⟩ := h
  have hcases : k.width = 800 ∨ k.width = 1600 := by omega
  rcases hcases with h800 | h1600
  · rw [h800, nominalRounds, Except.ok.injEq] at hnominal
    exact .inl ⟨h800, by omega, by omega⟩
  · rw [h1600, nominalRounds, Except.ok.injEq] at hnominal
    exact .inr ⟨h1600, by omega, by omega⟩

theorem width_mod : k.width % 8 = 0 := by
  rcases keccak_cases k with ⟨h, -, -⟩ | ⟨h, -, -⟩ <;> rw [h]

/-- The rounds that are run, which need not be the `rounds` of the adapter. -/
def Keccak.roundsRun : ℕ := if k.width = 800 then 22 else if k.rounds = 12 then 12 else 24

theorem inst_spec : ∃ f, k.inst = .ok f ∧ f.width = k.width ∧ f.nrRounds = k.roundsRun ∧
    f.startRoundIndex = f.nominalNrRounds - k.roundsRun ∧ f.RoundsFit := by
  rcases keccak_cases k with ⟨h800, -, -⟩ | ⟨h1600, -, -⟩
  · refine ⟨⟨800, 0, 22, 22, rfl⟩, ?_, h800.symm, ?_, ?_, by decide⟩
    · rw [Keccak.inst, if_pos h800]
      rfl
    · rw [Keccak.roundsRun, if_pos h800]
    · rw [Keccak.roundsRun, if_pos h800]
      rfl
  · have hne : k.width ≠ 800 := by omega
    rw [Keccak.inst, Keccak.roundsRun, if_neg hne, if_neg hne]
    by_cases h12 : k.rounds = 12
    · rw [if_pos h12, if_pos h12]
      exact ⟨⟨1600, 12, 12, 24, rfl⟩, by rfl, h1600.symm, rfl, by rfl, by decide⟩
    · rw [if_neg h12, if_neg h12]
      exact ⟨⟨1600, 0, 24, 24, rfl⟩, by rfl, h1600.symm, rfl, by rfl, by decide⟩

theorem keccak_works : k.toPerm.Works := by
  obtain ⟨f, hf, hwidth, -, -, hfit⟩ := inst_spec k
  have h8 := width_mod k
  have hclear : ∀ buf : List Byte, f.clearSpare buf = buf := by
    intro buf
    rw [KeccakF.clearSpare, hwidth, if_pos h8]
  have hsize : ∀ buf : List Byte, buf.length = k.width / 8 → (f.width + 7) / 8 ≤ buf.length := by
    intro buf hlen
    omega
  refine Permutes.of_checked (e := "Keccak buffer size mismatch") (F := f.apply) (G := f.invert)
    (fun buf => ?_) (fun buf => ?_) (fun buf hlen => ⟨?_, ?_⟩) (fun buf hlen => ⟨?_, ?_⟩)
  · simp only [Keccak.toPerm, Keccak.check, hf, ok_bind, pure_eq_ok, throwIf_ne_bind, Perm.bytes]
  · simp only [Keccak.toPerm, Keccak.check, hf, ok_bind, pure_eq_ok, throwIf_ne_bind, Perm.bytes]
  · exact (KeccakF.apply_spec hfit (hsize buf hlen)).1.trans hlen
  · rw [KeccakF.invert_apply_cancel hfit (hsize buf hlen), hclear]
  · exact (KeccakF.length_invert hfit (hsize buf hlen)).trans hlen
  · rw [KeccakF.apply_invert_cancel hfit (hsize buf hlen), hclear]

/-- The tables of the inverse are found for both linear layers. -/
theorem exists_invertWith : ∃ unA unB : Sneik.Word → Sneik.Word,
    (∀ x, unA (Sneik.linA x) = x ∧ Sneik.linA (unA x) = x) ∧
      (∀ x, unB (Sneik.linB x) = x ∧ Sneik.linB (unB x) = x) ∧
      ∀ s dom rounds, Sneik.invert s dom rounds = .ok (Sneik.invertWith unA unB s dom rounds) := by
  obtain ⟨invA, hA, hA₁, hA₂⟩ := Sneik.applyInv_invMatrix Sneik.linA_linear
    (Function.LeftInverse.injective fun x => (Sneik.unlin_linA x).1)
  obtain ⟨invB, hB, hB₁, hB₂⟩ := Sneik.applyInv_invMatrix Sneik.linB_linear
    (Function.LeftInverse.injective fun x => (Sneik.unlin_linB x).1)
  obtain ⟨unA, hunA⟩ : ∃ f : Sneik.Word → Sneik.Word, f = (Sneik.applyInv · (Sneik.invTable invA)) :=
    ⟨_, rfl⟩
  obtain ⟨unB, hunB⟩ : ∃ f : Sneik.Word → Sneik.Word, f = (Sneik.applyInv · (Sneik.invTable invB)) :=
    ⟨_, rfl⟩
  refine ⟨unA, unB, fun x => ?_, fun x => ?_, fun s dom rounds => ?_⟩
  · exact hunA ▸ ⟨hA₂ x, hA₁ x⟩
  · exact hunB ▸ ⟨hB₂ x, hB₁ x⟩
  · rw [Sneik.invert, hA, hB, hunA, hunB]
    rfl

theorem sneik_works : sneik.Works := by
  obtain ⟨unA, unB, hA, hB, hinvert⟩ := exists_invertWith
  refine Permutes.of_checked (e := "SNEIK-f512 buffer size mismatch")
    (F := (Sneik.sneikF512 · 0 8)) (G := (Sneik.invertWith unA unB · 0 8))
    (fun buf => ?_) (fun buf => ?_) (fun buf hlen => ⟨Sneik.length_store _, ?_⟩)
    (fun buf hlen => ⟨Sneik.length_store _, ?_⟩)
  · exact throwIf_ne_bind _ _
  · exact (throwIf_ne_bind _ _).trans (by rw [hinvert]; rfl)
  · exact Sneik.invertWith_sneikF512 (fun x => (hA x).1) (fun x => (hB x).1) hlen 0 8
  · exact Sneik.sneikF512_invertWith (fun x => (hA x).2) (fun x => (hB x).2) hlen 0 8

/-- Every kind has an adapter of its name and width, which works. -/
theorem makePerm_spec (kind : SmallKind) : ∃ p, makePerm kind = .ok p ∧ p.kind = kind ∧
    p.bits = widthOf kind ∧ p.Works := by
  cases kind with
  | keccak800 => exact ⟨_, rfl, rfl, rfl, keccak_works ⟨800, 22, rfl⟩⟩
  | keccak1600 => exact ⟨_, rfl, rfl, rfl, keccak_works ⟨1600, 24, rfl⟩⟩
  | keccak1600R12 => exact ⟨_, rfl, rfl, rfl, keccak_works ⟨1600, 12, rfl⟩⟩
  | sneikF512 => exact ⟨_, rfl, rfl, rfl, sneik_works⟩

end Objects

section Rounds
variable (k : Keccak)

/-- The adapter runs Keccak-p on the bits of its buffer, from the last nominal rounds. It runs the
`rounds` it was built for if these are all of them, or twelve of 1600 bits; other numbers are
accepted and ignored. -/
theorem keccak_runs {buf : List Byte} (hlen : buf.length = k.width / 8) :
    ∃ f nominal out, k.inst = .ok f ∧ f.width = k.width ∧ nominalRounds k.width = .ok nominal ∧
      k.toPerm.apply buf = .ok out ∧ out.length = buf.length ∧
      KeccakP.ofString (KeccakF.bitString out) =
        KeccakP.perm (w := f.laneSize) (nominal - k.roundsRun) k.roundsRun
          (KeccakP.ofString (KeccakF.bitString buf)) ∧
      (k.roundsRun = k.rounds ↔ k.rounds = nominal ∨ (k.width = 1600 ∧ k.rounds = 12)) := by
  obtain ⟨f, hf, hwidth, hrun, hstart, hfit⟩ := inst_spec k
  have h8 := width_mod k
  obtain ⟨hlength, hbits, -⟩ := KeccakF.apply_spec hfit (s := buf) (by omega)
  have hnominal : nominalRounds k.width = .ok f.nominalNrRounds := by
    have haccepted := f.accepted
    rw [hwidth] at haccepted
    rcases keccak_cases k with ⟨h, -, -⟩ | ⟨h, -, -⟩ <;> rw [h] at haccepted ⊢ <;>
      exact haccepted
  refine ⟨f, f.nominalNrRounds, _, hf, hwidth, hnominal, ?_, hlength, ?_, ?_⟩
  · simp only [Keccak.toPerm, Keccak.check, hf, ok_bind, pure_eq_ok, throwIf_ne_bind, if_pos hlen]
  · rw [hbits, hstart, hrun, Int.toNat_sub]
  · rcases keccak_cases k with ⟨h, -, -⟩ | ⟨h, -, -⟩ <;> rw [h, nominalRounds, Except.ok.injEq] at hnominal
    · rw [Keccak.roundsRun, if_pos h]
      omega
    · rw [Keccak.roundsRun, if_neg (by omega)]
      split_ifs <;> omega

/-- An adapter for twelve rounds of 800 bits reports them, but runs all 22. -/
theorem keccak_runs_twelve :
    ∃ f nominal out, (⟨800, 12, rfl⟩ : Keccak).inst = .ok f ∧ f.width = 800 ∧
      nominalRounds 800 = .ok nominal ∧
      (⟨800, 12, rfl⟩ : Keccak).toPerm.apply (List.replicate 100 0#8) = .ok out ∧
      out.length = (List.replicate 100 0#8).length ∧
      KeccakP.ofString (KeccakF.bitString out) =
        KeccakP.perm (w := f.laneSize) (nominal - 22) 22
          (KeccakP.ofString (KeccakF.bitString (List.replicate 100 0#8))) ∧
      (22 = 12 ↔ 12 = nominal ∨ (800 = 1600 ∧ 12 = 12)) :=
  keccak_runs ⟨800, 12, rfl⟩ (by decide)

end Rounds

section Construction

/-- A direction of the adapter of a kind. The buffer of `ConsPi` stays as it is if the adapter
throws, which it never does for a buffer of its width. -/
def run (dir : Perm → List Byte → Except Err (List Byte)) (kind : SmallKind) (buf : List Byte) :
    List Byte :=
  match makePerm kind >>= fun p => dir p buf with
  | .ok out => out
  | .error _ => buf

theorem length_run {dir back : Perm → List Byte → Except Err (List Byte)}
    (hdir : ∀ p : Perm, p.Works → Permutes (fun buf => buf.length = p.bytes) (dir p) (back p))
    (kind : SmallKind) (buf : List Byte) : (run dir kind buf).length = buf.length := by
  obtain ⟨p, hp, -, -, hworks⟩ := makePerm_spec kind
  rw [run, hp, ok_bind]
  split
  next out hout =>
    obtain ⟨hbuf, hlen, -⟩ := (hdir p hworks).of_eq_ok hout
    exact hlen.trans hbuf.symm
  next => rfl

/-- The small permutations of the repository. -/
def smalls : Smalls where
  apply := run Perm.apply
  invert := run Perm.invert
  length_apply := length_run fun _ h => h
  length_invert := length_run fun _ h => Permutes.symm h

/-- On the buffers of `ConsPi` no adapter throws, and both directions undo each other. -/
theorem smalls_spec (kind : SmallKind) : ∃ p, makePerm kind = .ok p ∧
    p.bytes = (Permutation.makePerm smalls kind).bytes ∧
    (∀ buf, buf.length = p.bytes → p.apply buf = .ok (smalls.apply kind buf) ∧
      p.invert buf = .ok (smalls.invert kind buf)) ∧
    (Permutation.makePerm smalls kind).Inverts := by
  obtain ⟨p, hp, -, hbits, hworks⟩ := makePerm_spec kind
  have hbytes : p.bytes = (Permutation.makePerm smalls kind).bytes := by
    rw [Perm.bytes, hbits]
    cases kind <;> rfl
  have happly : ∀ buf out, p.apply buf = .ok out → smalls.apply kind buf = out := by
    intro buf out hout
    simp only [smalls, run, hp, ok_bind, hout]
  have hinvert : ∀ buf out, p.invert buf = .ok out → smalls.invert kind buf = out := by
    intro buf out hout
    simp only [smalls, run, hp, ok_bind, hout]
  refine ⟨p, hp, hbytes, fun buf hlen => ?_, fun buf hlen => ?_⟩
  · obtain ⟨out, hout, -⟩ := hworks.forth buf hlen
    obtain ⟨out', hout', -⟩ := hworks.back buf hlen
    rw [happly buf out hout, hinvert buf out' hout']
    exact ⟨hout, hout'⟩
  · rw [← hbytes] at hlen
    obtain ⟨out, hout, -, hback⟩ := hworks.forth buf hlen
    obtain ⟨out', hout', -, hback'⟩ := hworks.back buf hlen
    have h₁ : (Permutation.makePerm smalls kind).apply buf = out := happly buf out hout
    have h₂ : (Permutation.makePerm smalls kind).invert buf = out' := hinvert buf out' hout'
    rw [h₁, h₂]
    exact ⟨hinvert _ _ hback, happly _ _ hback'⟩

/-- A `ConsPi` around a permutation that inverts permutes the rows of its own size. -/
theorem consPi_permutes {c : ConsPi} (hinv : c.small.Inverts) :
    Permutes (fun x => c.params.N = 8 * x.length) c.encryptBytes c.decryptBytes := by
  have hbits : ∀ {x : List Byte}, c.params.N = 8 * x.length → (bitsOf x).length = c.params.N := by
    intro x hlen
    rw [length_bitsOf, hlen]
  constructor
  case refuses =>
    intro x hx
    have hsize : x.length * 8 ≠ c.params.N := by omega
    refine ⟨⟨"Pi byte state size mismatch", ?_⟩, "Pi byte state size mismatch", ?_⟩
    · rw [ConsPi.encryptBytes, throwIf, if_pos hsize, error_bind]
    · rw [ConsPi.decryptBytes, throwIf, if_pos hsize, error_bind]
  case forth =>
    intro x hlen
    obtain ⟨y, henc, hy, hybits⟩ := ConsPi.encryptBytes_spec hlen
    obtain ⟨z, hdec, -, hzbits⟩ := ConsPi.decryptBytes_spec hy
    rw [hybits, ConsPi.plainDecrypt_plainEncrypt hinv (hbits hlen)] at hzbits
    exact ⟨y, henc, hy, by rw [hdec, bitsOf_injective hzbits]⟩
  case back =>
    intro x hlen
    obtain ⟨y, hdec, hy, hybits⟩ := ConsPi.decryptBytes_spec hlen
    obtain ⟨z, henc, -, hzbits⟩ := ConsPi.encryptBytes_spec hy
    rw [hybits, ConsPi.plainEncrypt_plainDecrypt hinv (hbits hlen)] at hzbits
    exact ⟨y, hdec, hy, by rw [henc, bitsOf_injective hzbits]⟩

/-- What `defaults` finds is accepted, and the object permutes the rows of its size. -/
theorem exists_consPi_permutes {kind : SmallKind} {N lambda : ℕ} {params : Params}
    (h : defaults kind N lambda = .ok params) (party : ℕ) :
    ∃ c, consPi smalls params party = .ok c ∧
      Permutes (fun x => N = 8 * x.length) c.encryptBytes c.decryptBytes := by
  obtain ⟨hkind, hcheck⟩ := checkParams_defaults smalls h
  obtain ⟨-, hparams⟩ := defaults_eq_ok h
  obtain ⟨c, hc⟩ : ∃ c, consPi smalls params party = .ok c := exists_consPi party (by rwa [hkind])
  obtain ⟨hcparams, hsmall⟩ := consPi_eq_ok hc
  obtain ⟨-, -, -, -, hinv⟩ := smalls_spec kind
  have hN : c.params.N = N := by rw [hcparams, hparams]
  have hpermutes := consPi_permutes (c := c) (by rwa [hsmall, hkind])
  rw [hN] at hpermutes
  exact ⟨c, hc, hpermutes⟩

/-- The construction around the repository's own small permutations, with any parameters that
`defaults` finds for whole bytes, is a permutation of the rows, and `decryptBytes` is its
inverse. -/
theorem consPi_defaults_inverts {kind : SmallKind} {N lambda : ℕ} {params : Params}
    (h : defaults kind N lambda = .ok params) (h8 : N % 8 = 0) (party : ℕ) :
    ∃ c, consPi smalls params party = .ok c ∧
      Permutes (fun x => x.length = N / 8) c.encryptBytes c.decryptBytes := by
  obtain ⟨c, hc, hpermutes⟩ := exists_consPi_permutes h party
  have hset : (fun x : List Byte => x.length = N / 8) = fun x => N = 8 * x.length := by
    funext x
    exact propext ⟨fun hx => by omega, fun hx => by omega⟩
  exact ⟨c, hc, hset ▸ hpermutes⟩

/-- Keccak-f[1600] with rows of 800 bytes and the default `lambda`. -/
theorem defaults_keccak1600 :
    defaults .keccak1600 6400 128 = .ok ⟨.keccak1600, 1600, 6400, 1200, 128⟩ := by
  have hbest : bestStep (widthOf .keccak1600) 6400 128 = .ok 1200 := by decide +kernel
  rw [defaults, hbest, ok_bind, pure_eq_ok, widthOf]

theorem consPi_defaults_inverts_keccak :
    ∃ c, consPi smalls ⟨.keccak1600, 1600, 6400, 1200, 128⟩ 1 = .ok c ∧
      Permutes (fun x => x.length = 6400 / 8) c.encryptBytes c.decryptBytes :=
  consPi_defaults_inverts defaults_keccak1600 (by decide) 1

end Construction

end PqPsi.Permutation.Adapters
