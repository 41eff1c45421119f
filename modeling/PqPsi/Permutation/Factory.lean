import PqPsi.Permutation.Adapters
import PqPsi.Permutation.AesRounds
import PqPsi.Permutation.Feistel
import PqPsi.Permutation.Hctr2Buffers
import PqPsi.Permutation.XoodooInverse

/-!
# The row permutations

`make` builds the permutation of a party from a configuration. Whatever it
returns permutes the rows of one size, 48 bytes for Xoodoo and 800 bytes for
the others, and refuses every other row with an exception.
-/
namespace PqPsi.Permutation.Factory
open Lib.Exceptions Protocol

section Hctr

/-- AES of cryptoTools, as `hctr2::Aes` holds it. -/
def aesLib : Hctr2.AesLib where
  ecbEncBlock key b := (Aes.AES.setKey key).ecbEncBlock b
  ecbEncBlocks key bs := (Aes.AES.setKey key).ecbEncBlocks bs (List.replicate bs.length 0)
  ecbDecBlock key b := (Aes.AESDec.setKey key).ecbDecBlock b

theorem aesLib_lawful : aesLib.Lawful where
  dec_enc key b := Aes.ecbDecBlock_ecbEncBlock key b
  encBlocks_eq key bs := by
    have hlen : bs.length ≤ (List.replicate bs.length (0 : Block)).length := by simp
    have hblocks := Aes.ecbEncBlocks_eq (Aes.AES.setKey key) hlen
    rw [List.drop_replicate, Nat.sub_self, List.replicate_zero, List.append_nil] at hblocks
    exact hblocks

/-- The text `pqpsi-hctr2-ke0!` with the party in place of the zero. -/
def partyKey (party : Byte) : List Byte :=
  [0x70, 0x71, 0x70, 0x73, 0x69, 0x2d, 0x68, 0x63, 0x74, 0x72, 0x32, 0x2d, 0x6b, 0x65,
    0x30 + (party &&& 1), 0x21]

/-- The text `pqpsi-hctr2-tw0!` with the party in place of the zero. -/
def partyTweak (party : Byte) : List Byte :=
  [0x70, 0x71, 0x70, 0x73, 0x69, 0x2d, 0x68, 0x63, 0x74, 0x72, 0x32, 0x2d, 0x74, 0x77,
    0x30 + (party &&& 1), 0x21]

/-- `Hctr::makeKey`. -/
def hctrKey (party : Byte) : Hctr2.Key :=
  Hctr2.makeKey aesLib (blockOfBytes (partyKey party)) (partyTweak party)

/-- What a caller sees of a fault: `Hctr` only ever throws. -/
def thrown : Hctr2.Fault → Err
  | .thrown e => e
  | .outOfBounds => "out of bounds"

/-- `Hctr::crypt`. -/
def hctrCrypt (party : Byte) (encrypt : Bool) (data : List Byte) : Except Err (List Byte) :=
  (Hctr2.hctrCrypt (hctrKey party) data encrypt).mapError thrown

end Hctr

section Make

/-- `pqperm::Cfg`. -/
structure Cfg where
  kind : PermKind
  small : SmallKind
  lambda : ℕ
  rounds : ℕ

/-- `KEM_key_size_bit`. -/
def kemKeySizeBit : ℕ := kemKeyBlockSize * blockBytes * 8

/-- The two directions of an object of a class derived from `pqperm::Perm`. -/
structure Dirs where
  encryptBytes : List Byte → Except Err (List Byte)
  decryptBytes : List Byte → Except Err (List Byte)

/-- `pqperm::make`, over the sponge behind SHAKE256. -/
def make (k : Feistel.Sponge) (cfg : Cfg) (party : Byte) : Except Err Dirs :=
  match cfg.kind with
  | .consPi => do
    let params ← defaults cfg.small kemKeySizeBit cfg.lambda
    let c ← consPi Adapters.smalls params party.toNat
    return ⟨c.encryptBytes, c.decryptBytes⟩
  | .hctr => return ⟨hctrCrypt party true, hctrCrypt party false⟩
  | .feistel => do
    let f ← Feistel.makeFeistel cfg.rounds party
    return ⟨Feistel.encryptBytes k f, Feistel.decryptBytes k f⟩
  | .xoodoo => return ⟨Xoodoo.encryptBytes, Xoodoo.decryptBytes⟩

end Make

section Names

/-- `pqperm::name`. -/
def name : PermKind → String
  | .consPi => "conspi"
  | .hctr => "hctr"
  | .feistel => "feistel"
  | .xoodoo => "xoodoo"

/-- `std::stoull` on decimal digits. -/
def stoull (digits : List Char) : Except Err ℕ :=
  let value := Nat.ofDigitChars 10 digits 0
  if value < 2 ^ 64 then .ok value else .error "stoull"

/-- The text `feistel-`. -/
def feistelPrefix : List Char := ['f', 'e', 'i', 's', 't', 'e', 'l', '-']

/-- `pqperm::set`. A name that is none of a row permutation is one of a small permutation. -/
def set (cfg : Cfg) (text : String) : Except Err Cfg :=
  if text = "conspi" ∨ text = "cons-pi" ∨ text = "pi" then .ok { cfg with kind := .consPi }
  else if text = "hctr" ∨ text = "hctr2" then .ok { cfg with kind := .hctr }
  else if text = "feistel" then .ok { cfg with kind := .feistel }
  else if text.toList.take feistelPrefix.length = feistelPrefix then
    let tail := text.toList.drop feistelPrefix.length
    if tail = [] ∨ ¬ tail.all Char.isDigit then .error ("bad feistel round count: " ++ text)
    else do
      let rounds ← stoull tail
      return { cfg with kind := .feistel, rounds }
  else if text = "xoodoo" then .ok { cfg with kind := .xoodoo }
  else do
    let small ← Adapters.parseKind text
    return { cfg with kind := .consPi, small }

theorem set_name (cfg : Cfg) (kind : PermKind) : set cfg (name kind) = .ok { cfg with kind } := by
  cases kind <;> rfl

theorem set_small (cfg : Cfg) (small : SmallKind) :
    set cfg (Adapters.name small) = .ok { cfg with kind := .consPi, small } := by
  cases small <;> rfl

/-- The text in front of a count is none of the other names. -/
theorem feistelPrefix_ne (digits : String) {text : String}
    (h : text.toList.take feistelPrefix.length ≠ feistelPrefix) : "feistel-" ++ digits ≠ text := by
  rintro rfl
  have hlist : ("feistel-" ++ digits).toList = feistelPrefix ++ digits.toList := by
    rw [String.toList_append]
    rfl
  rw [hlist, List.take_left] at h
  exact h rfl

/-- A count of rounds in decimal is read back, as long as it fits the type. -/
theorem set_feistel (cfg : Cfg) (n : ℕ) : set cfg ("feistel-" ++ n.repr) =
    if n < 2 ^ 64 then .ok { cfg with kind := .feistel, rounds := n } else .error "stoull" := by
  have hlist : ("feistel-" ++ n.repr).toList = feistelPrefix ++ Nat.toDigits 10 n := by
    rw [String.toList_append, Nat.toList_repr]
    rfl
  have hdigits : (Nat.toDigits 10 n).all Char.isDigit = true :=
    List.all_eq_true.mpr fun c hc => Nat.isDigit_of_mem_toDigits (by norm_num) le_rfl hc
  have hbad : ¬ (Nat.toDigits 10 n = [] ∨ ¬ (Nat.toDigits 10 n).all Char.isDigit = true) :=
    not_or.mpr ⟨Nat.toDigits_ne_nil, not_not.mpr hdigits⟩
  have hcons : ¬ ("feistel-" ++ n.repr = "conspi" ∨ "feistel-" ++ n.repr = "cons-pi" ∨
      "feistel-" ++ n.repr = "pi") :=
    not_or.mpr ⟨feistelPrefix_ne _ (by decide),
      not_or.mpr ⟨feistelPrefix_ne _ (by decide), feistelPrefix_ne _ (by decide)⟩⟩
  have hhctr : ¬ ("feistel-" ++ n.repr = "hctr" ∨ "feistel-" ++ n.repr = "hctr2") :=
    not_or.mpr ⟨feistelPrefix_ne _ (by decide), feistelPrefix_ne _ (by decide)⟩
  have hplain : "feistel-" ++ n.repr ≠ "feistel" := feistelPrefix_ne _ (by decide)
  have htake : ("feistel-" ++ n.repr).toList.take feistelPrefix.length = feistelPrefix := by
    rw [hlist, List.take_left]
  have hdrop : ("feistel-" ++ n.repr).toList.drop feistelPrefix.length = Nat.toDigits 10 n := by
    rw [hlist, List.drop_left]
  rw [set, if_neg hcons, if_neg hhctr, if_neg hplain, if_pos htake, hdrop, if_neg hbad, stoull,
    Nat.ofDigitChars_ten_toDigits]
  split_ifs <;> rfl

theorem stoull_lt {digits : List Char} {n : ℕ} (h : stoull digits = .ok n) : n < 2 ^ 64 := by
  simp only [stoull] at h
  split_ifs at h with hlt
  rw [Except.ok.injEq] at h
  rwa [← h]

/-- What a name can change. -/
theorem set_cases {cfg cfg' : Cfg} {text : String} (h : set cfg text = .ok cfg') :
    (∃ kind, cfg' = { cfg with kind }) ∨
      (∃ rounds < 2 ^ 64, cfg' = { cfg with kind := .feistel, rounds }) ∨
      ∃ small, cfg' = { cfg with kind := .consPi, small } := by
  simp only [set] at h
  split_ifs at h
  · exact .inl ⟨_, (Except.ok.inj h).symm⟩
  · exact .inl ⟨_, (Except.ok.inj h).symm⟩
  · exact .inl ⟨_, (Except.ok.inj h).symm⟩
  · obtain ⟨rounds, hrounds, h⟩ := bind_eq_ok.mp h
    exact .inr (.inl ⟨rounds, stoull_lt hrounds, (Except.ok.inj h).symm⟩)
  · exact .inl ⟨_, (Except.ok.inj h).symm⟩
  · obtain ⟨small, -, h⟩ := bind_eq_ok.mp h
    exact .inr (.inr ⟨small, (Except.ok.inj h).symm⟩)

end Names

section Rows

/-- The size of the rows that a kind permutes. -/
def rowBytesOf : PermKind → ℕ
  | .xoodoo => 48
  | _ => 800

/-- The directions permute the rows of a size. -/
def Dirs.Permutes (d : Dirs) (size : ℕ) : Prop :=
  Lib.Exceptions.Permutes (fun x => x.length = size) d.encryptBytes d.decryptBytes

theorem exists_crypt (party : Byte) (encrypt : Bool) {x : List Byte} (hx : x.length = 800) :
    ∃ y, Hctr2.crypt x (hctrKey party) encrypt = .ok y ∧ y.length = 800 ∧
      Hctr2.crypt y (hctrKey party) (!encrypt) = .ok x := by
  have hlaw : (hctrKey party).aes.lib.Lawful := aesLib_lawful
  have hfull : (x.length - 16) / 16 ≤ Hctr2.bufferBlocks := by
    rw [hx]
    decide
  have hout := Hctr2.crypt_eq hlaw (by omega) hfull encrypt rfl rfl rfl
  obtain ⟨y, hy, hback⟩ := bind_eq_ok.mp (Hctr2.crypt_crypt hlaw (by omega) hfull encrypt)
  refine ⟨y, hy, ?_, hback⟩
  rw [hy, Except.ok.injEq] at hout
  rw [hout, List.length_append, length_bytesOfBlock, Hctr2.length_zipWith_keyStream,
    List.length_drop]
  omega

theorem hctrCrypt_eq (party : Byte) (encrypt : Bool) (x : List Byte) :
    hctrCrypt party encrypt x =
      if x.length = 800 then (Hctr2.crypt x (hctrKey party) encrypt).mapError thrown
      else .error "HCTR state size mismatch" := by
  have hsize : Hctr2.bufferBlocks * 16 = 800 := by decide
  rw [hctrCrypt, Hctr2.hctrCrypt, hsize, throwIf_ne_bind]
  split_ifs <;> rfl

theorem hctr_permutes (party : Byte) :
    Dirs.Permutes ⟨hctrCrypt party true, hctrCrypt party false⟩ 800 := by
  have hdir : ∀ encrypt x, x.length = 800 → ∃ y, hctrCrypt party encrypt x = .ok y ∧
      y.length = 800 ∧ hctrCrypt party (!encrypt) y = .ok x := by
    intro encrypt x hx
    obtain ⟨y, hy, hylen, hback⟩ := exists_crypt party encrypt hx
    refine ⟨y, ?_, hylen, ?_⟩
    · rw [hctrCrypt_eq, if_pos hx, hy]
      rfl
    · rw [hctrCrypt_eq, if_pos hylen, hback]
      rfl
  have hthrow : ∀ encrypt x, x.length ≠ 800 → ∃ e, hctrCrypt party encrypt x = .error e :=
    fun encrypt x hx => ⟨_, (hctrCrypt_eq party encrypt x).trans (if_neg hx)⟩
  exact ⟨fun x hx => ⟨hthrow true x hx, hthrow false x hx⟩, hdir true, hdir false⟩

theorem feistel_permutes (k : Feistel.Sponge) (f : Feistel) :
    Dirs.Permutes ⟨Feistel.encryptBytes k f, Feistel.decryptBytes k f⟩ 800 := by
  refine Permutes.of_cancel (fun x hx => ?_) (fun x hx => Feistel.decryptBytes_cancel k f hx)
    fun x hx => Feistel.encryptBytes_cancel k f hx
  have hcheck : Feistel.check x.length = .error "feistel expects one full PQ row" := if_pos hx
  constructor
  · refine ⟨"feistel expects one full PQ row", ?_⟩
    simp only [Feistel.encryptBytes, hcheck, error_bind]
  · refine ⟨"feistel expects one full PQ row", ?_⟩
    simp only [Feistel.decryptBytes, hcheck, error_bind]

theorem xoodoo_permutes : Dirs.Permutes ⟨Xoodoo.encryptBytes, Xoodoo.decryptBytes⟩ 48 := by
  have hlen : ∀ a : Xoodoo.State, a.store.length = 48 := fun a => Lib.Words.length_storeWords a.lanes
  refine Permutes.of_checked (e := "xoodoo expects exactly 48 bytes")
    (F := fun x => (Xoodoo.permute12 (.load x)).store) (G := fun x => (Xoodoo.Inv.run (.load x)).store)
    (fun x => throwIf_ne_bind _ _) (fun x => throwIf_ne_bind _ _)
    (fun x hx => ⟨hlen _, ?_⟩) (fun x hx => ⟨hlen _, ?_⟩)
  · rw [Xoodoo.load_store, Xoodoo.inv_run_permute12, Xoodoo.store_load hx]
  · rw [Xoodoo.load_store, Xoodoo.permute12_inv_run, Xoodoo.store_load hx]

/-- The four kinds. -/
theorem make_permutes {k : Feistel.Sponge} {cfg : Cfg} {party : Byte} {d : Dirs}
    (h : make k cfg party = .ok d) : d.Permutes (rowBytesOf cfg.kind) := by
  unfold make at h
  split at h
  next hkind =>
    obtain ⟨params, hparams, h⟩ := bind_eq_ok.mp h
    obtain ⟨c, hc, hpermutes⟩ := Adapters.exists_consPi_permutes hparams party.toNat
    obtain ⟨c', hc', h⟩ := bind_eq_ok.mp h
    rw [hc, Except.ok.injEq] at hc'
    rw [pure_eq_ok, Except.ok.injEq] at h
    have hset : (fun x : List Byte => x.length = 800) = fun x => kemKeySizeBit = 8 * x.length := by
      have hsize : kemKeySizeBit = 6400 := by decide
      funext x
      exact propext ⟨fun hx => by omega, fun hx => by omega⟩
    rw [← h, ← hc', hkind, rowBytesOf, Dirs.Permutes, hset]
    · exact hpermutes
    · exact nofun
  next hkind =>
    rw [pure_eq_ok, Except.ok.injEq] at h
    rw [← h, hkind]
    exact hctr_permutes party
  next hkind =>
    obtain ⟨f, hf, h⟩ := bind_eq_ok.mp h
    rw [pure_eq_ok, Except.ok.injEq] at h
    rw [← h, hkind]
    exact feistel_permutes k f
  next hkind =>
    rw [pure_eq_ok, Except.ok.injEq] at h
    rw [← h, hkind]
    exact xoodoo_permutes

/-- `make` throws if there is no step for the small permutation, and for no rounds. -/
theorem exists_make_iff {k : Feistel.Sponge} {cfg : Cfg} {party : Byte} :
    (∃ d, make k cfg party = .ok d) ↔
      (cfg.kind = .consPi → ∃ s, bestStep (widthOf cfg.small) kemKeySizeBit cfg.lambda = .ok s) ∧
        (cfg.kind = .feistel → 0 < cfg.rounds) := by
  obtain ⟨kind, small, lambda, rounds⟩ := cfg
  cases kind with
  | consPi =>
    simp only [make, reduceCtorEq, false_implies, and_true, true_implies]
    constructor
    · rintro ⟨d, h⟩
      obtain ⟨params, hparams, -⟩ := bind_eq_ok.mp h
      exact ⟨_, (defaults_eq_ok hparams).1⟩
    · rintro ⟨s, hs⟩
      have hparams : defaults small kemKeySizeBit lambda =
          .ok ⟨small, widthOf small, kemKeySizeBit, s, lambda⟩ := by
        rw [defaults, hs, ok_bind, pure_eq_ok]
      obtain ⟨c, hc, -⟩ := Adapters.exists_consPi_permutes hparams party.toNat
      rw [hparams, ok_bind, hc]
      exact ⟨_, rfl⟩
  | hctr => refine ⟨fun _ => ⟨fun h => ?_, fun h => ?_⟩, fun _ => ⟨_, rfl⟩⟩ <;> cases h
  | feistel =>
    simp only [make, reduceCtorEq, false_implies, true_and, true_implies, Feistel.makeFeistel]
    constructor
    · rintro ⟨d, h⟩
      by_contra hrounds
      rw [dif_pos (by omega), error_bind] at h
      cases h
    · intro hrounds
      rw [dif_neg (by omega)]
      exact ⟨_, rfl⟩
  | xoodoo => refine ⟨fun _ => ⟨fun h => ?_, fun h => ?_⟩, fun _ => ⟨_, rfl⟩⟩ <;> cases h

end Rows

section Results

/-- `make` throws for exactly two kinds of configurations, and everything it returns permutes the
rows of its size, for either party and any sponge: other rows are refused, and the two directions
undo each other. -/
theorem make_spec (k : Feistel.Sponge) (cfg : Cfg) (party : Byte) :
    ((∃ d, make k cfg party = .ok d) ↔
      (cfg.kind = .consPi → ∃ s, bestStep (widthOf cfg.small) kemKeySizeBit cfg.lambda = .ok s) ∧
        (cfg.kind = .feistel → 0 < cfg.rounds)) ∧
      ∀ d, make k cfg party = .ok d → d.Permutes (rowBytesOf cfg.kind) :=
  ⟨exists_make_iff, fun _ => make_permutes⟩

/-- Every name that the program prints is read back, a count of Feistel rounds as long as it fits
64 bits, and reading a name changes nothing else. -/
theorem set_reads_names (cfg : Cfg) :
    (∀ kind, set cfg (name kind) = .ok { cfg with kind }) ∧
      (∀ small, set cfg (Adapters.name small) = .ok { cfg with kind := .consPi, small }) ∧
      (∀ n : ℕ, set cfg ("feistel-" ++ n.repr) =
        if n < 2 ^ 64 then .ok { cfg with kind := .feistel, rounds := n } else .error "stoull") ∧
      ∀ text cfg', set cfg text = .ok cfg' → cfg'.lambda = cfg.lambda ∧
        (cfg'.small ≠ cfg.small → cfg'.kind = .consPi) ∧
        (cfg'.rounds ≠ cfg.rounds → cfg'.kind = .feistel ∧ cfg'.rounds < 2 ^ 64) := by
  refine ⟨set_name cfg, set_small cfg, set_feistel cfg, fun text cfg' h => ?_⟩
  obtain ⟨kind, rfl⟩ | ⟨rounds, hrounds, rfl⟩ | ⟨small, rfl⟩ := set_cases h
  · exact ⟨rfl, fun hne => absurd rfl hne, fun hne => absurd rfl hne⟩
  · exact ⟨rfl, fun hne => absurd rfl hne, fun _ => ⟨rfl, hrounds⟩⟩
  · exact ⟨rfl, fun _ => rfl, fun hne => absurd rfl hne⟩

end Results

end PqPsi.Permutation.Factory
