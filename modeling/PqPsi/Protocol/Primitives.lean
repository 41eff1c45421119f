import PqPsi.Common.Block

/-!
# Configuration and primitives of the protocol

The ML-KEM backend, the curve functions and the wide permutations are taken
as given. Their buffers have fixed sizes, which the structures carry. What
the protocol relies on beyond that is stated as properties of its own.
-/
namespace PqPsi.Protocol

inductive PsiKemKind where
  | obfMlKem
  | ecKem
deriving DecidableEq, Repr

/-- `pqperm::Kind`. -/
inductive PermKind where
  | consPi
  | hctr
  | feistel
  | xoodoo
deriving DecidableEq, Repr

/-- `pi::Kind`. -/
inductive SmallKind where
  | keccak800
  | keccak1600
  | keccak1600R12
  | sneikF512
deriving DecidableEq, Repr

structure PiCfg where
  kind : PermKind
  small : SmallKind
  lambda : ℕ
  rounds : ℕ
  bobPi : Bool

def kemKeyBlockSize : ℕ := 50

def kemRowBytes : PsiKemKind → ℕ
  | .obfMlKem => kemKeyBlockSize * blockBytes * 8 / 8
  | .ecKem => 48

/-- `kemRowBlocks`; both row widths are whole blocks. -/
def kemRowBlocks (kind : PsiKemKind) : ℕ := kemRowBytes kind / blockBytes

/-- `pqperm::Perm`, which works in place. -/
structure Perm where
  encryptBytes : List Byte → Except Err (List Byte)
  decryptBytes : List Byte → Except Err (List Byte)
  length_encryptBytes : ∀ {x y}, encryptBytes x = .ok y → y.length = x.length
  length_decryptBytes : ∀ {x y}, decryptBytes x = .ok y → y.length = x.length

/-- The ML-KEM-512 backend on seeds and buffers of the sizes of the mode. -/
structure MlKem where
  keyGen : List Byte → Except Err (List Byte × List Byte)
  encaps : List Byte → List Byte → Except Err (List Byte × List Byte)
  decaps : List Byte → List Byte → Except Err (List Byte)
  length_keyGen : ∀ {seed pk sk}, keyGen seed = .ok (pk, sk) → pk.length = 800 ∧ sk.length = 1632
  length_encaps : ∀ {pk seed ct ss}, encaps pk seed = .ok (ct, ss) →
    ct.length = 768 ∧ ss.length = 32

/-- The curve functions of monocypher and libsodium that `eckem_raw` calls. -/
structure Curve where
  sodiumInit : Bool
  elligatorKeyPair : List Byte → List Byte × List Byte
  elligatorMap : List Byte → List Byte
  x25519 : List Byte → List Byte → List Byte
  /-- BLAKE2b with a 16-byte output, on the label and the shared secret. -/
  blake2b : List Byte → List Byte
  length_elligatorKeyPair : ∀ seed, (elligatorKeyPair seed).1.length = 32 ∧
    (elligatorKeyPair seed).2.length = 32
  length_blake2b : ∀ msg, (blake2b msg).length = 16

structure Primitives where
  hashByte : List Byte → Byte
  mlKem : MlKem
  curve : Curve
  /-- `makePi`: the permutation of a party. -/
  makePi : PiCfg → ℕ → Except Err Perm

/-- `decryptBytes` inverts `encryptBytes` of the same party. -/
def Primitives.PermInverts (prims : Primitives) : Prop :=
  ∀ cfg party pi x y, prims.makePi cfg party = .ok pi → pi.encryptBytes x = .ok y →
    pi.decryptBytes y = .ok x

end PqPsi.Protocol
