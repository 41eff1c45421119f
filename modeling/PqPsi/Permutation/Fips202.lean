import PqPsi.Permutation.Factory

/-!
# SHAKE256 of the Feistel rounds

The compact FIPS 202 implementation behind `crypto_hash_shake256`, with a
Keccak-f[1600] of its own: `rho` and `pi` are one walk through the lanes with
a single word in hand, and the register of the round constants is never reset.
-/
namespace PqPsi.Permutation.Fips202

/-- `U s[25]`. -/
abbrev State := Vector U64 25

section Permutation

/-- The macro `R`. -/
def R (a : U64) (n : ℕ) : U64 := a <<< n ^^^ a >>> (64 - n)

def lane (s : State) (i : ℕ) : U64 := s.getD i 0

/-- The vector `B` of the parities. -/
def columns (s : State) : Vector U64 5 :=
  Vector.ofFn fun i => (List.range 5).foldl (fun b j => b ^^^ lane s (i + 5 * j)) 0

def theta (s : State) : State :=
  let B := columns s
  s.mapFinIdx fun p L _ =>
    let i := p % 5
    L ^^^ (B.getD ((i + 4) % 5) 0 ^^^ R (B.getD ((i + 1) % 5) 0) 1)

/-- The lanes, the word in hand, and the bytes `x`, `y`, `r`. -/
structure Walk where
  s : State
  t : U64
  x : Byte
  y : Byte
  r : Byte

/-- One turn of the loop of `rho` and `pi`. -/
def step (c : Walk) (j : ℕ) : Walk :=
  let r := c.r + BitVec.ofNat 8 (j + 1)
  let Y := 2 * c.x.toNat + 3 * c.y.toNat
  let x := c.y
  let y := BitVec.ofNat 8 (Y % 5)
  let p := x.toNat + 5 * y.toNat
  ⟨c.s.setIfInBounds p (R c.t (r.toNat % 64)), lane c.s p, x, y, r⟩

def rhoPi (s : State) : State := ((List.range 24).foldl step ⟨s, lane s 1, 1, 0, 0⟩).s

/-- Every row is computed from the copy of its old lanes. -/
def chi (s : State) : State :=
  s.mapFinIdx fun p L _ =>
    let i := p % 5
    let j := p / 5
    L ^^^ (~~~lane s ((i + 1) % 5 + 5 * j) &&& lane s ((i + 2) % 5 + 5 * j))

/-- One turn of the last loop of a round, on lane 0 and the register. -/
def iotaStep (c : U64 × Byte) (j : ℕ) : U64 × Byte :=
  let R := c.2 <<< 1 ^^^ 113 * (c.2 >>> 7)
  (if R &&& 2 != 0 then c.1 ^^^ 1#64 <<< (2 ^ j - 1) else c.1, R)

/-- One round, on the lanes and the register. -/
def round (c : State × Byte) : State × Byte :=
  let s := chi (rhoPi (theta c.1))
  let (L, R) := (List.range 7).foldl iotaStep (lane s 0, c.2)
  (s.setIfInBounds 0 L, R)

def F (s : State) : State := ((List.range 24).foldl (fun c _ => round c) (s, 1)).1

end Permutation

section Sponge

/-- The macro `S`: the first `r` bytes are added to the lanes. -/
def S (r : ℕ) (s : State) (x : List Byte) : State :=
  (List.range r).foldl
    (fun s i => s.setIfInBounds (i / 8)
      (lane s (i / 8) ^^^ (x.getD i 0).setWidth 64 <<< (i % 8 * 8))) s

/-- The loop over the full blocks: the lanes, and what is left of the message. For a rate of zero
the loop of the source does not end. -/
def absorb (r : ℕ) (s : State) (m : List Byte) : State × List Byte :=
  if _h : 0 < r ∧ r ≤ m.length then absorb r (F (S r s m)) (m.drop r) else (s, m)
termination_by m.length
decreasing_by
  rw [List.length_drop]
  omega

/-- The bytes `t` of the last block. -/
def lastBlock (r : ℕ) (m : List Byte) (p : Byte) : List Byte :=
  let t := (List.range m.length).foldl (fun t i => t.set i (m.getD i 0)) (List.replicate 200 0)
  (t.set m.length p).modify (r - 1) (· ||| 128)

/-- One turn of the output loop, on the lanes and the output. -/
def squeezeStep {d : ℕ} (r : ℕ) (c : State × Vector Byte d) (i : ℕ) : State × Vector Byte d :=
  let s := if i % r = 0 then F c.1 else c.1
  (s, c.2.setIfInBounds i ((lane s (i % r / 8) >>> (8 * (i % 8))).setWidth 8))

/-- `k`, with an output buffer of zeros. -/
def k : Feistel.Sponge := fun r m p d =>
  let (s, rest) := absorb r.toNat (Vector.replicate 25 0) m
  let s := S r.toNat s (lastBlock r.toNat rest p)
  ((List.range d).foldl (squeezeStep r.toNat) (s, Vector.replicate d 0)).2

/-- The macro `H`: the bytes written and the return code. -/
def H (r p : Byte) (d : ℕ) (m : List Byte) : Vector Byte d × ℤ := (k (r * 8) m p d, 0)

def cryptoHashSha3224 (m : List Byte) : Vector Byte 28 × ℤ := H 18 6 28 m

def cryptoHashSha3256 (m : List Byte) : Vector Byte 32 × ℤ := H 17 6 32 m

def cryptoHashSha3384 (m : List Byte) : Vector Byte 48 × ℤ := H 13 6 48 m

def cryptoHashSha3512 (m : List Byte) : Vector Byte 64 × ℤ := H 9 6 64 m

/-- The macro `H2`, whose functions take the output length. -/
def H2 (r p : Byte) (d : ℕ) (m : List Byte) : Vector Byte d × ℤ := (k (r * 8) m p d, 0)

def cryptoHashShake128 (d : ℕ) (m : List Byte) : Vector Byte d × ℤ := H2 21 31 d m

def cryptoHashShake256 (d : ℕ) (m : List Byte) : Vector Byte d × ℤ := H2 17 31 d m

theorem cryptoHashShake256_eq : cryptoHashShake256 = Feistel.cryptoHashShake256 k := rfl

end Sponge

end PqPsi.Permutation.Fips202
