import PqPsi.Protocol.Rows

/-!
# What the row loops compute

Each loop is taken apart into its rows. The KEM rows of one key pair fit
together: a row encapsulated under the public key of a row is a hit for the
secret key of that row.
-/
namespace PqPsi.Protocol
open Kemeleon Lib Lib.Buffers Lib.Exceptions Lib.Ranges

section Loops
variable {w : Workers} {n minWork rowSize : ℕ}

/-- A loop over the rows of a flat buffer. -/
theorem parallelFor_rows {body : ℕ → List Block → Except Err (List Block)} {s s' : List Block}
    (h : parallelFor w n minWork ((Slots.rows Block rowSize n).turn body) s = .ok s')
    (hs : s.length = n * rowSize)
    (hbody : ∀ i < n, ∀ row row', row.length = rowSize → body i row = .ok row' →
      row'.length = rowSize) :
    s'.length = n * rowSize ∧ ∀ i < n, body i (slice s (i * rowSize) rowSize) =
      .ok (slice s' (i * rowSize) rowSize) := by
  rw [parallelFor_eq] at h
  exact (Slots.rows Block rowSize n).foldlM_spec hbody hs h

/-- A loop over rows and secret keys. -/
theorem parallelFor_keySlots {body : ℕ → RawKey × List Block → Except Err (RawKey × List Block)}
    {s s' : List RawKey × List Block}
    (h : parallelFor w n minWork ((keySlots rowSize n).turn body) s = .ok s')
    (hs₁ : s.1.length = n) (hs₂ : s.2.length = n * rowSize)
    (hbody : ∀ i < n, ∀ t t', body i t = .ok t' → t'.2.length = rowSize) :
    s'.1.length = n ∧ s'.2.length = n * rowSize ∧
      ∀ i < n, ∃ t, body i t = .ok (s'.1.getD i default, slice s'.2 (i * rowSize) rowSize) := by
  rw [parallelFor_eq] at h
  obtain ⟨⟨h₁, h₂⟩, hrows⟩ := (keySlots rowSize n).foldlM_spec
    (fun i hi t t' _ ht => ⟨trivial, hbody i hi t t' ht⟩) ⟨hs₁, hs₂⟩ h
  exact ⟨h₁, h₂, fun i hi => ⟨_, hrows i hi⟩⟩

theorem precomputeMasks_spec {set masks : List Block}
    (h : precomputeMasks w rowSize set = .ok masks) :
    masks.length = set.length * rowSize ∧ ∀ i < set.length,
      slice masks (i * rowSize) rowSize = fillMask w.env (set.getD i 0) rowSize := by
  obtain ⟨hlen, hrows⟩ := parallelFor_rows h (by simp) (by simp [fillMask])
  refine ⟨hlen, fun i hi => ?_⟩
  have hrow := hrows i hi
  simpa using hrow.symm

end Loops

section Rows
variable (prims : Primitives) (kem : PsiKemKind) (rowSize : ℕ)

/-- One row of `genRows`. -/
def genRow (seeds : KeySeeds) (i : ℕ) : Except Err (RawKey × List Block) :=
  match kem with
  | .obfMlKem => genMlKemKey prims seeds rowSize i
  | .ecKem => genEcKey prims seeds rowSize i

/-- One row of `encapRows`. -/
def encapRow (seed : List Byte) (i : ℕ) (row : List Block) : Except Err (List Block) :=
  match kem with
  | .obfMlKem => encapMlKemRow prims seed rowSize i row
  | .ecKem => encapEcRow prims seed rowSize row

/-- The check of one row in `countHits`. -/
def hitRow (sk : RawKey) (row : List Block) : Except Err Bool :=
  match kem with
  | .obfMlKem => decapBytes prims sk row rowSize
  | .ecKem => ecDecap prims.curve sk row

end Rows

section GenRows
variable {prims : Primitives} {w : Workers} {kem : PsiKemKind} {rowSize n : ℕ}

theorem length_genRow (kem : PsiKemKind) {seeds : KeySeeds} {i : ℕ} {t : RawKey × List Block}
    (h : genRow prims kem rowSize seeds i = .ok t) : t.2.length = rowSize := by
  cases kem with
  | obfMlKem =>
    simp only [genRow, genMlKemKey] at h
    obtain ⟨found, -, h⟩ := bind_eq_ok.mp h
    cases found with
    | none => simp at h
    | some found =>
      obtain ⟨u, -, h⟩ := bind_eq_ok.mp h
      obtain rfl := Except.ok.inj h
      exact length_blocksOf _ _
  | ecKem =>
    simp only [genRow, genEcKey] at h
    obtain ⟨pair, -, h⟩ := bind_eq_ok.mp h
    obtain rfl := Except.ok.inj h
    exact length_blocksOf _ _

/-- Key generation fills every row with the key pair of that row. -/
theorem genRows_spec {seeds : KeySeeds} {pk : List Block} {out : List RawKey × List Block}
    (hlen : pk.length = n * rowSize) (hpos : 0 < rowSize)
    (h : genRows prims w seeds kem pk rowSize = .ok out) :
    rowSize = kemRowBlocks kem ∧ out.1.length = n ∧ out.2.length = n * rowSize ∧
      ∀ i < n, genRow prims kem rowSize seeds i =
        .ok (out.1.getD i default, slice out.2 (i * rowSize) rowSize) := by
  have hcount : pk.length / rowSize = n := by rw [hlen, Nat.mul_div_cancel _ hpos]
  cases kem with
  | obfMlKem =>
    simp only [genRows, genMlKemKeys] at h
    obtain ⟨u, hsize, h⟩ := bind_eq_ok.mp h
    rw [throwIf_eq_ok, not_or, not_not] at hsize
    rw [hcount] at h
    obtain ⟨h₁, h₂, hrows⟩ := parallelFor_keySlots h (by simp) hlen
      fun i _ t t' ht => length_genRow .obfMlKem ht
    refine ⟨hsize.1, h₁, h₂, fun i hi => ?_⟩
    obtain ⟨t, ht⟩ := hrows i hi
    exact ht
  | ecKem =>
    simp only [genRows, genEcKeys] at h
    obtain ⟨u, hsize, h⟩ := bind_eq_ok.mp h
    rw [throwIf_eq_ok, not_or, not_not] at hsize
    rw [hcount] at h
    obtain ⟨h₁, h₂, hrows⟩ := parallelFor_keySlots h (by simp) hlen
      fun i _ t t' ht => length_genRow .ecKem ht
    refine ⟨hsize.1, h₁, h₂, fun i hi => ?_⟩
    obtain ⟨t, ht⟩ := hrows i hi
    exact ht

theorem length_encapRow (kem : PsiKemKind) {seed : List Byte} {i : ℕ} {row row' : List Block}
    (h : encapRow prims kem rowSize seed i row = .ok row') : row'.length = rowSize := by
  cases kem with
  | obfMlKem =>
    simp only [encapRow, encapMlKemRow] at h
    obtain ⟨rawPk, -, h⟩ := bind_eq_ok.mp h
    cases rawPk with
    | none => simp at h
    | some rawPk =>
      obtain ⟨pair, -, h⟩ := bind_eq_ok.mp h
      obtain ⟨u, -, h⟩ := bind_eq_ok.mp h
      obtain rfl := Except.ok.inj h
      exact length_blocksOf _ _
  | ecKem =>
    simp only [encapRow, encapEcRow] at h
    obtain ⟨ct, -, h⟩ := bind_eq_ok.mp h
    obtain rfl := Except.ok.inj h
    exact length_blocksOf _ _

theorem encapRows_spec {seeds : ℕ → List Byte} {rows out : List Block}
    (hlen : rows.length = n * rowSize) (hpos : 0 < rowSize)
    (h : encapRows prims w seeds kem rows rowSize = .ok out) :
    out.length = n * rowSize ∧ ∀ i < n,
      encapRow prims kem rowSize (seeds i) i (slice rows (i * rowSize) rowSize) =
        .ok (slice out (i * rowSize) rowSize) := by
  have hcount : rows.length / rowSize = n := by rw [hlen, Nat.mul_div_cancel _ hpos]
  cases kem with
  | obfMlKem =>
    simp only [encapRows, encapMlKem] at h
    obtain ⟨u, -, h⟩ := bind_eq_ok.mp h
    rw [hcount] at h
    have hloop := parallelFor_rows h (by rw [List.length_replicate, hlen])
      fun i _ row row' _ hrow => length_encapRow .obfMlKem hrow
    exact ⟨hloop.1, fun i hi => hloop.2 i hi⟩
  | ecKem =>
    simp only [encapRows, encapEc] at h
    obtain ⟨u, -, h⟩ := bind_eq_ok.mp h
    rw [hcount] at h
    have hloop := parallelFor_rows h (by rw [List.length_replicate, hlen])
      fun i _ row row' _ hrow => length_encapRow .ecKem (i := i) hrow
    exact ⟨hloop.1, fun i hi => hloop.2 i hi⟩

end GenRows

section Count
variable {one : ℕ → Except Err Bool}

/-- Whether a check returned `true`. -/
def passed : Except Err Bool → Bool
  | .ok b => b
  | .error _ => false

theorem foldlM_count {l : List ℕ} {acc hits : ℕ}
    (h : l.foldlM (fun hits i => return hits + (← one i).toNat) acc = .ok hits) :
    (∀ i ∈ l, ∃ b, one i = .ok b) ∧ hits = acc + l.countP fun i => passed (one i) := by
  induction l generalizing acc with
  | nil =>
    obtain rfl : acc = hits := by simpa using h
    simp
  | cons i l ih =>
    rw [List.foldlM_cons] at h
    obtain ⟨acc', hacc, hrest⟩ := bind_eq_ok.mp h
    obtain ⟨b, hb, hsum⟩ := bind_eq_ok.mp hacc
    obtain rfl : acc + b.toNat = acc' := by simpa using hsum
    obtain ⟨hok, hcount⟩ := ih hrest
    refine ⟨fun j hj => ?_, ?_⟩
    · rcases List.mem_cons.mp hj with rfl | hj
      · exact ⟨b, hb⟩
      · exact hok j hj
    · rw [hcount, List.countP_cons, hb]
      cases b with
      | false => simp [passed]
      | true =>
        simp only [passed, Bool.toNat_true, if_true]
        omega

theorem workerLimit_pos (env : Env) (multiThread : Bool) (requested : ℕ) :
    0 < workerLimit env multiThread requested := by
  unfold workerLimit
  dsimp only
  split_ifs <;> omega

/-- Partial sums over ranges that make up `[0, n)` add up to the sequential count. -/
theorem countRows_spec {w : Workers} {n hits : ℕ} (h : countRows w n one = .ok hits) :
    (∀ i < n, ∃ b, one i = .ok b) ∧
      hits = (List.range n).countP fun i => passed (one i) := by
  unfold countRows at h
  split_ifs at h with hseq
  · obtain ⟨hok, hcount⟩ := foldlM_count h
    have hrange : indices (0, n) = List.range n := by simp [indices, List.range_eq_range']
    rw [hrange] at hok hcount
    exact ⟨fun i hi => hok i (List.mem_range.mpr hi), by simpa using hcount⟩
  · dsimp only at h
    set threads := min (workerLimit w.env w.multiThread w.workerThreads) n with hthreads
    set chunk := (n + threads - 1) / threads
    obtain ⟨partials, hpart, hsum⟩ := bind_eq_ok.mp h
    obtain rfl : partials.sum = hits := by simpa using hsum
    rw [parallelFor_eq] at hpart
    obtain ⟨hlen, hrows⟩ := (Slots.entries ℕ threads).foldlM_spec (fun _ _ _ _ _ _ => trivial)
      (List.length_replicate (n := threads) (a := 0)) hpart
    have hlen' : partials.length = threads := hlen
    have hcover : (List.range threads).flatMap
        (fun t => indices (t * chunk, min n (t * chunk + chunk))) = List.range n := by
      apply flatMap_indices
      apply le_count_mul_chunk
      have hlimit := workerLimit_pos w.env w.multiThread w.workerThreads
      omega
    refine ⟨fun i hi => ?_, ?_⟩
    · have hmem : i ∈ (List.range threads).flatMap
          (fun t => indices (t * chunk, min n (t * chunk + chunk))) := by
        rw [hcover]
        exact List.mem_range.mpr hi
      obtain ⟨t, ht, hit⟩ := List.mem_flatMap.mp hmem
      exact (foldlM_count (hrows t (List.mem_range.mp ht))).1 i hit
    · have hmap : partials = (List.range threads).map fun t =>
          (indices (t * chunk, min n (t * chunk + chunk))).countP fun i => passed (one i) := by
        apply List.ext_getElem (by simp [hlen'])
        intro t ht ht'
        have hcount := (foldlM_count (hrows t (by omega))).2
        have hget : (Slots.entries ℕ threads).get partials t = partials[t] :=
          List.getD_eq_getElem partials default ht
        rw [hget, Nat.zero_add] at hcount
        simp [hcount]
      rw [hmap, ← hcover, List.countP_flatMap]
      rfl

theorem countHits_spec {prims : Primitives} {w : Workers} {kem : PsiKemKind} {sk : List RawKey}
    {rows : List Block} {rowSize hits : ℕ} (h : countHits prims w kem sk rows rowSize = .ok hits) :
    hits = (List.range sk.length).countP fun i =>
      passed (hitRow prims kem rowSize (sk.getD i default) (slice rows (i * rowSize) rowSize)) := by
  cases kem with
  | obfMlKem =>
    obtain ⟨-, -, hcount⟩ := bind_eq_ok.mp h
    exact (countRows_spec hcount).2
  | ecKem =>
    obtain ⟨-, -, hcount⟩ := bind_eq_ok.mp h
    exact (countRows_spec hcount).2

end Count

section Correct
variable {prims : Primitives}

/-- What the protocol relies on in a KEM: decapsulation under a generated secret key gives what
encapsulation under the public key gave. Public keys of ML-KEM have reduced coefficients. -/
def Primitives.KemCorrect (prims : Primitives) : PsiKemKind → Prop
  | .obfMlKem => ∀ seed pk sk, prims.mlKem.keyGen seed = .ok (pk, sk) →
      (∀ t ∈ keyCoeffs .mlKem512 pk, t < q) ∧
      ∀ seed' ct ss, prims.mlKem.encaps pk seed' = .ok (ct, ss) → prims.mlKem.decaps ct sk = .ok ss
  | .ecKem => ∀ seed seed',
      prims.curve.x25519 (prims.curve.elligatorKeyPair seed).2
          (prims.curve.elligatorMap (prims.curve.elligatorKeyPair seed').1) =
        prims.curve.x25519 (prims.curve.elligatorKeyPair seed').2
          (prims.curve.elligatorMap (prims.curve.elligatorKeyPair seed).1)

/-- Attempt `t` gives a key pair whose public key has a code, and is the first to do so. -/
structure KeyFound (prims : Primitives) (seed : ℕ → List Byte) (first t : ℕ)
    (rawPk sk code : List Byte) : Prop where
  keyGen : prims.mlKem.keyGen (seed t) = .ok (rawPk, sk)
  encodeKey : encodeKey prims.hashByte .mlKem512 rawPk = .ok (some code)
  earlier : ∀ t', first ≤ t' → t' < t → ∃ rawPk' sk',
    prims.mlKem.keyGen (seed t') = .ok (rawPk', sk') ∧
      Kemeleon.encodeKey prims.hashByte .mlKem512 rawPk' = .ok none

/-- The loop over attempts ends with the key pair and the code of one attempt. -/
theorem tryKeys_eq_some {seed : ℕ → List Byte} {tries first : ℕ} {sk code : List Byte} :
    tryKeys prims seed tries first = .ok (some (sk, code)) ↔
      ∃ t rawPk, (first ≤ t ∧ t < first + tries) ∧ KeyFound prims seed first t rawPk sk code := by
  induction tries generalizing first with
  | zero =>
    simp only [tryKeys, pure_eq_ok, Except.ok.injEq, reduceCtorEq, false_iff]
    rintro ⟨t, rawPk, hle, -⟩
    omega
  | succ tries ih =>
    constructor
    · intro h
      obtain ⟨⟨rawPk, sk'⟩, hgen, hrest⟩ := bind_eq_ok.mp h
      obtain ⟨found, henc, hnext⟩ := bind_eq_ok.mp hrest
      cases found with
      | none =>
        obtain ⟨t, rawPk', hle, hfound⟩ := ih.mp hnext
        refine ⟨t, rawPk', by omega, hfound.keyGen, hfound.encodeKey, fun t' hle' hlt => ?_⟩
        by_cases hfirst : t' = first
        · exact hfirst ▸ ⟨rawPk, sk', hgen, henc⟩
        · exact hfound.earlier t' (by omega) hlt
      | some code' =>
        simp only [pure_eq_ok, Except.ok.injEq, Option.some.injEq, Prod.mk.injEq] at hnext
        obtain ⟨rfl, rfl⟩ := hnext
        exact ⟨first, rawPk, by omega, hgen, henc, fun t' hle hlt => by omega⟩
    · rintro ⟨t, rawPk, hle, hfound⟩
      rw [tryKeys]
      by_cases hfirst : t = first
      · rw [← hfirst, hfound.keyGen, ok_bind]
        dsimp only
        rw [hfound.encodeKey]
        rfl
      · obtain ⟨rawPk', sk', hgen, henc⟩ := hfound.earlier first le_rfl (by omega)
        rw [hgen, ok_bind]
        dsimp only
        rw [henc]
        refine ih.mpr ⟨t, rawPk, by omega, hfound.keyGen, hfound.encodeKey, fun t' hle' => ?_⟩
        exact hfound.earlier t' (by omega)

/-- Bytes at the front of a row are read back from it. -/
theorem take_bytesOf_splice {n : ℕ} {bs : List Byte} (h : bs.length ≤ blockBytes * n) :
    (bytesOf (blocksOf n (splice (List.replicate (blockBytes * n) 0) 0 bs))).take bs.length = bs := by
  have hlen : 0 + bs.length ≤ (List.replicate (blockBytes * n) (0 : Byte)).length := by
    simpa using h
  rw [bytesOf_blocksOf (by rw [length_splice hlen, List.length_replicate, blockBytes])]
  exact slice_splice_same hlen

/-- Two fields at the front of a buffer. -/
theorem fields_of_take {bs xs ys : List Byte} (h : bs.take (xs ++ ys).length = xs ++ ys) :
    bs.take xs.length = xs ∧ slice bs xs.length ys.length = ys := by
  constructor
  · have hx := congrArg (List.take xs.length) h
    rwa [List.take_take, List.take_left, List.length_append,
      Nat.min_eq_left (Nat.le_add_right _ _)] at hx
  · have hy := congrArg (List.drop xs.length) h
    rwa [List.drop_left, List.length_append, List.drop_take, Nat.add_sub_cancel_left] at hy

/-- Two fields of a row are read back from it. -/
theorem bytesOf_splice_splice {n : ℕ} {xs ys : List Byte}
    (h : xs.length + ys.length ≤ blockBytes * n) :
    (bytesOf (blocksOf n (splice (splice (List.replicate (blockBytes * n) 0) 0 xs)
        xs.length ys))).take xs.length = xs ∧
      slice (bytesOf (blocksOf n (splice (splice (List.replicate (blockBytes * n) 0) 0 xs)
        xs.length ys))) xs.length ys.length = ys := by
  have hx : 0 + xs.length ≤ (List.replicate (blockBytes * n) (0 : Byte)).length := by
    rw [List.length_replicate]
    omega
  have hy : xs.length + ys.length ≤
      (splice (List.replicate (blockBytes * n) (0 : Byte)) 0 xs).length := by
    rwa [length_splice hx, List.length_replicate]
  rw [bytesOf_blocksOf (by rw [length_splice hy, length_splice hx, List.length_replicate,
    blockBytes])]
  refine ⟨?_, slice_splice_same hy⟩
  have hfront : 0 + xs.length ≤ xs.length := by omega
  exact (slice_splice_disjoint hy (.inl hfront)).trans (slice_splice_same hx)

theorem hitRow_mlKem (hkem : prims.KemCorrect .obfMlKem) {seeds : KeySeeds} {i j : ℕ}
    {sk : RawKey} {pkRow ctRow : List Block} {seed : List Byte}
    (hgen : genMlKemKey prims seeds kemKeyBlockSize i = .ok (sk, pkRow))
    (henc : encapMlKemRow prims seed kemKeyBlockSize j pkRow = .ok ctRow) :
    decapBytes prims sk ctRow kemKeyBlockSize = .ok true := by
  -- the key pair behind the row
  obtain ⟨found, htry, hrow⟩ := bind_eq_ok.mp hgen
  cases found with
  | none => simp at hrow
  | some found =>
    obtain ⟨sk', code⟩ := found
    obtain ⟨u, hsize, hrow⟩ := bind_eq_ok.mp hrow
    rw [throwIf_eq_ok, not_lt] at hsize
    obtain ⟨rfl, rfl⟩ := Prod.mk.inj (Except.ok.inj hrow)
    obtain ⟨t, rawPk, -, hpair, hcode, -⟩ := tryKeys_eq_some.mp htry
    obtain ⟨hpkLen, hskLen⟩ := prims.mlKem.length_keyGen hpair
    obtain ⟨hq, hdecaps⟩ := hkem _ _ _ hpair
    obtain ⟨hcodeLen, hdecode⟩ := decodeKeyInto_encodeKey prims.hashByte hpkLen hq hcode
      (List.length_replicate (n := rawKeyBytes .mlKem512) (a := 0))
    -- the sender decodes the same public key
    obtain ⟨raw, hraw, hrest⟩ := bind_eq_ok.mp henc
    rw [codeOf, ← hcodeLen, take_bytesOf_splice hsize, hdecode] at hraw
    obtain rfl := Except.ok.inj hraw
    obtain ⟨⟨ct, ss⟩, hencaps, hrest⟩ := bind_eq_ok.mp hrest
    obtain ⟨u', hfit, hout⟩ := bind_eq_ok.mp hrest
    rw [throwIf_eq_ok, not_lt] at hfit
    obtain ⟨hctLen, hssLen⟩ := prims.mlKem.length_encaps hencaps
    have hct : (getSizes .mlKem512).cipherTextBytes = ct.length := hctLen.symm
    rw [hct] at hout
    obtain rfl := Except.ok.inj hout
    have hrow : ct.length + ss.length ≤ blockBytes * kemKeyBlockSize := by
      rw [hctLen, hssLen]
      exact hfit
    obtain ⟨hread, hread'⟩ := bytesOf_splice_splice hrow
    have hsk : sk'.length = (getSizes .mlKem512).secretKeyBytes := hskLen
    rw [decapBytes, if_neg (by simp [hsk]), if_neg (not_lt.mpr hfit), hct, hread,
      hdecaps _ _ _ hencaps, ok_bind, hread']
    simp

theorem hitRow_ec (hkem : prims.KemCorrect .ecKem) {seeds : KeySeeds} {i : ℕ} {sk : RawKey}
    {pkRow ctRow : List Block} {seed : List Byte}
    (hgen : genEcKey prims seeds (kemRowBlocks .ecKem) i = .ok (sk, pkRow))
    (henc : encapEcRow prims seed (kemRowBlocks .ecKem) pkRow = .ok ctRow) :
    ecDecap prims.curve sk ctRow = .ok true := by
  obtain ⟨pair, hpair, hrow⟩ := bind_eq_ok.mp hgen
  obtain ⟨-, -, hpair⟩ := bind_eq_ok.mp hpair
  obtain rfl := Except.ok.inj hpair
  obtain ⟨rfl, rfl⟩ := Prod.mk.inj (Except.ok.inj hrow)
  obtain ⟨hrep, hsk⟩ := prims.curve.length_elligatorKeyPair (seeds.ec i)
  obtain ⟨hrep', -⟩ := prims.curve.length_elligatorKeyPair seed
  -- the sender reads the representative of the row
  have hpk : (bytesOf (blocksOf (kemRowBlocks .ecKem) (splice
      (List.replicate (blockBytes * kemRowBlocks .ecKem) 0) 0
        (prims.curve.elligatorKeyPair (seeds.ec i)).1))).take 32 =
      (prims.curve.elligatorKeyPair (seeds.ec i)).1 := by
    have hfit : (prims.curve.elligatorKeyPair (seeds.ec i)).1.length ≤
        blockBytes * kemRowBlocks .ecKem := by
      rw [hrep]
      decide
    have hread := take_bytesOf_splice hfit
    rwa [hrep] at hread
  obtain ⟨ct, hct, hout⟩ := bind_eq_ok.mp henc
  obtain ⟨-, -, hct⟩ := bind_eq_ok.mp hct
  rw [hpk] at hct
  obtain rfl := Except.ok.inj hct
  obtain rfl := Except.ok.inj hout
  -- the receiver reads the ephemeral representative and the tag
  set tag := ecKdf prims.curve (prims.curve.x25519 (prims.curve.elligatorKeyPair seed).2
    (prims.curve.elligatorMap (prims.curve.elligatorKeyPair (seeds.ec i)).1)) with htag
  have htagLen : tag.length = 16 := prims.curve.length_blake2b _
  have hfit : ((prims.curve.elligatorKeyPair seed).1 ++ tag).length ≤
      blockBytes * kemRowBlocks .ecKem := by
    rw [List.length_append, hrep', htagLen]
    decide
  have hct := take_bytesOf_splice hfit
  obtain ⟨hread, hread'⟩ := fields_of_take hct
  rw [hrep'] at hread hread'
  rw [htagLen] at hread'
  rw [ecDecap, if_neg (by simp [hsk])]
  dsimp only
  rw [hread, hread', hkem (seeds.ec i) seed, ← htag]
  simp

/-- The check of a row passes for the secret key whose public row was encapsulated. -/
theorem hitRow_encapRow {kem : PsiKemKind} {rowSize : ℕ} (hkem : prims.KemCorrect kem)
    (hsize : rowSize = kemRowBlocks kem) {seeds : KeySeeds} {i j : ℕ} {sk : RawKey}
    {pkRow ctRow : List Block} {seed : List Byte}
    (hgen : genRow prims kem rowSize seeds i = .ok (sk, pkRow))
    (henc : encapRow prims kem rowSize seed j pkRow = .ok ctRow) :
    hitRow prims kem rowSize sk ctRow = .ok true := by
  subst hsize
  cases kem with
  | obfMlKem => exact hitRow_mlKem hkem hgen henc
  | ecKem => exact hitRow_ec hkem hgen henc

end Correct

end PqPsi.Protocol
