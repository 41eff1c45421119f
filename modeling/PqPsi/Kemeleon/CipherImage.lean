import PqPsi.Kemeleon.Cipher

/-!
# The image of the ciphertext encoder

Over all draws, the encoder can return exactly the strings that decode to its
input: every vector that compresses to the first part may be picked, and the
second part is never certain to be rejected.
-/
namespace PqPsi.Kemeleon
open Lib Lib.BitStream Lib.Buffers

section Outcomes
variable {mode : Mode} {c1 c2 : List Byte}

/-- The possible picks are the vectors below `q` that compress to the ciphertext. -/
theorem outcome_picks {bitsPerValue : ℕ} (hpos : 0 < bitsPerValue) (hbits : bitsPerValue ≤ 11)
    {ws vs : List ℕ} (hws : ∀ want ∈ ws, want < 2 ^ bitsPerValue) :
    (ws.mapM fun want => Draws.choice "Kemeleon sampler got zero bound"
      (preimages bitsPerValue want)).Outcome (.ok vs) ↔
      (∀ v ∈ vs, v < q) ∧ vs.map (compressValue · bitsPerValue) = ws := by
  rw [Draws.outcome_mapM_ok]
  induction ws generalizing vs with
  | nil =>
    rw [List.forall₂_nil_left_iff, List.map_eq_nil_iff]
    constructor
    · rintro rfl
      simp
    · exact And.right
  | cons w ws ih =>
    have hclass := length_preimages_pos hpos hbits (hws w (by simp))
    rw [List.forall₂_cons_left_iff]
    constructor
    · rintro ⟨v, vs', hv, hvs, rfl⟩
      obtain ⟨x, hx, hxv⟩ := (Draws.outcome_choice hclass).mp hv
      cases hxv
      obtain ⟨hlt, hmap⟩ := (ih fun want hw => hws want (by simp [hw])).mp hvs
      obtain ⟨hxq, hxw⟩ := mem_preimages.mp hx
      rw [List.map_cons, hmap, hxw]
      exact ⟨by simpa using ⟨hxq, hlt⟩, rfl⟩
    · rintro ⟨hlt, hmap⟩
      cases vs with
      | nil => simp at hmap
      | cons v vs =>
        rw [List.map_cons, List.cons.injEq] at hmap
        refine ⟨v, vs, (Draws.outcome_choice hclass).mpr ⟨v, ?_, rfl⟩, ?_, rfl⟩
        · exact mem_preimages.mpr ⟨hlt v (by simp), hmap.1⟩
        · exact (ih fun want hw => hws want (by simp [hw])).mpr
            ⟨fun x hx => hlt x (by simp [hx]), hmap.2⟩

theorem outcome_finishCipher {picked : Option (List Byte)} {d : List Byte} :
    (finishCipher mode c2 picked).Outcome (.ok (some d)) ↔ ∃ r, picked = some r ∧ d = r ++ c2 := by
  have hdv : (makeInfo mode).dv ≤ 11 := by cases mode <;> decide
  cases picked with
  | none => simp [finishCipher]
  | some r =>
    rw [finishCipher, Draws.outcome_ok_bind]
    constructor
    · rintro ⟨reject, -, hd⟩
      cases reject with
      | true => simp at hd
      | false => exact ⟨r, rfl, by simpa [eq_comm] using hd⟩
    · rintro ⟨r', hr, rfl⟩
      cases hr
      exact ⟨false, outcome_rejectLoop_false hdv _ _, by simp⟩

/-- What one call of the encoder can return. -/
theorem outcome_encodeCipher (hc1 : c1.length = (makeInfo mode).c1Bytes)
    (hc2 : c2.length = (makeInfo mode).c2Bytes) {d : List Byte} :
    (encodeCipher mode (c1 ++ c2)).Outcome (.ok (some d)) ↔
      ∃ u r, (∀ v ∈ u, v < q) ∧
        u.map (compressValue · (makeInfo mode).du) =
          unpackBits c1 (makeInfo mode).du (makeInfo mode).vecSize ∧
        exportVec (Nat.ofDigits q u) (makeInfo mode).vecBits = some r ∧ d = r ++ c2 := by
  obtain ⟨hpos, hbits⟩ := du_bounds mode
  have hws : ∀ want ∈ (unpackBits c1 (makeInfo mode).du (makeInfo mode).vecSize).reverse,
      want < 2 ^ (makeInfo mode).du := fun want hw => unpackBits_lt want (List.mem_reverse.mp hw)
  rw [encodeCipher_eq hc1 hc2, Draws.outcome_ok_bind]
  constructor
  · rintro ⟨vs, hvs, hd⟩
    obtain ⟨hlt, hmap⟩ := (outcome_picks hpos hbits hws).mp hvs
    obtain ⟨r, hr, rfl⟩ := outcome_finishCipher.mp hd
    refine ⟨vs.reverse, r, fun v hv => hlt v (List.mem_reverse.mp hv), ?_, hr, rfl⟩
    rw [List.map_reverse, hmap, List.reverse_reverse]
  · rintro ⟨u, r, hlt, hmap, hr, rfl⟩
    refine ⟨u.reverse, (outcome_picks hpos hbits hws).mpr ⟨?_, ?_⟩, ?_⟩
    · exact fun v hv => hlt v (List.mem_reverse.mp hv)
    · rw [List.map_reverse, hmap]
    · rw [List.reverse_reverse]
      exact outcome_finishCipher.mpr ⟨r, hr, rfl⟩

theorem not_error_encodeCipher (hc1 : c1.length = (makeInfo mode).c1Bytes)
    (hc2 : c2.length = (makeInfo mode).c2Bytes) (e : Err) :
    ¬ (encodeCipher mode (c1 ++ c2)).Outcome (.error e) := by
  obtain ⟨hpos, hbits⟩ := du_bounds mode
  have hdv : (makeInfo mode).dv ≤ 11 := by cases mode <;> decide
  rw [encodeCipher_eq hc1 hc2]
  apply Draws.not_outcome_error_bind
  · intro e'
    apply Draws.not_outcome_error_mapM
    intro want hw e''
    rw [Draws.outcome_choice (length_preimages_pos hpos hbits
      (unpackBits_lt want (List.mem_reverse.mp hw)))]
    simp
  · intro vs _
    cases exportVec (Nat.ofDigits q vs.reverse) (makeInfo mode).vecBits with
    | none => simp [finishCipher]
    | some r =>
      rw [finishCipher]
      apply Draws.not_outcome_error_bind (not_error_rejectLoop hdv _ _)
      simp

/-- The decoder on data of the right length, taken apart. -/
theorem decodeCipher_eq {r : List Byte} (hr : r.length = (makeInfo mode).vecBytes)
    (hc2 : c2.length = (makeInfo mode).c2Bytes) :
    decodeCipher mode (r ++ c2) =
      (decodeVec r (makeInfo mode).vecBits (makeInfo mode).vecSize).map fun u =>
        packBits (u.map (compressValue · (makeInfo mode).du)) (makeInfo mode).du ++ c2 := by
  have hlen : (r ++ c2).length = codeCipherBytes mode := by
    rw [List.length_append, hr, hc2, codeCipherBytes]
  have htake : (r ++ c2).take (makeInfo mode).vecBytes = r := by rw [← hr, List.take_left]
  have hdrop : (r ++ c2).drop (makeInfo mode).vecBytes = c2 := by rw [← hr, List.drop_left]
  unfold decodeCipher
  simp only [hlen, htake, hdrop, ne_eq, not_true_eq_false, if_false]
  cases hvec : decodeVec r (makeInfo mode).vecBits (makeInfo mode).vecSize with
  | none => rfl
  | some u =>
    have hu : u.length = (makeInfo mode).vecSize :=
      ((decodeVec_eq_some (two_pow_vecBits_le mode)).mp hvec).2.2.1
    have hpack : (packBits (u.map (compressValue · (makeInfo mode).du))
        (makeInfo mode).du).length = (makeInfo mode).c1Bytes := by
      have h8 := eight_mul_c1Bytes mode
      rw [length_packBits, List.length_map, hu]
      omega
    have hout : ∀ c1 : List Byte, c1.length = (makeInfo mode).c1Bytes →
        splice (splice (List.replicate (rawCipherBytes mode) 0) 0 c1) (makeInfo mode).c1Bytes c2 =
          c1 ++ c2 := by
      intro c1 hc1
      simp [splice, hc1, hc2, rawCipherBytes_eq]
    rw [Option.map_some, ← hout _ hpack]
    rfl

/-- A ciphertext is its two parts. -/
theorem exists_cipher_append {c : List Byte} (hc : c.length = rawCipherBytes mode) :
    ∃ c1 c2, c = c1 ++ c2 ∧ c1.length = (makeInfo mode).c1Bytes ∧
      c2.length = (makeInfo mode).c2Bytes := by
  rw [rawCipherBytes_eq] at hc
  exact exists_append_of_length hc

theorem exists_code_append {d : List Byte} (hd : d.length = codeCipherBytes mode) :
    ∃ r c2, d = r ++ c2 ∧ r.length = (makeInfo mode).vecBytes ∧
      c2.length = (makeInfo mode).c2Bytes := by
  rw [codeCipherBytes] at hd
  exact exists_append_of_length hd

/-- Whatever is drawn, a returned code decodes to the ciphertext. -/
theorem decodeCipher_of_outcome (hc1 : c1.length = (makeInfo mode).c1Bytes)
    (hc2 : c2.length = (makeInfo mode).c2Bytes) {d : List Byte}
    (h : (encodeCipher mode (c1 ++ c2)).Outcome (.ok (some d))) :
    d.length = codeCipherBytes mode ∧ decodeCipher mode d = some (c1 ++ c2) := by
  obtain ⟨hpos, -⟩ := du_bounds mode
  obtain ⟨u, r, hlt, hmap, hr, rfl⟩ := (outcome_encodeCipher hc1 hc2).mp h
  obtain ⟨hrlen, hval, hfit⟩ := exportVec_eq_some.mp hr
  have hu : u.length = (makeInfo mode).vecSize := by
    have hlen := congrArg List.length hmap
    rwa [List.length_map, length_unpackBits] at hlen
  have hdec := (decodeVec_eq_some (two_pow_vecBits_le mode)).mpr
    ⟨hrlen, hval ▸ hfit, hu, hlt, hval.symm⟩
  have hpack := packBits_unpackBits hpos
    (show 8 * c1.length = (makeInfo mode).vecSize * (makeInfo mode).du by
      rw [hc1, eight_mul_c1Bytes])
  rw [← makeInfo_vecBytes] at hrlen
  constructor
  · rw [List.length_append, hrlen, hc2, codeCipherBytes]
  · rw [decodeCipher_eq hrlen hc2, hdec, Option.map_some, hmap, hpack]

theorem unpackBits_packBits_compress {bitsPerValue : ℕ} (hpos : 0 < bitsPerValue) (u : List ℕ) :
    unpackBits (packBits (u.map (compressValue · bitsPerValue)) bitsPerValue) bitsPerValue
      u.length = u.map (compressValue · bitsPerValue) := by
  have hsmall : ∀ x ∈ u.map (compressValue · bitsPerValue), x < 2 ^ bitsPerValue := by
    intro x hx
    obtain ⟨v, -, rfl⟩ := List.mem_map.mp hx
    exact compressValue_lt v _
  have hround := unpackBits_packBits hpos hsmall
  rwa [List.length_map] at hround

/-- Every accepted code is a possible output of the encoder. -/
theorem outcome_of_decodeCipher {d c : List Byte} (h : decodeCipher mode d = some c) :
    (encodeCipher mode c).Outcome (.ok (some d)) := by
  obtain ⟨hpos, -⟩ := du_bounds mode
  have hd : d.length = codeCipherBytes mode := by
    by_contra hne
    rw [decodeCipher, if_pos hne] at h
    simp at h
  obtain ⟨r, c2, rfl, hr, hc2⟩ := exists_code_append hd
  rw [decodeCipher_eq hr hc2] at h
  obtain ⟨u, hu, rfl⟩ := Option.map_eq_some_iff.mp h
  obtain ⟨hrlen, hfit, hulen, hlt, hval⟩ := (decodeVec_eq_some (two_pow_vecBits_le mode)).mp hu
  have hunpack := unpackBits_packBits_compress hpos u
  rw [hulen] at hunpack
  have hc1 : (packBits (u.map (compressValue · (makeInfo mode).du))
      (makeInfo mode).du).length = (makeInfo mode).c1Bytes := by
    have h8 := eight_mul_c1Bytes mode
    rw [length_packBits, List.length_map, hulen]
    omega
  rw [outcome_encodeCipher hc1 hc2]
  exact ⟨u, r, hlt, hunpack.symm, exportVec_eq_some.mpr ⟨hrlen, hval.symm, hval ▸ hfit⟩, rfl⟩

/-- The counters do not change what is drawn or returned. -/
theorem fst_encodeCipherProfiled {c : List Byte} (hc : c.length = rawCipherBytes mode)
    (stats : EncodeCipherStats) :
    (encodeCipherProfiled mode c stats >>= fun res => pure res.1) = encodeCipher mode c := by
  obtain ⟨c1, c2, rfl, hc1, hc2⟩ := exists_cipher_append hc
  rw [encodeCipher_eq hc1 hc2, ← fst_encodeCipherImpl hc1 hc2 (some stats), encodeCipherProfiled,
    bind_assoc]
  rfl

theorem outcome_encodeCipherProfiled {c : List Byte} (hc : c.length = rawCipherBytes mode)
    {stats : EncodeCipherStats} {res : Except Err (Option (List Byte) × EncodeCipherStats)}
    (h : (encodeCipherProfiled mode c stats).Outcome res) :
    (encodeCipher mode c).Outcome (res.map Prod.fst) := by
  rw [← fst_encodeCipherProfiled hc stats, Draws.outcome_bind_pure]
  exact ⟨res, h, rfl⟩

end Outcomes

/-- Round trip over all draws: neither variant of the encoder throws, both compute the same
from the same draws, and every code they return decodes to the ciphertext. -/
theorem decodeCipher_encodeCipher (mode : Mode) {c : List Byte} (stats : EncodeCipherStats)
    (hc : c.length = rawCipherBytes mode) :
    (encodeCipherProfiled mode c stats >>= fun res => pure res.1) = encodeCipher mode c ∧
    (∀ e, ¬ (encodeCipher mode c).Outcome (.error e) ∧
      ¬ (encodeCipherProfiled mode c stats).Outcome (.error e)) ∧
    ∀ d, ((encodeCipher mode c).Outcome (.ok (some d)) ∨
        ∃ stats', (encodeCipherProfiled mode c stats).Outcome (.ok (some d, stats'))) →
      d.length = codeCipherBytes mode ∧ decodeCipher mode d = some c := by
  refine ⟨fst_encodeCipherProfiled hc stats, fun e => ?_, fun d h => ?_⟩
  · obtain ⟨c1, c2, rfl, hc1, hc2⟩ := exists_cipher_append hc
    refine ⟨not_error_encodeCipher hc1 hc2 e, fun he => ?_⟩
    exact not_error_encodeCipher hc1 hc2 e (outcome_encodeCipherProfiled hc he)
  · have hplain : (encodeCipher mode c).Outcome (.ok (some d)) := by
      rcases h with h | ⟨stats', h⟩
      · exact h
      · exact outcome_encodeCipherProfiled hc h
    obtain ⟨c1, c2, rfl, hc1, hc2⟩ := exists_cipher_append hc
    exact decodeCipher_of_outcome hc1 hc2 hplain

theorem decodeCipher_encodeCipher_zeros : ∃ d,
    (encodeCipher .mlKem512 (List.replicate 768 0)).Outcome (.ok (some d)) ∧
      decodeCipher .mlKem512 d = some (List.replicate 768 0) := by
  have hsplit : List.replicate 768 (0 : Byte) = List.replicate 640 0 ++ List.replicate 128 0 := by
    rw [List.replicate_append_replicate]
  have hunpack : unpackBits (List.replicate 640 0) 10 512 = List.replicate 512 0 := by
    rw [List.eq_replicate_iff]
    refine ⟨length_unpackBits _ _ _, fun x hx => ?_⟩
    obtain ⟨i, -, rfl⟩ := List.mem_map.mp hx
    apply Nat.eq_of_testBit_eq
    intro k
    have hbit : bitAt (List.replicate 640 (0 : Byte)) (i * 10 + k) = false :=
      bitAt_replicate_zero _ _
    rw [testBit_readBits, hbit, Bool.and_false, Nat.zero_testBit]
  have hfit : Nat.ofDigits q (List.replicate 512 0) < 2 ^ (makeInfo .mlKem512).vecBits := by
    rw [Nat.ofDigits_replicate_zero]
    positivity
  obtain ⟨r, hr⟩ := exists_exportVec hfit
  have hout : (encodeCipher .mlKem512 (List.replicate 768 0)).Outcome
      (.ok (some (r ++ List.replicate 128 0))) := by
    have hc1 : (List.replicate 640 (0 : Byte)).length = (makeInfo .mlKem512).c1Bytes :=
      List.length_replicate
    have hc2 : (List.replicate 128 (0 : Byte)).length = (makeInfo .mlKem512).c2Bytes :=
      List.length_replicate
    rw [hsplit, outcome_encodeCipher hc1 hc2]
    refine ⟨List.replicate 512 0, r, fun v hv => ?_, ?_, hr, rfl⟩
    · rw [List.eq_of_mem_replicate hv]
      decide
    · rw [List.map_replicate]
      exact hunpack.symm
  have hlen : (List.replicate 768 (0 : Byte)).length = rawCipherBytes .mlKem512 :=
    List.length_replicate
  generalize List.replicate 768 (0 : Byte) = c at hout hlen ⊢
  obtain ⟨-, -, hround⟩ := decodeCipher_encodeCipher .mlKem512 ⟨0, 0, 0⟩ hlen
  exact ⟨_, hout, (hround _ (.inl hout)).2⟩

/-- The decoder accepts by length and spare bits alone. -/
theorem decodeCipher_isSome_iff (mode : Mode) (d : List Byte) :
    (∃ c, decodeCipher mode d = some c) ↔ d.length = codeCipherBytes mode ∧
      ∀ p, (makeInfo mode).vecBits ≤ p → p < 8 * (makeInfo mode).vecBytes → bitAt d p = false := by
  by_cases hd : d.length = codeCipherBytes mode
  · obtain ⟨r, c2, rfl, hr, hc2⟩ := exists_code_append hd
    have hspare : (∀ p, (makeInfo mode).vecBits ≤ p → p < 8 * (makeInfo mode).vecBytes →
        bitAt (r ++ c2) p = false) ↔ ofBytes r < 2 ^ (makeInfo mode).vecBits := by
      rw [ofBytes_lt_iff]
      constructor
      · intro h p hp
        by_cases hlt : p < 8 * r.length
        · have hbit := h p hp (by omega)
          rwa [bitAt_append, if_pos hlt] at hbit
        · exact bitAt_of_ge (by omega)
      · intro h p hp hlt
        rw [bitAt_append, if_pos (by omega)]
        exact h p hp
    rw [decodeCipher_eq hr hc2, hspare]
    constructor
    · rintro ⟨c, hc⟩
      obtain ⟨u, hu, -⟩ := Option.map_eq_some_iff.mp hc
      exact ⟨hd, ((decodeVec_eq_some (two_pow_vecBits_le mode)).mp hu).2.1⟩
    · rintro ⟨-, hlt⟩
      obtain ⟨u, hu⟩ := exists_decodeVec (two_pow_vecBits_le mode)
        (hr.trans (makeInfo_vecBytes mode)) hlt
      exact ⟨_, Option.map_eq_some_iff.mpr ⟨u, hu, rfl⟩⟩
  · constructor
    · rintro ⟨c, hc⟩
      rw [decodeCipher, if_pos hd] at hc
      simp at hc
    · rintro ⟨h, -⟩
      exact absurd h hd

/-- Zero bytes are accepted by the decoder. -/
theorem exists_decodeCipher_zeros (mode : Mode) :
    ∃ c, decodeCipher mode (List.replicate (codeCipherBytes mode) 0) = some c :=
  (decodeCipher_isSome_iff mode _).mpr ⟨List.length_replicate, fun _ _ _ => bitAt_replicate_zero _ _⟩

/-- The decoder accepts exactly the image of the encoder. -/
theorem decodeCipher_image (mode : Mode) (d : List Byte) :
    ((∃ c, decodeCipher mode d = some c) ↔ d.length = codeCipherBytes mode ∧
      ∀ p, (makeInfo mode).vecBits ≤ p → p < 8 * (makeInfo mode).vecBytes → bitAt d p = false) ∧
    ∀ c, decodeCipher mode d = some c → (encodeCipher mode c).Outcome (.ok (some d)) :=
  ⟨decodeCipher_isSome_iff mode d, fun _ h => outcome_of_decodeCipher h⟩

theorem decodeCipher_image_zeros : ∃ c,
    decodeCipher .mlKem512 (List.replicate (codeCipherBytes .mlKem512) 0) = some c ∧
      (encodeCipher .mlKem512 c).Outcome
        (.ok (some (List.replicate (codeCipherBytes .mlKem512) 0))) := by
  obtain ⟨c, hc⟩ := exists_decodeCipher_zeros .mlKem512
  exact ⟨c, hc, (decodeCipher_image .mlKem512 _).2 c hc⟩

end PqPsi.Kemeleon
