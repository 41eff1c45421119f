import PqPsi.Permutation.Xoodoo

/-!
# `xoodoo_inv` inverts Xoodoo

Step by step: the plane shifts undo each other, `chi` undoes itself, and the
inverse `theta` finds the effect that `theta` added from the parity that it
left behind.
-/
namespace PqPsi.Permutation.Xoodoo
open Lib.Exceptions Lib.Inverses Lib.Words

section Theta

/-- The column whose parity falls on column `x`. -/
def west (x : Fin 4) : Fin 4 := x - 1

theorem rot_natCast (x : Word) (n : ℕ) : Inv.rot x n = x.rotateLeft n := by
  have hn : ((n : ℤ) % 32).toNat = n % 32 := by omega
  rw [Inv.rot, hn, BitVec.rotateLeft_mod_eq_rotateLeft]

theorem rotr_natCast (x : Word) (n : ℕ) : Inv.rotr x n = x.rotateRight n := by
  have hn : (-(n : ℤ) % 32).toNat = (32 - n % 32) % 32 := by omega
  rw [Inv.rotr, Inv.rot, hn, BitVec.rotateLeft_mod_eq_rotateLeft, rotateRight_eq_rotateLeft]

theorem xm_sub : ∀ k < 5, ∀ x : Fin 4, Inv.xm (x - (2 ^ k : ℕ)) = west^[2 ^ k] x := by
  decide

theorem effectStep_eq (prev : Fin 4 → Word) {k : ℕ} (hk : k < 5) :
    Inv.effectStep prev (2 ^ k) = mix west^[2 ^ k] (2 ^ k * 5) (2 ^ k * 14) prev := by
  funext x
  have h5 : (5 : ℤ) * (2 ^ k : ℕ) = (2 ^ k * 5 : ℕ) := by push_cast; ring
  have h14 : (14 : ℤ) * (2 ^ k : ℕ) = (2 ^ k * 14 : ℕ) := by push_cast; ring
  simp only [Inv.effectStep]
  rw [mix, xm_sub k hk, h5, h14, rot_natCast, rot_natCast]

/-- The loop over `p` raises the mixer of `theta` to the 31st power. -/
theorem foldl_effectStep (e : Fin 4 → Word) :
    [1, 2, 4, 8, 16].foldl Inv.effectStep e = mixChain west 5 14 5 e := by
  have hpow : [1, 2, 4, 8, 16] = [2 ^ 0, 2 ^ 1, 2 ^ 2, 2 ^ 3, 2 ^ 4] := rfl
  simp only [hpow, List.foldl_cons, List.foldl_nil, mixChain]
  rw [effectStep_eq _ (by norm_num), effectStep_eq _ (by norm_num), effectStep_eq _ (by norm_num),
    effectStep_eq _ (by norm_num), effectStep_eq _ (by norm_num)]

theorem mixChain_mix_west (e : Fin 4 → Word) : mixChain west 5 14 5 (mix west 5 14 e) = e := by
  have hturn : ∀ x : Fin 4, west^[2 ^ 5] x = x := by decide
  rw [mixChain_mix, mix_of_full_turn hturn (by norm_num) (by norm_num)]

theorem mix_mixChain_west (e : Fin 4 → Word) : mix west 5 14 (mixChain west 5 14 5 e) = e := by
  rw [mix_mixChain, mixChain_mix_west]

/-- One word into every lane of a column. -/
def addColumns (a : State) (e : Fin 4 → Word) : State where
  a00 := a.a00 ^^^ e 0
  a01 := a.a01 ^^^ e 1
  a02 := a.a02 ^^^ e 2
  a03 := a.a03 ^^^ e 3
  a10 := a.a10 ^^^ e 0
  a11 := a.a11 ^^^ e 1
  a12 := a.a12 ^^^ e 2
  a13 := a.a13 ^^^ e 3
  a20 := a.a20 ^^^ e 0
  a21 := a.a21 ^^^ e 1
  a22 := a.a22 ^^^ e 2
  a23 := a.a23 ^^^ e 3

/-- Three additions to a column change its parity as one does. -/
theorem parity_addColumns (a : State) (e : Fin 4 → Word) (x : Fin 4) :
    Inv.parity (addColumns a e) x = Inv.parity a x ^^^ e x := by
  have hthree : ∀ u v w d : Word, (u ^^^ d) ^^^ (v ^^^ d) ^^^ (w ^^^ d) = u ^^^ v ^^^ w ^^^ d := by
    intro u v w d
    have hpairs : (u ^^^ d) ^^^ (v ^^^ d) ^^^ (w ^^^ d) = u ^^^ v ^^^ w ^^^ d ^^^ (d ^^^ d) := by
      ac_rfl
    rw [hpairs, BitVec.xor_self, BitVec.xor_zero]
  fin_cases x <;> exact hthree _ _ _ _

theorem addColumns_addColumns (a : State) (e e' : Fin 4 → Word) :
    addColumns (addColumns a e) e' = addColumns a fun x => e x ^^^ e' x := by
  simp only [addColumns, BitVec.xor_assoc]

@[simp] theorem addColumns_zero (a : State) : addColumns a (fun _ => 0) = a := by
  simp [addColumns]

/-- The effect that `theta` adds to a column. -/
def thetaEffect (p : Fin 4 → Word) (x : Fin 4) : Word :=
  (p (west x)).rotateLeft 5 ^^^ (p (west x)).rotateLeft 14

theorem theta_eq (a : State) : theta a = addColumns a (thetaEffect (Inv.parity a)) := rfl

theorem inv_theta_eq (a : State) : Inv.theta a =
    addColumns a fun x => mixChain west 5 14 5 (Inv.parity a) x ^^^ Inv.parity a x := by
  rw [← foldl_effectStep]
  rfl

theorem parity_theta (a : State) : Inv.parity (theta a) = mix west 5 14 (Inv.parity a) := by
  funext x
  rw [theta_eq, parity_addColumns, thetaEffect, mix, BitVec.xor_assoc]

theorem parity_inv_theta (a : State) :
    Inv.parity (Inv.theta a) = mixChain west 5 14 5 (Inv.parity a) := by
  funext x
  rw [inv_theta_eq, parity_addColumns, BitVec.xor_comm, BitVec.xor_assoc, BitVec.xor_self,
    BitVec.xor_zero]

theorem thetaEffect_eq (p : Fin 4 → Word) (x : Fin 4) :
    thetaEffect p x = p x ^^^ mix west 5 14 p x := by
  rw [thetaEffect, mix, BitVec.xor_assoc, ← BitVec.xor_assoc (p x), BitVec.xor_self,
    BitVec.zero_xor]

theorem inv_theta_theta (a : State) : Inv.theta (theta a) = a := by
  rw [inv_theta_eq, parity_theta, mixChain_mix_west, theta_eq, addColumns_addColumns]
  have hzero : (fun x => thetaEffect (Inv.parity a) x ^^^
      (Inv.parity a x ^^^ mix west 5 14 (Inv.parity a) x)) = fun _ => 0 := by
    funext x
    rw [← thetaEffect_eq, BitVec.xor_self]
    rfl
  rw [hzero, addColumns_zero]

theorem theta_inv_theta (a : State) : theta (Inv.theta a) = a := by
  rw [theta_eq, parity_inv_theta, inv_theta_eq, addColumns_addColumns]
  have hzero : (fun x => mixChain west 5 14 5 (Inv.parity a) x ^^^ Inv.parity a x ^^^
      thetaEffect (mixChain west 5 14 5 (Inv.parity a)) x) = fun _ => 0 := by
    funext x
    rw [thetaEffect_eq, mix_mixChain_west, BitVec.xor_self]
    rfl
  rw [hzero, addColumns_zero]

end Theta

section Steps

theorem rotr_rotateLeft (x : Word) (n : ℕ) : Inv.rotr (x.rotateLeft n) n = x := by
  rw [rotr_natCast, rotateRight_rotateLeft]

theorem rotateLeft_rotr (x : Word) (n : ℕ) : (Inv.rotr x n).rotateLeft n = x := by
  rw [rotr_natCast, rotateLeft_rotateRight]

theorem inv_rhoWest_rhoWest (a : State) : Inv.rhoWest (rhoWest a) = a := by
  have hrot : ∀ x : Word, Inv.rotr (x.rotateLeft 11) 11 = x := fun x => rotr_rotateLeft x 11
  simp only [Inv.rhoWest, rhoWest, hrot]

theorem rhoWest_inv_rhoWest (a : State) : rhoWest (Inv.rhoWest a) = a := by
  have hrot : ∀ x : Word, (Inv.rotr x 11).rotateLeft 11 = x := fun x => rotateLeft_rotr x 11
  simp only [Inv.rhoWest, rhoWest, hrot]

theorem inv_rhoEast_rhoEast (a : State) : Inv.rhoEast (rhoEast a) = a := by
  have hrot : ∀ x : Word, Inv.rotr (x.rotateLeft 1) 1 = x := fun x => rotr_rotateLeft x 1
  have hrot8 : ∀ x : Word, Inv.rotr (x.rotateLeft 8) 8 = x := fun x => rotr_rotateLeft x 8
  simp only [Inv.rhoEast, rhoEast, hrot, hrot8]

theorem rhoEast_inv_rhoEast (a : State) : rhoEast (Inv.rhoEast a) = a := by
  have hrot : ∀ x : Word, (Inv.rotr x 1).rotateLeft 1 = x := fun x => rotateLeft_rotr x 1
  have hrot8 : ∀ x : Word, (Inv.rotr x 8).rotateLeft 8 = x := fun x => rotateLeft_rotr x 8
  simp only [Inv.rhoEast, rhoEast, hrot, hrot8]

@[simp] theorem iota_iota (rc : Word) (a : State) : iota rc (iota rc a) = a := by
  simp only [iota, BitVec.xor_assoc, BitVec.xor_self, BitVec.xor_zero]

/-- The assignments of a column run one after the other and still undo themselves. -/
theorem chiColumn_chiColumn (a0 a1 a2 : Word) :
    chiColumn (chiColumn a0 a1 a2).1 (chiColumn a0 a1 a2).2.1 (chiColumn a0 a1 a2).2.2 =
      (a0, a1, a2) := by
  have hbits : ∀ x y z : Bool,
      let x' := x ^^ (!y && z)
      let y' := y ^^ (!z && x')
      let z' := z ^^ (!x' && y')
      let x'' := x' ^^ (!y' && z')
      let y'' := y' ^^ (!z' && x'')
      x'' = x ∧ y'' = y ∧ (z' ^^ (!x'' && y'')) = z := by decide
  simp only [chiColumn, Prod.mk.injEq]
  refine ⟨?_, ?_, ?_⟩
  · ext i hi
    simp only [BitVec.getElem_xor, BitVec.getElem_and, BitVec.getElem_not]
    exact (hbits a0[i] a1[i] a2[i]).1
  · ext i hi
    simp only [BitVec.getElem_xor, BitVec.getElem_and, BitVec.getElem_not]
    exact (hbits a0[i] a1[i] a2[i]).2.1
  · ext i hi
    simp only [BitVec.getElem_xor, BitVec.getElem_and, BitVec.getElem_not]
    exact (hbits a0[i] a1[i] a2[i]).2.2

theorem chi_chi (a : State) : chi (chi a) = a := by
  have h0 := chiColumn_chiColumn a.a00 a.a10 a.a20
  have h1 := chiColumn_chiColumn a.a01 a.a11 a.a21
  have h2 := chiColumn_chiColumn a.a02 a.a12 a.a22
  have h3 := chiColumn_chiColumn a.a03 a.a13 a.a23
  simp only [chi, h0, h1, h2, h3]

theorem inv_round_round (a : State) (rc : Word) : Inv.round (round a rc) rc = a := by
  rw [Inv.round, round, Inv.chi, inv_rhoEast_rhoEast, chi_chi, iota_iota, inv_rhoWest_rhoWest,
    inv_theta_theta]

theorem round_inv_round (a : State) (rc : Word) : round (Inv.round a rc) rc = a := by
  rw [Inv.round, round, Inv.chi, theta_inv_theta, rhoWest_inv_rhoWest, iota_iota, chi_chi,
    rhoEast_inv_rhoEast]

theorem inv_run_eq (a : State) : Inv.run a = rc.foldr (fun c a => Inv.round a c) a := by
  rw [← List.foldl_reverse]
  rfl

theorem inv_run_permute12 (a : State) : Inv.run (permute12 a) = a := by
  rw [inv_run_eq]
  exact foldr_foldl_cancel (P := fun _ => True) (g := fun c a => Inv.round a c)
    (fun _ _ _ => trivial) (fun rc a _ => inv_round_round a rc) rc trivial

theorem permute12_inv_run (a : State) : permute12 (Inv.run a) = a := by
  rw [inv_run_eq]
  exact foldl_foldr_cancel (P := fun _ => True) (g := fun c a => Inv.round a c)
    (fun _ _ _ => trivial) (fun rc a _ => round_inv_round a rc) rc trivial

end Steps

section Bytes

theorem load_store (a : State) : State.load a.store = a := by
  have hwords := loadWords_storeWords a.lanes
  rw [State.load, State.store]
  exact congrArg State.ofLanes hwords

theorem lanes_ofLanes {ws : List Word} (h : ws.length = 12) : (State.ofLanes ws).lanes = ws := by
  match ws, h with
  | [_, _, _, _, _, _, _, _, _, _, _, _], _ => rfl

theorem store_load {data : List Byte} (h : data.length = 48) : (State.load data).store = data := by
  rw [State.load, State.store, lanes_ofLanes (length_loadWords _ _), storeWords_loadWords h]

/-- `decryptBytes` and `encryptBytes` are inverse to each other. -/
theorem decryptBytes_encryptBytes (x : List Byte) (hx : x.length = 48) :
    (encryptBytes x >>= decryptBytes) = .ok x ∧ (decryptBytes x >>= encryptBytes) = .ok x := by
  have hlen : ∀ a : State, a.store.length = 48 := fun a => length_storeWords a.lanes
  constructor
  · rw [encryptBytes, check, throwIf, if_neg (not_not.mpr hx), ok_bind, pure_eq_ok, ok_bind,
      decryptBytes, check, throwIf, if_neg (not_not.mpr (hlen _)), load_store, inv_run_permute12,
      store_load hx]
    rfl
  · rw [decryptBytes, check, throwIf, if_neg (not_not.mpr hx), ok_bind, pure_eq_ok, ok_bind,
      encryptBytes, check, throwIf, if_neg (not_not.mpr (hlen _)), load_store, permute12_inv_run,
      store_load hx]
    rfl

theorem decryptBytes_encryptBytes_zeros :
    (encryptBytes (List.replicate 48 0) >>= decryptBytes) = .ok (List.replicate 48 0) ∧
      (decryptBytes (List.replicate 48 0) >>= encryptBytes) = .ok (List.replicate 48 0) :=
  decryptBytes_encryptBytes (List.replicate 48 0) rfl

end Bytes

end PqPsi.Permutation.Xoodoo
