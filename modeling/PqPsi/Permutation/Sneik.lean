import PqPsi.Common.Block
import PqPsi.Lib.Inverses
import PqPsi.Lib.Words

/-!
# SNEIK f512 and its inverse

The forward permutation keeps four words in registers and writes the array
behind them. Seen from the array alone, a round mixes each word once with its
neighbours, and the inverse undoes the words from the last to the first.
-/
namespace PqPsi.Permutation.Sneik
open Lib.Inverses Lib.Words

abbrev Word := BitVec 32

/-- The array `sv` or `v`; its indices are taken modulo 16. -/
@[ext]
structure State where
  word : Fin 16 → Word

instance : CoeFun State fun _ => Fin 16 → Word := ⟨State.word⟩

def State.set (v : State) (j : Fin 16) (x : Word) : State := ⟨Function.update v.word j x⟩

def rotr (x : Word) (n : ℕ) : Word := x >>> n ||| x <<< (32 - n)

def linA (x : Word) : Word := x ^^^ rotr x 7 ^^^ rotr x 8

def linB (x : Word) : Word := x ^^^ rotr x 15 ^^^ rotr x 23

def rc : List Byte :=
  [0xEF, 0xE0, 0xD9, 0xD6, 0xBA, 0xB5, 0x8C, 0x83,
    0x10, 0x1F, 0x26, 0x29, 0x45, 0x4A, 0x73, 0x7C]

def place (k : ℕ) : Fin 16 := Fin.ofNat 16 k

def State.load (state : List Byte) : State :=
  let sv := loadWords 16 state
  ⟨fun i => sv.getD i 0⟩

def State.store (v : State) : List Byte := storeWords (List.ofFn v)

section Forward

/-- The array and the registers in the roles that `MIX_F` gives them. -/
@[ext]
structure Regs where
  vec : State
  t0 : Word
  t1 : Word
  t2 : Word
  t3 : Word

/-- `MIX_F`. From one use to the next the registers move on by one role. -/
def mixF (r : Regs) (pos : Fin 16) : Regs :=
  let t0 := r.t0 + r.t3
  let t0 := linA t0
  let t0 := t0 ^^^ r.t2
  let t2 := r.vec (pos + 2)
  let t0 := t0 + t2
  let t0 := linB t0
  let t0 := t0 ^^^ r.t1
  ⟨r.vec.set pos t0, r.t1, t2, r.t3, t0⟩

def round (dom c : Byte) (r : Regs) : Regs :=
  (List.range 16).foldl (fun r k => mixF r (place k))
    { r with t0 := r.t0 ^^^ c.setWidth 32, t1 := r.t1 ^^^ dom.setWidth 32 }

/-- The registers as they are loaded. -/
def Regs.ofState (sv : State) : Regs := ⟨sv, sv 0, sv 1, sv 14, sv 15⟩

/-- `sneik_f512`. -/
def sneikF512 (state : List Byte) (dom : Byte) (rounds : ℕ) : List Byte :=
  ((List.range rounds).foldl (fun r i => round dom (rc.getD i 0) r)
    (.ofState (.load state))).vec.store

end Forward

section Backward
variable (invA invB : Word → Word)

/-- One turn of the inner loop of `invert`. -/
def unmix (j : Fin 16) (v : State) : State :=
  let x := v j ^^^ v (j + 1)
  let x := invB x
  let x := x - v (j + 2)
  let x := x ^^^ v (j + 14)
  let x := invA x
  let x := x - v (j + 15)
  v.set j x

def removeConstants (dom c : Byte) (v : State) : State :=
  let v := v.set 1 (v 1 ^^^ dom.setWidth 32)
  v.set 0 (v 0 ^^^ c.setWidth 32)

/-- One turn of the outer loop of `invert`. -/
def unround (dom c : Byte) (v : State) : State :=
  removeConstants dom c ((List.range 16).foldr (fun k v => unmix invA invB (place k) v) v)

/-- `invert`, given the inverses of `linA` and `linB` that its tables hold. -/
def invertWith (state : List Byte) (dom : Byte) (rounds : ℕ) : List Byte :=
  ((List.range rounds).foldr (fun i v => unround invA invB dom (rc.getD i 0) v)
    (.load state)).store

end Backward

namespace State
variable (v : State) {i j : Fin 16} (x y : Word)

@[simp] theorem set_self (j : Fin 16) : v.set j x j = x := Function.update_self _ _ _

theorem set_of_ne (h : i ≠ j) : v.set j x i = v i := Function.update_of_ne h _ _

@[simp] theorem set_set (j : Fin 16) : (v.set j x).set j y = v.set j y :=
  State.ext (Function.update_idem _ _ _)

@[simp] theorem set_get (j : Fin 16) : v.set j (v j) = v := State.ext (Function.update_eq_self _ _)

theorem set_comm (h : i ≠ j) : (v.set i x).set j y = (v.set j y).set i x :=
  State.ext (Function.update_comm h _ _ _)

end State

section Registers

/-- The mixing step on the array. -/
def mixAt (v : State) (j : Fin 16) : State :=
  v.set j (linB ((linA (v j + v (j + 15)) ^^^ v (j + 14)) + v (j + 2)) ^^^ v (j + 1))

def addConstants (dom c : Byte) (v : State) : State :=
  let v := v.set 0 (v 0 ^^^ c.setWidth 32)
  v.set 1 (v 1 ^^^ dom.setWidth 32)

/-- A round on the array. -/
def plainRound (dom c : Byte) (v : State) : State :=
  (List.range 16).foldl (fun v k => mixAt v (place k)) (addConstants dom c v)

/-- The registers hold the words around place `k`; elsewhere the array is up to date. -/
structure Tracks (r : Regs) (v : State) (k : ℕ) : Prop where
  t0 : r.t0 = v (place k)
  t1 : r.t1 = v (place k + 1)
  t2 : r.t2 = v (place k + 14)
  t3 : r.t3 = v (place k + 15)
  vec : ∀ i : Fin 16, i < k ∨ k + 2 ≤ i → r.vec i = v i

theorem place_succ (k : ℕ) : place (k + 1) = place k + 1 := by
  apply Fin.ext
  simp [place, Fin.ofNat, Fin.val_add]

theorem tracks_mixF {r : Regs} {v : State} {k : ℕ} (h : Tracks r v k) (hk : k < 16) :
    Tracks (mixF r (place k)) (mixAt v (place k)) (k + 1) := by
  have hval : (place k).val = k := Nat.mod_eq_of_lt hk
  have hnext : r.vec (place k + 2) = v (place k + 2) := by
    apply h.vec
    have htwo : (place k + 2).val = (k + 2) % 16 := by
      rw [Fin.val_add, hval]
      rfl
    omega
  have hnew : (mixF r (place k)).t3 = mixAt v (place k) (place k) := by
    simp only [mixF, mixAt, State.set_self, h.t0, h.t1, h.t2, h.t3, hnext]
  have hother : ∀ j : Fin 16, j ≠ place k → mixAt v (place k) j = v j := fun j hj =>
    State.set_of_ne v _ hj
  have hplace : ∀ p : Fin 16, p + 1 ≠ p ∧ p + 1 + 1 ≠ p ∧ p + 1 + 14 ≠ p ∧ p + 1 + 1 = p + 2 ∧
      p + 1 + 14 = p + 15 ∧ p + 1 + 15 = p := by decide
  obtain ⟨h1, h2, h14, e2, e14, e15⟩ := hplace (place k)
  constructor
  · rw [place_succ, hother _ h1]
    exact h.t1
  · rw [place_succ, hother _ h2, e2]
    exact hnext
  · rw [place_succ, hother _ h14, e14]
    exact h.t3
  · rw [place_succ, e15]
    exact hnew
  · intro i hi
    by_cases hik : i = place k
    · subst hik
      exact (State.set_self _ _ _).trans hnew
    · rw [hother i hik]
      have hne : i.val ≠ k := fun he => hik (Fin.ext (he.trans hval.symm))
      exact (State.set_of_ne _ _ hik).trans (h.vec i (by omega))

theorem tracks_foldl {r : Regs} {v : State} (h : Tracks r v 0) {n : ℕ} (hn : n ≤ 16) :
    Tracks ((List.range n).foldl (fun r k => mixF r (place k)) r)
      ((List.range n).foldl (fun v k => mixAt v (place k)) v) n := by
  induction n with
  | zero => exact h
  | succ n ih =>
    rw [List.range_succ, List.foldl_append, List.foldl_append]
    exact tracks_mixF (ih (by omega)) (by omega)

theorem round_ofState (dom c : Byte) (v : State) :
    round dom c (.ofState v) = .ofState (plainRound dom c v) := by
  have hstart : Tracks { Regs.ofState v with
      t0 := v 0 ^^^ c.setWidth 32, t1 := v 1 ^^^ dom.setWidth 32 } (addConstants dom c v) 0 := by
    refine ⟨rfl, rfl, rfl, rfl, fun i hi => ?_⟩
    have h0 : i ≠ 0 := by rintro rfl; simp at hi
    have h1 : i ≠ 1 := by rintro rfl; simp at hi
    exact ((State.set_of_ne _ _ h1).trans (State.set_of_ne _ _ h0)).symm
  -- after sixteen steps the registers are back at the front
  have hend : Tracks (round dom c (.ofState v)) (plainRound dom c v) 16 :=
    tracks_foldl hstart le_rfl
  generalize round dom c (.ofState v) = r at hend ⊢
  generalize plainRound dom c v = v' at hend ⊢
  have hall : r.vec = v' := by
    apply State.ext
    funext i
    exact hend.vec i (.inl i.isLt)
  exact Regs.ext hall hend.t0 hend.t1 hend.t2 hend.t3

theorem sneikF512_eq (state : List Byte) (dom : Byte) (rounds : ℕ) :
    sneikF512 state dom rounds =
      ((List.range rounds).foldl (fun v i => plainRound dom (rc.getD i 0) v)
        (.load state)).store := by
  have hloop : (List.range rounds).foldl (fun r i => round dom (rc.getD i 0) r)
      (.ofState (.load state)) = .ofState ((List.range rounds).foldl
        (fun v i => plainRound dom (rc.getD i 0) v) (.load state)) :=
    List.foldl_hom Regs.ofState fun v i => round_ofState dom _ v
  rw [sneikF512, hloop]
  rfl

end Registers

section Inverse
variable {invA invB : Word → Word}

/-- The neighbours that a mixing step reads are not the word it writes. -/
theorem neighbours_ne : ∀ p : Fin 16, p + 1 ≠ p ∧ p + 2 ≠ p ∧ p + 14 ≠ p ∧ p + 15 ≠ p := by
  decide

theorem xor_xor_same (x y : Word) : x ^^^ y ^^^ y = x := by
  rw [BitVec.xor_assoc, BitVec.xor_self, BitVec.xor_zero]

theorem unmix_mixAt (hA : ∀ x, invA (linA x) = x) (hB : ∀ x, invB (linB x) = x) (j : Fin 16)
    (v : State) : unmix invA invB j (mixAt v j) = v := by
  obtain ⟨h1, h2, h14, h15⟩ := neighbours_ne j
  simp only [unmix, mixAt, State.set_self, State.set_of_ne _ _ h1, State.set_of_ne _ _ h2,
    State.set_of_ne _ _ h14, State.set_of_ne _ _ h15, State.set_set, xor_xor_same, hB, hA,
    BitVec.add_sub_cancel, State.set_get]

theorem mixAt_unmix (hA : ∀ x, linA (invA x) = x) (hB : ∀ x, linB (invB x) = x) (j : Fin 16)
    (v : State) : mixAt (unmix invA invB j v) j = v := by
  obtain ⟨h1, h2, h14, h15⟩ := neighbours_ne j
  simp only [unmix, mixAt, State.set_self, State.set_of_ne _ _ h1, State.set_of_ne _ _ h2,
    State.set_of_ne _ _ h14, State.set_of_ne _ _ h15, State.set_set, xor_xor_same, hB, hA,
    BitVec.sub_add_cancel, State.set_get]

theorem removeConstants_addConstants (dom c : Byte) (v : State) :
    removeConstants dom c (addConstants dom c v) = v := by
  have h01 : (0 : Fin 16) ≠ 1 := by decide
  simp only [removeConstants, addConstants, State.set_self, State.set_set,
    State.set_of_ne _ _ h01.symm, xor_xor_same, State.set_comm _ _ _ h01, State.set_get]

theorem addConstants_removeConstants (dom c : Byte) (v : State) :
    addConstants dom c (removeConstants dom c v) = v := by
  have h01 : (0 : Fin 16) ≠ 1 := by decide
  simp only [removeConstants, addConstants, State.set_self, State.set_set,
    State.set_of_ne _ _ h01, State.set_of_ne _ _ h01.symm, xor_xor_same,
    State.set_comm _ _ _ h01, State.set_get]

theorem unround_plainRound (hA : ∀ x, invA (linA x) = x) (hB : ∀ x, invB (linB x) = x)
    (dom c : Byte) (v : State) : unround invA invB dom c (plainRound dom c v) = v := by
  have hloop := foldr_foldl_cancel (P := fun _ : State => True)
    (f := fun v k => mixAt v (place k)) (g := fun k v => unmix invA invB (place k) v)
    (fun _ _ _ => trivial) (fun k v _ => unmix_mixAt hA hB (place k) v) (List.range 16)
    (x := addConstants dom c v) trivial
  rw [unround, plainRound, hloop, removeConstants_addConstants]

theorem plainRound_unround (hA : ∀ x, linA (invA x) = x) (hB : ∀ x, linB (invB x) = x)
    (dom c : Byte) (v : State) : plainRound dom c (unround invA invB dom c v) = v := by
  have hloop := foldl_foldr_cancel (P := fun _ : State => True)
    (f := fun v k => mixAt v (place k)) (g := fun k v => unmix invA invB (place k) v)
    (fun _ _ _ => trivial) (fun k v _ => mixAt_unmix hA hB (place k) v) (List.range 16)
    (x := v) trivial
  rw [plainRound, unround, addConstants_removeConstants, hloop]

theorem load_store (v : State) : State.load v.store = v := by
  have hwords := loadWords_storeWords (List.ofFn v)
  rw [List.length_ofFn] at hwords
  apply State.ext
  funext i
  rw [State.load, State.store, hwords]
  dsimp only
  rw [List.getD_eq_getElem _ _ (by simp), List.getElem_ofFn]

theorem store_load {state : List Byte} (h : state.length = 64) :
    (State.load state).store = state := by
  have hwords : List.ofFn (State.load state) = loadWords 16 state := by
    apply List.ext_getElem (by simp)
    intro i hi hi'
    rw [List.getElem_ofFn]
    exact List.getD_eq_getElem _ _ hi'
  rw [State.store, hwords, storeWords_loadWords h]

/-- `invert` undoes `sneik_f512` of the same domain and rounds. -/
theorem invertWith_sneikF512 (hA : ∀ x, invA (linA x) = x) (hB : ∀ x, invB (linB x) = x)
    {state : List Byte} (h : state.length = 64) (dom : Byte) (rounds : ℕ) :
    invertWith invA invB (sneikF512 state dom rounds) dom rounds = state := by
  have hloop := foldr_foldl_cancel (P := fun _ : State => True)
    (f := fun v i => plainRound dom (rc.getD i 0) v)
    (g := fun i v => unround invA invB dom (rc.getD i 0) v) (fun _ _ _ => trivial)
    (fun i v _ => unround_plainRound hA hB dom _ v) (List.range rounds)
    (x := State.load state) trivial
  rw [invertWith, sneikF512_eq, load_store, hloop, store_load h]

theorem sneikF512_invertWith (hA : ∀ x, linA (invA x) = x) (hB : ∀ x, linB (invB x) = x)
    {state : List Byte} (h : state.length = 64) (dom : Byte) (rounds : ℕ) :
    sneikF512 (invertWith invA invB state dom rounds) dom rounds = state := by
  have hloop := foldl_foldr_cancel (P := fun _ : State => True)
    (f := fun v i => plainRound dom (rc.getD i 0) v)
    (g := fun i v => unround invA invB dom (rc.getD i 0) v) (fun _ _ _ => trivial)
    (fun i v _ => plainRound_unround hA hB dom _ v) (List.range rounds)
    (x := State.load state) trivial
  rw [sneikF512_eq, invertWith, load_store, hloop, store_load h]

theorem length_store (v : State) : v.store.length = 64 := by
  rw [State.store, length_storeWords, List.length_ofFn]

end Inverse

section Linear

/-- Undoes the mixing of a word with two of its rotations: the 31st power of the mixer. -/
def unlin (a b : ℕ) (x : Word) : Word := mixChain (id : Unit → Unit) a b 5 (fun _ => x) ()

theorem unlin_mix (a b : ℕ) (x : Word) :
    unlin a b (x ^^^ x.rotateLeft a ^^^ x.rotateLeft b) = x ∧
      unlin a b x ^^^ (unlin a b x).rotateLeft a ^^^ (unlin a b x).rotateLeft b = x := by
  have hturn : mix (id : Unit → Unit)^[2 ^ 5] (2 ^ 5 * a) (2 ^ 5 * b) (fun _ => x) = fun _ => x :=
    mix_of_full_turn (fun _ => rfl) (by simp) (by simp) _
  have hmix := mixChain_mix (id : Unit → Unit) a b 5 (fun _ => x)
  have hmix' := mix_mixChain (id : Unit → Unit) a b 5 (fun _ => x)
  rw [hmix] at hmix'
  rw [hturn] at hmix hmix'
  exact ⟨congrFun hmix (), congrFun hmix' ()⟩

theorem linA_eq (x : Word) : linA x = x ^^^ x.rotateLeft 25 ^^^ x.rotateLeft 24 := by
  have h7 : rotr x 7 = x.rotateRight 7 := rfl
  have h8 : rotr x 8 = x.rotateRight 8 := rfl
  rw [linA, h7, h8, rotateRight_eq_rotateLeft, rotateRight_eq_rotateLeft]

theorem linB_eq (x : Word) : linB x = x ^^^ x.rotateLeft 17 ^^^ x.rotateLeft 9 := by
  have h15 : rotr x 15 = x.rotateRight 15 := rfl
  have h23 : rotr x 23 = x.rotateRight 23 := rfl
  rw [linB, h15, h23, rotateRight_eq_rotateLeft, rotateRight_eq_rotateLeft]

/-- `linA` and `linB` are bijective. -/
theorem unlin_linA (x : Word) : unlin 25 24 (linA x) = x ∧ linA (unlin 25 24 x) = x := by
  rw [linA_eq, linA_eq]
  exact unlin_mix 25 24 x

theorem unlin_linB (x : Word) : unlin 17 9 (linB x) = x ∧ linB (unlin 17 9 x) = x := by
  rw [linB_eq, linB_eq]
  exact unlin_mix 17 9 x

end Linear

end PqPsi.Permutation.Sneik
