import PqPsi.Lib.Exceptions
import PqPsi.Lib.Inverses
import PqPsi.Lib.Words
import PqPsi.Common.Block

/-!
# Xoodoo and its inverse

The permutation of twelve lanes as XKCP writes it, and the inverse of
`xoodoo_inv`. The column parities are mixed by a three-term mixer of order
32, so the inverse mixing step is its 31st power, built by repeated squaring.
-/
namespace PqPsi.Permutation.Xoodoo
open Lib.Exceptions Lib.Inverses Lib.Words

abbrev Word := BitVec 32

/-- The lanes in the order of the array `A`. -/
@[ext]
structure State where
  a00 : Word
  a01 : Word
  a02 : Word
  a03 : Word
  a10 : Word
  a11 : Word
  a12 : Word
  a13 : Word
  a20 : Word
  a21 : Word
  a22 : Word
  a23 : Word
deriving DecidableEq

section Forward

/-- `Theta`: column parity mixer. -/
def theta (a : State) : State :=
  let v1 := a.a03 ^^^ a.a13 ^^^ a.a23
  let v2 := a.a00 ^^^ a.a10 ^^^ a.a20
  let v1 := v1.rotateLeft 5 ^^^ v1.rotateLeft 14
  let a := { a with a00 := a.a00 ^^^ v1, a10 := a.a10 ^^^ v1, a20 := a.a20 ^^^ v1 }
  let v1 := a.a01 ^^^ a.a11 ^^^ a.a21
  let v2 := v2.rotateLeft 5 ^^^ v2.rotateLeft 14
  let a := { a with a01 := a.a01 ^^^ v2, a11 := a.a11 ^^^ v2, a21 := a.a21 ^^^ v2 }
  let v2 := a.a02 ^^^ a.a12 ^^^ a.a22
  let v1 := v1.rotateLeft 5 ^^^ v1.rotateLeft 14
  let a := { a with a02 := a.a02 ^^^ v1, a12 := a.a12 ^^^ v1, a22 := a.a22 ^^^ v1 }
  let v2 := v2.rotateLeft 5 ^^^ v2.rotateLeft 14
  { a with a03 := a.a03 ^^^ v2, a13 := a.a13 ^^^ v2, a23 := a.a23 ^^^ v2 }

/-- `Rho_west`: plane shift. -/
def rhoWest (a : State) : State :=
  { a with
    a20 := a.a20.rotateLeft 11, a21 := a.a21.rotateLeft 11
    a22 := a.a22.rotateLeft 11, a23 := a.a23.rotateLeft 11
    a13 := a.a12, a12 := a.a11, a11 := a.a10, a10 := a.a13 }

/-- `Iota`: round constants. -/
def iota (rc : Word) (a : State) : State := { a with a00 := a.a00 ^^^ rc }

/-- One column of `Chi`, in place. -/
def chiColumn (a0 a1 a2 : Word) : Word × Word × Word :=
  let a0 := a0 ^^^ (~~~a1 &&& a2)
  let a1 := a1 ^^^ (~~~a2 &&& a0)
  let a2 := a2 ^^^ (~~~a0 &&& a1)
  (a0, a1, a2)

/-- `Chi`: nonlinear step, on columns. -/
def chi (a : State) : State :=
  let (a00, a10, a20) := chiColumn a.a00 a.a10 a.a20
  let (a01, a11, a21) := chiColumn a.a01 a.a11 a.a21
  let (a02, a12, a22) := chiColumn a.a02 a.a12 a.a22
  let (a03, a13, a23) := chiColumn a.a03 a.a13 a.a23
  ⟨a00, a01, a02, a03, a10, a11, a12, a13, a20, a21, a22, a23⟩

/-- `Rho_east`: plane shift. -/
def rhoEast (a : State) : State :=
  { a with
    a10 := a.a10.rotateLeft 1, a11 := a.a11.rotateLeft 1
    a12 := a.a12.rotateLeft 1, a13 := a.a13.rotateLeft 1
    a23 := a.a21.rotateLeft 8, a21 := a.a23.rotateLeft 8
    a22 := a.a20.rotateLeft 8, a20 := a.a22.rotateLeft 8 }

def round (a : State) (rc : Word) : State := rhoEast (chi (iota rc (rhoWest (theta a))))

/-- The constants `_rc12` to `_rc1`. -/
def rc : List Word :=
  [0x58, 0x38, 0x3C0, 0xD0, 0x120, 0x14, 0x60, 0x2C, 0x380, 0xF0, 0x1A0, 0x12]

/-- `Xoodoo_plain_Permute_12rounds`. -/
def permute12 (a : State) : State := rc.foldl round a

end Forward

namespace Inv

/-- `n & 31` of a signed distance. -/
def rot (x : Word) (n : ℤ) : Word := x.rotateLeft (n % 32).toNat

def rotr (x : Word) (n : ℤ) : Word := rot x (-n)

def xm (x : ℤ) : Fin 4 := Fin.ofNat 4 ((x.tmod 4 + 4).tmod 4).toNat

/-- One turn of the loop over `p` in the inverse `theta`. -/
def effectStep (prev : Fin 4 → Word) (p : ℕ) (x : Fin 4) : Word :=
  let v := prev (xm (x - p))
  prev x ^^^ rot v (5 * p) ^^^ rot v (14 * p)

def parity (a : State) : Fin 4 → Word :=
  ![a.a00 ^^^ a.a10 ^^^ a.a20, a.a01 ^^^ a.a11 ^^^ a.a21,
    a.a02 ^^^ a.a12 ^^^ a.a22, a.a03 ^^^ a.a13 ^^^ a.a23]

def theta (a : State) : State :=
  let effect := [1, 2, 4, 8, 16].foldl effectStep (parity a)
  let effect x := effect x ^^^ parity a x
  { a00 := a.a00 ^^^ effect 0, a01 := a.a01 ^^^ effect 1
    a02 := a.a02 ^^^ effect 2, a03 := a.a03 ^^^ effect 3
    a10 := a.a10 ^^^ effect 0, a11 := a.a11 ^^^ effect 1
    a12 := a.a12 ^^^ effect 2, a13 := a.a13 ^^^ effect 3
    a20 := a.a20 ^^^ effect 0, a21 := a.a21 ^^^ effect 1
    a22 := a.a22 ^^^ effect 2, a23 := a.a23 ^^^ effect 3 }

def rhoWest (a : State) : State :=
  { a with
    a20 := rotr a.a20 11, a21 := rotr a.a21 11, a22 := rotr a.a22 11, a23 := rotr a.a23 11
    a10 := a.a11, a11 := a.a12, a12 := a.a13, a13 := a.a10 }

def rhoEast (a : State) : State :=
  { a with
    a10 := rotr a.a10 1, a11 := rotr a.a11 1, a12 := rotr a.a12 1, a13 := rotr a.a13 1
    a20 := rotr a.a22 8, a21 := rotr a.a23 8, a22 := rotr a.a20 8, a23 := rotr a.a21 8 }

/-- The in-place `chi` of the inverse is the forward one. -/
def chi (a : State) : State := Xoodoo.chi a

def round (a : State) (c : Word) : State := theta (rhoWest (iota c (chi (rhoEast a))))

def rc : List Word :=
  [0x12, 0x1A0, 0xF0, 0x380, 0x2C, 0x60, 0x14, 0x120, 0xD0, 0x3C0, 0x38, 0x58]

def run (a : State) : State := rc.foldl round a

end Inv

section Bytes

def check (bytes : ℕ) : Except Err Unit :=
  throwIf (bytes ≠ 48) "xoodoo expects exactly 48 bytes"

def State.lanes (a : State) : List Word :=
  [a.a00, a.a01, a.a02, a.a03, a.a10, a.a11, a.a12, a.a13, a.a20, a.a21, a.a22, a.a23]

def State.ofLanes (ws : List Word) : State where
  a00 := ws.getD 0 0
  a01 := ws.getD 1 0
  a02 := ws.getD 2 0
  a03 := ws.getD 3 0
  a10 := ws.getD 4 0
  a11 := ws.getD 5 0
  a12 := ws.getD 6 0
  a13 := ws.getD 7 0
  a20 := ws.getD 8 0
  a21 := ws.getD 9 0
  a22 := ws.getD 10 0
  a23 := ws.getD 11 0

/-- `memcpy` of 48 bytes into the lanes, on a little-endian machine. -/
def State.load (data : List Byte) : State := .ofLanes (loadWords 12 data)

def State.store (a : State) : List Byte := storeWords a.lanes

def encryptBytes (data : List Byte) : Except Err (List Byte) := do
  check data.length
  return (permute12 (.load data)).store

def decryptBytes (data : List Byte) : Except Err (List Byte) := do
  check data.length
  return (Inv.run (.load data)).store

end Bytes

end PqPsi.Permutation.Xoodoo
