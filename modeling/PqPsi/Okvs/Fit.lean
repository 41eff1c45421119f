import PqPsi.Common.Block
import PqPsi.Lib.Exceptions

/-!
# Table shape: columns and band width of RB-OKVS

The shape is computed with doubles. `Double` lists the operations the fit
uses, so that every statement over an arbitrary instance holds whatever the
rounding is. The integer part of the resolution, its clamps and its checks
are as in the source.
-/
namespace PqPsi.Okvs
open Lib.Exceptions

/-- The `double` operations of the fit. -/
class Double (F : Type) extends Add F, Sub F, Neg F, Mul F, Div F, OfScientific F where
  ofNat : ℕ → F
  toNat : F → ℕ
  le : F → F → Bool
  lt : F → F → Bool
  abs : F → F
  ceil : F → F
  round : F → F
  log2 : F → F
  text : F → String

/-- Exact arithmetic in place of rounding; `log2` is exact on powers of two. -/
instance : Double ℚ where
  ofNat n := n
  toNat q := ⌊q⌋.toNat
  le a b := decide (a ≤ b)
  lt a b := decide (a < b)
  abs q := if q < 0 then -q else q
  ceil q := ⌈q⌉
  round q := if q < 0 then ⌈q - 1 / 2⌉ else ⌊q + 1 / 2⌋
  log2 q := Nat.log2 q.floor.toNat
  text := toString

/-- `RBParams`; `eps`, `columns` and `bandWidth` at zero mean automatic. -/
structure RBParams (F : Type) where
  lambda : ℕ
  eps : F
  columns : ℕ
  bandWidth : ℕ
  check : Bool
  multiThread : Bool
  workerThreads : ℕ
  startSeed : Block
  maskSeed : Block

/-- The member initialisers of `RBParams`. -/
def rbParams (F : Type) [Double F] : RBParams F where
  lambda := 40
  eps := 0.0
  columns := 0
  bandWidth := 0
  check := true
  multiThread := true
  workerThreads := 4
  startSeed := toBlock 0x9b3a7f21 0x6c8e1d44
  maskSeed := toBlock 0x4f12c0de 0xa55a91b7

/-- `RBInfo`, the resolved shape. -/
structure RBInfo (F : Type) where
  n : ℕ
  lambda : ℕ
  lambdaReal : F
  eps : F
  columns : ℕ
  bandWidth : ℕ
  workerThreads : ℕ

variable {F : Type} [Double F]
open Double (le lt)

def rbDefaultEps (n : ℕ) : F :=
  let n := max n 1
  if n ≤ 128 then 0.12 else if n ≤ 1024 then 0.07 else 0.07

/-- Round up to a multiple of 16, at least 16 and capped at 256. -/
def rbRoundW (w : ℕ) : ℕ :=
  let w := max w 16
  let w := (w + 16 - 1) / 16 * 16
  if w > 256 then 256 else w

def rbLog2 (n : ℕ) : F := Double.log2 (Double.ofNat (max n 1))

def rbLerp (a b t : F) : F := a + (b - a) * t

def rbApprox (a b : F) : Bool := le (Double.abs (a - b)) 0.005

/-- The scan of `RBInterp` for the segment that holds `x`. -/
def rbInterpScan (last x : F) : List (F × F) → F
  | (x₀, y₀) :: (x₁, y₁) :: rest =>
    if le x x₁ then rbLerp y₀ y₁ ((x - x₀) / (x₁ - x₀))
    else rbInterpScan last x ((x₁, y₁) :: rest)
  | _ => last

def rbInterp (xs ys : List F) (x : F) : Except Err F :=
  if xs.isEmpty || ys.isEmpty || xs.length != ys.length then
    .error "RBInterp bad table"
  else if le x (xs.getD 0 0.0) then
    .ok (ys.getD 0 0.0)
  else if le (xs.getD (xs.length - 1) 0.0) x then
    let i := xs.length - 2
    let t := (x - xs.getD i 0.0) / (xs.getD (i + 1) 0.0 - xs.getD i 0.0)
    .ok (rbLerp (ys.getD i 0.0) (ys.getD (i + 1) 0.0) t)
  else
    .ok (rbInterpScan (ys.getD (ys.length - 1) 0.0) x (xs.zip ys))

/-- The empirical corrections: a size bound, then pairs of `eps` and `g`. -/
def rbGEmpirical : List (ℕ × List (F × F)) :=
  [(128, [(0.10, 21.29), (0.11, 20.63), (0.12, 21.51), (0.13, 19.97), (0.14, 21.51), (0.15, 26.80),
      (0.16, 22.39), (0.17, 21.29), (0.18, 24.15), (0.19, 23.27), (0.20, 22.39)]),
    (256, [(0.07, 25.36), (0.08, 27.68), (0.09, 24.15), (0.10, 26.80), (0.11, 27.90), (0.12, 26.80)]),
    (512, [(0.07, 24.59), (0.08, 27.68), (0.09, 28.12), (0.10, 26.80), (0.11, 27.90), (0.12, 26.80)]),
    (1024, [(0.07, 23.82)])]

def rbGEps : List F := [0.03, 0.05, 0.07, 0.10]

def rbGLog : List F := [10.0, 14.0, 16.0, 18.0, 20.0]

/-- The paper's grid, one row for each `eps` and one column for each `log n`. -/
def rbGGrid : List (List F) :=
  [[-3.4, -6.1, -7.5, -9.0, -10.7],
    [-4.3, -7.5, -9.2, -10.8, -12.9],
    [-5.3, -8.3, -10.3, -12.1, -14.0],
    [-6.3, -9.4, -11.6, -13.5, -15.3]]

/-- The paper fit, interpolated in `log n` and then in `eps`. -/
def rbGPaper (n : ℕ) (eps : F) : Except Err F := do
  let log : F := rbLog2 n
  let logN : F := if lt 10.0 log then log else 10.0
  let gAtN ← rbGGrid.mapM fun row => rbInterp rbGLog row logN
  if le eps (rbGEps.getD 0 0.0) then
    pure (gAtN.getD 0 0.0)
  else if le (rbGEps.getD 3 0.0) eps then
    let t := (eps - rbGEps.getD 2 0.0) / (rbGEps.getD 3 0.0 - rbGEps.getD 2 0.0)
    pure (rbLerp (gAtN.getD 2 0.0) (gAtN.getD 3 0.0) t)
  else
    rbInterp rbGEps gAtN eps

def rbGOf (n : ℕ) (eps : F) : Except Err F :=
  let eps2 : F := Double.round (eps * 100.0) / 100.0
  match ((rbGEmpirical.filter fun size => n ≤ size.1).flatMap Prod.snd).find?
      fun entry => rbApprox eps2 entry.1 with
  | some entry => .ok entry.2
  | none => rbGPaper n eps

def rbEpsOf (n columns : ℕ) : F :=
  let n := max n 1
  let columns := max columns n
  Double.ofNat columns / Double.ofNat n - 1.0

def rbLambdaMain (bandWidth : ℕ) (eps : F) : F :=
  if le eps 0.0 || bandWidth == 0 then 0.0 else 2.751 * eps * Double.ofNat bandWidth

def rbLambdaOf (n bandWidth : ℕ) (eps : F) : Except Err F := do
  return rbLambdaMain bandWidth eps + (← rbGOf n eps)

def rbNeedW (n lambda : ℕ) (eps : F) : Except Err ℕ := do
  throwIf (le eps 0.0) "RBNeedW eps <= 0"
  let g ← rbGOf n eps
  let needD : F := Double.ceil ((Double.ofNat lambda - g) / (2.751 * eps))
  if le needD 1.0 then return 1
  return Double.toNat needD

def rbWidth (F : Type) [Double F] (n lambda : ℕ) : Except Err ℕ := do
  let n := max n 1
  if n ≤ 128 then return 64
  if n ≤ 256 then return 88
  if n ≤ 512 then return 96
  if n ≤ 1024 then return 104
  if n ≤ 2048 then return 240
  let eps : F := rbDefaultEps n
  let g ← rbGOf n eps
  let need : F := Double.ceil ((Double.ofNat lambda - g) / (2.751 * eps))
  let needD : F := if lt 1.0 need then need else 1.0
  return rbRoundW (Double.toNat needD)

/-- `ceil((1 + eps) * n)`, never below `n`. -/
def rbCeilCols (n : ℕ) (eps : F) : ℕ :=
  max n (Double.toNat (Double.ceil ((1.0 + eps) * Double.ofNat n)))

def rbSize (F : Type) [Double F] (n : ℕ) : ℕ :=
  let n := max n 1
  rbCeilCols n (rbDefaultEps n : F)

def rbTableSize (n : ℕ) (params : RBParams F) : ℕ :=
  let n := max n 1
  if params.columns ≠ 0 then max params.columns n
  else if lt 0.0 params.eps then rbCeilCols n params.eps
  else rbSize F n

def rbTableW (n columns : ℕ) (params : RBParams F) : Except Err ℕ :=
  if params.bandWidth ≠ 0 then .ok params.bandWidth
  else if params.columns ≠ 0 || lt 0.0 params.eps then
    rbNeedW n params.lambda (rbEpsOf n columns : F)
  else rbWidth F n params.lambda

def rbCheck (n : ℕ) (params : RBParams F) (info : RBInfo F) : Except Err Unit := do
  throwIf (params.lambda = 0) "RBCheck lambda == 0"
  throwIf (lt params.eps 0.0) "RBCheck eps < 0"
  throwIf (info.bandWidth > 256) "RBCheck width > 256"
  throwIf (info.bandWidth > info.columns) "RBCheck width > columns"
  throwIf (params.columns ≠ 0 ∧ lt 0.0 params.eps ∧
    params.columns ≠ rbCeilCols (max n 1) params.eps) "RBCheck eps and columns mismatch"
  if !params.check then return
  let needW ← rbNeedW info.n info.lambda info.eps
  throwIf (info.bandWidth < needW)
    ("RBCheck lambda target not met n=" ++ toString info.n ++
      " lambda=" ++ toString info.lambda ++ " eps=" ++ Double.text info.eps ++
      " w=" ++ toString info.bandWidth ++ " needW=" ++ toString needW ++
      " lambdaReal=" ++ Double.text info.lambdaReal)

/-- `RBHwThreads`. -/
def rbHwThreads (env : Env) : ℕ := max 1 env.hardwareConcurrency

def rbWorkerThreads (env : Env) (multiThread : Bool) (requested : ℕ) : ℕ :=
  if !multiThread then 1
  else if requested = 0 then rbHwThreads env
  else max 1 (min requested (rbHwThreads env))

/-- `RBInfoOf`: resolve the shape for `n` keys, or throw. -/
def rbInfoOf (env : Env) (n : ℕ) (params : RBParams F) : Except Err (RBInfo F) := do
  let n := max n 1
  let columns := rbTableSize n params
  let eps : F := rbEpsOf n columns
  let bandWidth ← rbTableW n columns params
  let lambdaReal ← rbLambdaOf n bandWidth eps
  let bandWidth := if bandWidth = 0 then 1 else bandWidth
  throwIf (bandWidth > 256) "RBInfoOf width > 256"
  throwIf (bandWidth > columns) "RBInfoOf width > columns"
  let info : RBInfo F :=
    { n, lambda := params.lambda, lambdaReal, eps, columns, bandWidth,
      workerThreads := rbWorkerThreads env params.multiThread params.workerThreads }
  rbCheck n params info
  return info

theorem rbRoundW_bounds (w : ℕ) : 16 ≤ rbRoundW w ∧ rbRoundW w ≤ 256 := by
  simp only [rbRoundW]
  split_ifs <;> omega

theorem rbWidth_pos {n lambda w : ℕ} (h : rbWidth F n lambda = .ok w) : 0 < w := by
  unfold rbWidth at h
  dsimp only at h
  split_ifs at h
  case neg =>
    obtain ⟨g, -, h⟩ := bind_eq_ok.mp h
    obtain rfl := Except.ok.inj h
    exact lt_of_lt_of_le (by decide) (rbRoundW_bounds _).1
  all_goals
    obtain rfl := Except.ok.inj h
    decide

/-- Every resolved shape is usable by the band codec. -/
theorem rbInfoOf_bounds {env : Env} {n : ℕ} {params : RBParams F} {info : RBInfo F}
    (h : rbInfoOf env n params = .ok info) :
    1 ≤ info.bandWidth ∧ info.bandWidth ≤ 256 ∧ info.bandWidth ≤ info.columns := by
  simp only [rbInfoOf, bind_eq_ok, throwIf_eq_ok, pure_eq_ok, Except.ok.injEq] at h
  obtain ⟨w, -, l, -, u, hw, u', hc, u'', -, rfl⟩ := h
  refine ⟨?_, not_lt.mp hw, not_lt.mp hc⟩
  dsimp only
  split <;> omega

end PqPsi.Okvs
